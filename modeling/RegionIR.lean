import RegionIR.Text
import RegionIR.Decimal.Layout
import RegionIR.Json.Reader
import RegionIR.Diagnostic
import RegionIR.Tree.Basic
import RegionIR.Schema.Load
import RegionIR.Tree.Outline
import RegionIR.Tree.Written
import RegionIR.Ir.Outline
import RegionIR.Ir.Printer
import RegionIR.Lowering.Annotation
import RegionIR.Lowering.State
import RegionIR.Lowering.Statement
import RegionIR.Compile
import RegionIR.Tree.Build
import RegionIR.Main
import RegionIR.Proofs.Runs
import RegionIR.Proofs.Flat
import RegionIR.Proofs.Derivation
import RegionIR.Proofs.Variables
import RegionIR.Proofs.Extension
import RegionIR.Proofs.Accesses
import RegionIR.Proofs.Effects
import RegionIR.Proofs.Assembly
import RegionIR.Proofs.Growth
import RegionIR.Proofs.Names
import RegionIR.Proofs.Numbering
import RegionIR.Proofs.Rows
import RegionIR.Proofs.Ledger
import RegionIR.Proofs.Operands
import RegionIR.Proofs.Keeping
import RegionIR.Proofs.Typing
import RegionIR.Proofs.Functions
import RegionIR.Proofs.Promotion
import RegionIR.Proofs.Visibility
import RegionIR.Proofs.Phases
import RegionIR.Proofs.Jumps
import RegionIR.Proofs.Meaning
import RegionIR.Proofs.Evaluation
import RegionIR.Proofs.Ages
import RegionIR.Proofs.Agreement
import RegionIR.Proofs.Simulation
import RegionIR.Proofs.Refusals
import RegionIR.Proofs.Acceptance
import RegionIR.Proofs.Refinement
import RegionIR.Proofs.Loops
import RegionIR.Proofs.Correspondence
import RegionIR.Proofs.Discipline
import RegionIR.Proofs.Reach
import RegionIR.Proofs.Flattening
import RegionIR.Proofs.Stops
import RegionIR.Proofs.Lifetimes
import RegionIR.Proofs.Wrapping
import RegionIR.Proofs.Loosening
import RegionIR.Proofs.Rewording
import RegionIR.Proofs.Isolation
import RegionIR.Proofs.History
import RegionIR.Proofs.Shape
import RegionIR.Proofs.Preorder
import RegionIR.Proofs.Memory
import RegionIR.Proofs.Legibility
import RegionIR.Proofs.Printing
import RegionIR.Proofs.Lines
import RegionIR.Proofs.Phrases
import RegionIR.Proofs.Grouping
import RegionIR.Proofs.Pledges
import RegionIR.Proofs.Temporaries
import RegionIR.Proofs.Records
import RegionIR.Proofs.Reordering
import RegionIR.Proofs.Scanning
import RegionIR.Proofs.Tokens
import RegionIR.Proofs.Texts
import RegionIR.Proofs.Recovery
import RegionIR.Proofs.Exchange
import RegionIR.Proofs.Varying
import RegionIR.Proofs.Integers
import RegionIR.Proofs.Draining
import RegionIR.Proofs.Attributes
import RegionIR.Proofs.Quoting
import RegionIR.Proofs.Journal
