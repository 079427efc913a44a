import RegionIR.Command.Arguments
import RegionIR.Files.Source
import RegionIR.Ir.Outline
/-!
# Running commands

The commands over any surroundings that can read and write files and show lines. `Session` is such
surroundings held in memory.
-/
namespace RegionIR.Command

/-- A row of a table with two columns. -/
structure Row where
  left : String
  right : String

def padded (width : Nat) (s : String) : String :=
  " " ++ s ++ String.ofList (List.replicate (width - s.length) ' ') ++ " "

/-- A horizontal line: its ends, its fill and its crossing. -/
def ruled (left fill cross right : Char) (w₁ w₂ : Nat) : String :=
  String.ofList ([left] ++ List.replicate (w₁ + 2) fill ++ [cross] ++
    List.replicate (w₂ + 2) fill ++ [right])

def Row.line (w₁ w₂ : Nat) (r : Row) : String :=
  "│" ++ padded w₁ r.left ++ "┆" ++ padded w₂ r.right ++ "│"

/-- The lines of a table drawn with box characters: a header, a double line, and rows divided by dashed
lines. Columns are as wide as their longest cell with a space on each side. -/
def tableLines (header : Row) (rows : List Row) : List String :=
  let w₁ := ((header :: rows).map (·.left.length)).foldl max 0
  let w₂ := ((header :: rows).map (·.right.length)).foldl max 0
  [ruled '┌' '─' '┬' '┐' w₁ w₂, header.line w₁ w₂, ruled '╞' '═' '╪' '╡' w₁ w₂] ++
    (rows.map (·.line w₁ w₂)).intersperse (ruled '├' '╌' '┼' '┤' w₁ w₂) ++
    [ruled '└' '─' '┴' '┘' w₁ w₂]

def renderTable (header : Row) (rows : List Row) : String :=
  "\n".intercalate (tableLines header rows)

/-- What a command needs of its surroundings. -/
structure Console (m : Type → Type) where
  read : String → m (Except FileFault String)
  write : String → String → m (Except FileFault Unit)
  /-- Shows a text on the standard output. -/
  print : String → m Unit
  /-- Shows a text on the error output. -/
  warn : String → m Unit

/-- The exit code of a process. -/
inductive Exit where
  | success
  | failure
  | usage
  deriving DecidableEq

def Exit.code : Exit → Nat
  | success => 0
  | failure => 1
  | usage => 2

def versionText : String := "hlir 0.1.0\n"

/-- A file that could not be written. -/
def unwritable (path : String) (fault : FileFault) : Diagnostic :=
  { message := s!"Could not write {Text.quoted path}: {fault.message}", issuer := "hlir.cli" }

/-- Lines, each with its end. -/
def lines (ls : List String) : String := String.join (ls.map (· ++ "\n"))

def helpText : Topic → String
  | .general => lines
    [ "Lower Python source trees into a region-based IR",
      "",
      "Usage: hlir <COMMAND>",
      "",
      "Commands:",
      "  build  Lower a JSON source tree and print its IR",
      "  stats  Count the operators of the lowered IR by opcode",
      "  help   Print this message or the help of the given subcommand(s)",
      "",
      "Options:",
      "  -h, --help     Print help",
      "  -V, --version  Print version" ]
  | .build => lines
    [ "Lower a JSON source tree and print its IR",
      "",
      "Usage: hlir build [OPTIONS] <file>",
      "",
      "Arguments:",
      "  <file>  The JSON tree dump to lower",
      "",
      "Options:",
      "  -d, --dump <STAGE>   Write an intermediate stage to dumped_<stage>.txt" ++
        " [possible values: ast, ir]",
      "  -o, --output <FILE>  Write the IR to this file instead of stdout",
      "  -h, --help           Print help" ]
  | .stats => lines
    [ "Count the operators of the lowered IR by opcode",
      "",
      "Usage: hlir stats [OPTIONS] <file>",
      "",
      "Arguments:",
      "  <file>  The JSON tree dump to lower",
      "",
      "Options:",
      "      --json  Print the counts as JSON",
      "  -h, --help  Print help" ]
  | .help => lines
    [ "Print this message or the help of the given subcommand(s)",
      "",
      "Usage: hlir help [COMMAND]...",
      "",
      "Arguments:",
      "  [COMMAND]...  Print help for the subcommand(s)" ]

/-- The name and the content of a dump. -/
def dumpOf (unit : SourceUnit) (op : Operator) : Stage → String × String
  | .ast => ("dumped_ast.txt", unit.outline.pretty)
  | .ir => ("dumped_ir.txt", op.outline.pretty)

/-- Opcode counts as a JSON list. -/
def tallyJson (t : Tally) : String :=
  let entry := fun (opcode, n) =>
    s!"  \x7b\n    \"opcode\": \"{opcode}\",\n    \"count\": {n}\n  \x7d"
  if t.isEmpty then "[]" else "[\n" ++ ",\n".intercalate (t.map entry) ++ "\n]"

/-- Opcode counts as a table under their sum. -/
def tallyTable (t : Tally) : String :=
  s!"{t.total} operators\n" ++
    renderTable ⟨"Opcode", "Count"⟩ (t.map fun (opcode, n) => ⟨opcode, toString n⟩)

variable {m : Type → Type} [Monad m]

/-- Ends with a diagnostic. -/
def fail (c : Console m) (d : Diagnostic) : m Exit := do
  c.warn (d.report ++ "\n")
  return .failure

/-- Reads a source tree and lowers it. -/
def loadAndLower (c : Console m) (file : String) :
    m (Except Diagnostic (SourceUnit × Operator)) := do
  let content ← c.read file
  return do
    let source ← (SourceFile.ofContent file content).mapError MissingSource.diagnostic
    let unit ← (SourceUnit.load source.content).mapError LoadError.diagnostic
    let op ← unit.lower.mapError LowerError.diagnostic
    return (unit, op)

/-- Writes a dump. A dump that cannot be written is only a warning. -/
def writeDump (c : Console m) (unit : SourceUnit) (op : Operator) (stage : Stage) : m Unit := do
  let (path, content) := dumpOf unit op stage
  match ← c.write path content with
  | .ok () => return ()
  | .error fault => c.warn s!"Could not write {path}: {fault.message}\n"

def build (c : Console m) (file : String) (dump : Option Stage) (output : Option String) :
    m Exit := do
  match ← loadAndLower c file with
  | .error d => fail c d
  | .ok (unit, op) =>
    if let some stage := dump then writeDump c unit op stage
    let text := op.render ++ "\n"
    match output with
    | none =>
      c.print text
      return .success
    | some path =>
      match ← c.write path text with
      | .error fault => fail c (unwritable path fault)
      | .ok () =>
        c.print s!"IR written to {path}\n"
        return .success

def stats (c : Console m) (file : String) (json : Bool) : m Exit := do
  match ← loadAndLower c file with
  | .error d => fail c d
  | .ok (_, op) =>
    c.print ((if json then tallyJson op.tally else tallyTable op.tally) ++ "\n")
    return .success

/-- Runs a command line. -/
def run (c : Console m) (args : List String) : m Exit := do
  match Request.ofArguments args with
  | .error .usage =>
    c.warn "Usage: hlir <COMMAND>\n\nFor more information, try '--help'.\n"
    return .usage
  | .ok (.help topic) =>
    c.print (helpText topic)
    return .success
  | .ok .version =>
    c.print versionText
    return .success
  | .ok (.build file dump output) => build c file dump output
  | .ok (.stats file json) => stats c file json

/-- Surroundings held in memory. -/
structure Session where
  folder : Folder
  out : String := ""
  err : String := ""

/-- A console that works on a session. -/
def Session.console : Console (StateM Session) where
  read path := do return (← get).folder.read path >>= textOfBytes
  write path content := do
    let s ← get
    match s.folder.write path content.toUTF8 with
    | .error fault => return .error fault
    | .ok folder =>
      set { s with folder }
      return .ok ()
  print text := modify fun s => { s with out := s.out ++ text }
  warn text := modify fun s => { s with err := s.err ++ text }

/-- Runs a command line in a folder. -/
def runIn (folder : Folder) (args : List String) : Exit × Session :=
  (run Session.console args).run { folder }

end RegionIR.Command
