import RegionIR.Tree.Basic
/-!
# Diagnostics

What every failure amounts to in the end: a message with a level, the stage that issued it, and a
place. A diagnostic that has a span is located at its start.
-/
namespace RegionIR

inductive Level where
  | info
  | warning
  | error
  | critical
  deriving DecidableEq

def Level.text : Level → String
  | info => "INFO"
  | warning => "WARNING"
  | error => "ERROR"
  | critical => "CRITICAL"

structure Diagnostic where
  message : String
  /-- Dotted name of the stage that raised the diagnostic. -/
  issuer : String
  level : Level := .error
  span : Option Span := none
  location : Option Location := span.map Span.start
  deriving DecidableEq

namespace Diagnostic

/-- One line for the user: level, place and message. -/
def report (d : Diagnostic) : String :=
  let place := match d.location with
    | some l => l.text
    | none => "unknown location"
  s!"HLIR | {d.level.text} | {place} | {d.message}"

/-- One line with the issuer and the whole span. -/
def detail (d : Diagnostic) : String :=
  let place := match d.span, d.location with
    | some s, _ => s!" | {s.text}"
    | none, some l => s!" | {l.text}"
    | none, none => ""
  s!"HLIR | {d.level.text} | {d.issuer}{place} | {d.message}"

/-- The message, followed by the place if there is one. -/
def located (d : Diagnostic) : String :=
  match d.location with
  | some l => s!"{d.message} (at {l.text})"
  | none => d.message

/-- A source tree could not be decoded. -/
def badTree (message : String) (location : Option Location) : Diagnostic :=
  { message, issuer := "hlir.ast", location }

/-- A construct that lowering does not support. -/
def unsupported (construct : String) (span : Option Span) : Diagnostic :=
  { message := s!"Unsupported construct: {construct}", issuer := "hlir.lower", span }

end Diagnostic

end RegionIR
