import ScriptTree.Diagnostic
import ScriptTree.Forest.Lineage

/-!
# Reporters

A reporter records diagnostics, tells a listener and prints, in this order. A listener may act on the reporter while
it is told: it may clear the records, or answer a warning with an error. Clearing forgets records only; what was
printed, the current file name and the listener stay.
-/

namespace ScriptTree

/-- What a listener does after it has noted a diagnostic in the journal. -/
inductive Listener where
  | collect
  /-- Clears the records. -/
  | clear
  /-- Reports an error for each warning. -/
  | escalate
  deriving DecidableEq, Repr

/-- What a listener was told: the text, and how many records there were. -/
structure Notice where
  text : String
  recorded : Nat
  deriving DecidableEq, Repr

/-- A reporter and all that it has done. -/
structure Reporter where
  records : Array Diagnostic := #[]
  filename : String := ""
  listener : Option Listener := none
  journal : Array Notice := #[]
  printed : Array String := #[]
  deriving Repr, Inhabited

namespace Reporter

/-- Forgets the records. -/
def clear (r : Reporter) : Reporter := { r with records := #[] }

/-- Adds a record and notes it in the journal if there is a listener. -/
def enter (r : Reporter) (d : Diagnostic) : Reporter :=
  let r := { r with records := r.records.push d }
  if r.listener.isNone then r
  else { r with journal := r.journal.push ⟨d.text, r.records.size⟩ }

/-- Prints a diagnostic. -/
def print (r : Reporter) (d : Diagnostic) : Reporter := { r with printed := r.printed.push d.printed }

/-- The error that answers a warning. -/
def escalation (r : Reporter) (d : Diagnostic) : Diagnostic :=
  { d with severity := .error, message := "escalated: " ++ d.message, filename := r.filename }

/-- What the listener does on a diagnostic. An escalated error is no warning, so it is not answered again. -/
def respond (r : Reporter) (d : Diagnostic) : Reporter :=
  match r.listener with
  | some .clear => r.clear
  | some .escalate => if d.severity = .warning then (r.enter (r.escalation d)).print (r.escalation d) else r
  | some .collect | none => r

/-- Records, tells and prints a diagnostic. -/
def record (r : Reporter) (d : Diagnostic) : Reporter := ((r.enter d).respond d).print d

/-- Reports at a line and column of the current file. -/
def report (r : Reporter) (severity : Severity) (message : String) (line column : Int) : Reporter :=
  r.record { severity, message, filename := r.filename, line, column }

/-- Reports at a node: in the file of its program, if it has one, and on its line. -/
def reportAt (r : Reporter) (f : Forest) (i : NodeId) (severity : Severity) (message : String) : Reporter :=
  r.record
    { severity, message, filename := (f.filename? i).getD r.filename, line := (f.line? i).getD 0, column := 0 }

/-- Whether an error, fatal or not, is recorded. -/
def anyError (r : Reporter) : Bool := r.records.any (·.severity.isError)

/-- Whether a warning is recorded. -/
def anyWarning (r : Reporter) : Bool := r.records.any (·.severity == .warning)

end Reporter

end ScriptTree
