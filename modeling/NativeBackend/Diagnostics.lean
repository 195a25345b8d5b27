import NativeBackend.Error

namespace NativeBackend

/-- Where a node comes from: a source line and a bytecode index, `-1` where unknown, and the call
node it was inlined through. -/
structure SourceInfo where
  callSite : Option Nat := none
  line : Int := -1
  bci : Int := -1
  deriving DecidableEq, Repr

def SourceInfo.text (s : SourceInfo) : String := s!"line {s.line}, bci {s.bci}"

inductive Severity where
  | error | warning
  deriving DecidableEq, Repr

def Severity.text : Severity → String
  | .error => "error"
  | .warning => "warning"

structure Diagnostic where
  severity : Severity
  element : String
  location : Option SourceInfo
  message : String
  deriving DecidableEq, Repr

def Diagnostic.text (d : Diagnostic) : String :=
  let place := match d.location with
    | some info => " (" ++ info.text ++ ")"
    | none => ""
  d.severity.text ++ ": " ++ d.element ++ place ++ ": " ++ d.message

structure Diagnostics where
  entries : List Diagnostic := []

namespace Diagnostics

def report (d : Diagnostics) (element : String) (location : Option SourceInfo) (message : String) :
    Diagnostics := ⟨d.entries ++ [⟨.error, element, location, message⟩]⟩

def warn (d : Diagnostics) (element : String) (location : Option SourceInfo) (message : String) :
    Diagnostics := ⟨d.entries ++ [⟨.warning, element, location, message⟩]⟩

def errors (d : Diagnostics) : List Diagnostic := d.entries.filter (·.severity == .error)

def warnings (d : Diagnostics) : List Diagnostic := d.entries.filter (·.severity == .warning)

def errorCount (d : Diagnostics) : Nat := d.errors.length

def check (d : Diagnostics) : Except Error Unit :=
  if d.errorCount = 0 then .ok () else .error (.compilationFailed d.errorCount)

end Diagnostics

end NativeBackend
