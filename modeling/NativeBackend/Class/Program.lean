import NativeBackend.Class.Basic
import NativeBackend.Class.TypeId

namespace NativeBackend

structure Program where
  classes : List ClassDef := []

namespace Program

def insertByTypeId (c : ClassDef) : List ClassDef → List ClassDef
  | [] => [c]
  | d :: rest => if c.typeId ≤ d.typeId then c :: d :: rest else d :: insertByTypeId c rest

/-- Registers a class; its type id and name must be new and its id not reserved. -/
def add (p : Program) (c : ClassDef) : Except Error Program :=
  if c.typeId < firstClassTypeId then .error (.internal (.reservedTypeId c.name c.typeId))
  else
    match p.classes.find? (·.typeId == c.typeId) with
    | some other => .error (.internal (.sharedTypeId c.typeId other.name c.name))
    | none =>
      if p.classes.any (·.name == c.name) then .error (.internal (.duplicateClass c.name))
      else .ok ⟨insertByTypeId c p.classes⟩

def class? (p : Program) (name : String) : Option ClassDef := p.classes.find? (·.name == name)

def maxTypeId (p : Program) : Nat :=
  p.classes.foldl (fun id c => max id c.typeId) (firstClassTypeId - 1)

end Program

inductive Reachability where
  | everything
  /-- Exactly the methods whose name followed by the descriptor is listed. -/
  | selectors (live : List String)

namespace Reachability

def liveMethod (r : Reachability) (m : Method) : Bool :=
  match r with
  | .everything => true
  | .selectors live => live.contains (m.name ++ m.descriptor.text)

def liveDispatch (r : Reachability) (_interface : ClassDef) (m : Method) : Bool := r.liveMethod m

end Reachability

end NativeBackend
