import NativeBackend.Class.Method

namespace NativeBackend

structure Field where
  name : String
  descriptor : Descriptor
  isStatic : Bool
  offset : Int
  deriving DecidableEq, Repr

inductive ClassKind where
  | concrete | abstractClass | interface
  deriving DecidableEq, Repr

def ClassKind.text : ClassKind → String
  | .concrete => "class"
  | .abstractClass => "abstract"
  | .interface => "interface"

/-- A class, abstract class or interface with everything it inherits from. -/
structure ClassDef where
  name : String
  typeId : Nat
  kind : ClassKind
  parent : Option ClassDef
  interfaces : List ClassDef
  methods : List Method
  fields : List Field
  instanceSize : Int

namespace ClassDef

/-- Classes are told apart by type id and name. -/
instance : BEq ClassDef := ⟨fun a b => a.typeId == b.typeId && a.name == b.name⟩

def dottedName (c : ClassDef) : String := dotted c.name

def isInterface (c : ClassDef) : Bool := c.kind == .interface

def isConcrete (c : ClassDef) : Bool := c.kind == .concrete

mutual

def lineage : ClassDef → List ClassDef
  | ⟨name, typeId, kind, parent, interfaces, methods, fields, size⟩ =>
    ⟨name, typeId, kind, parent, interfaces, methods, fields, size⟩ :: lineageOf parent

def lineageOf : Option ClassDef → List ClassDef
  | none => []
  | some parent => parent.lineage

end

def ancestors (c : ClassDef) : List ClassDef := lineageOf c.parent

theorem lineage_eq (c : ClassDef) : c.lineage = c :: c.ancestors := by
  cases c
  simp [lineage, ancestors]

def ownInstanceFields (c : ClassDef) : List Field := c.fields.filter (!·.isStatic)

def instanceFields (c : ClassDef) : List Field := c.lineage.reverse.flatMap ownInstanceFields

/-- The field that a name refers to: the nearest one up the superclass chain. -/
def instanceField? (c : ClassDef) (name : String) : Option Field :=
  c.lineage.findSome? fun k => k.ownInstanceFields.find? (·.name == name)

/-- Replaces the method of the same selector in place, or appends. -/
def overriding (methods : List Method) (m : Method) : List Method :=
  match methods with
  | [] => [m]
  | n :: rest => if n.sameSelector m then m :: rest else n :: overriding rest m

def virtualMethods (c : ClassDef) : List Method := c.methods.filter (·.isVirtual)

/-- Virtual methods of an instance: overrides keep the inherited position, new methods follow. -/
def instanceMethods (c : ClassDef) : List Method :=
  (c.lineage.reverse.flatMap virtualMethods).foldl overriding []

def inheriting (methods : List Method) (m : Method) : List Method :=
  if methods.any (·.sameSelector m) then methods else methods ++ [m]

mutual

def interfaceMethods : ClassDef → List Method
  | ⟨_, _, _, _, interfaces, methods, _, _⟩ =>
    (inheritedMethods interfaces).foldl inheriting (methods.filter (·.isVirtual))

def inheritedMethods : List ClassDef → List Method
  | [] => []
  | i :: rest => i.interfaceMethods ++ inheritedMethods rest

end

mutual

def weight : ClassDef → Nat
  | ⟨_, _, _, _, interfaces, _, _, _⟩ => weightAll interfaces + 1

def weightAll : List ClassDef → Nat
  | [] => 0
  | i :: rest => i.weight + weightAll rest

end

theorem weightAll_append (xs ys : List ClassDef) :
    weightAll (xs ++ ys) = weightAll xs + weightAll ys := by
  induction xs with
  | nil => simp [weightAll]
  | cons x xs ih => simp [weightAll, ih, Nat.add_assoc]

theorem weightAll_reverse (xs : List ClassDef) : weightAll xs.reverse = weightAll xs := by
  induction xs with
  | nil => rfl
  | cons x xs ih => simp [weightAll_append, weightAll, ih, Nat.add_comm]

theorem weight_eq (c : ClassDef) : c.weight = weightAll c.interfaces + 1 := by
  cases c
  simp [weight]

/-- Follows superinterfaces from a stack, top first, keeping the first interface of each type id. -/
def closeInterfaces (found : List ClassDef) (stack : List ClassDef) : List ClassDef :=
  match stack with
  | [] => found
  | i :: rest =>
    if found.any (·.typeId == i.typeId) then closeInterfaces found rest
    else closeInterfaces (found ++ [i]) (i.interfaces.reverse ++ rest)
termination_by weightAll stack
decreasing_by
  · simp [weightAll, weight_eq]
  · simp [weightAll, weightAll_append, weightAll_reverse, weight_eq]

/-- Every interface implemented directly, through superclasses or through superinterfaces, by
increasing type id. -/
def allInterfaces (c : ClassDef) : List ClassDef :=
  (closeInterfaces [] (c.lineage.flatMap (·.interfaces)).reverse).mergeSort (·.typeId ≤ ·.typeId)

def extendsInterface (c other : ClassDef) : Bool :=
  c.typeId != other.typeId && c.allInterfaces.any (·.typeId == other.typeId)

def declared? (c : ClassDef) (test : Method → Bool) (name : String) (descriptor : MethodDescriptor) :
    Option Method :=
  c.methods.find? fun m => test m && m.hasSelector name descriptor

def candidates (c : ClassDef) (name : String) (descriptor : MethodDescriptor) :
    List (ClassDef × Method) :=
  c.allInterfaces.filterMap fun i => (i.declared? (·.isVirtual) name descriptor).map (i, ·)

def maximalCandidates (c : ClassDef) (name : String) (descriptor : MethodDescriptor) : List Method :=
  let all := c.candidates name descriptor
  (all.filter fun (i, _) => !all.any fun (other, _) => other.extendsInterface i).map (·.2)

/-- The superclass chain decides first. Otherwise the maximally specific interface methods do: a
single default wins, several defaults conflict, and without a default the first one is taken. -/
def resolveMethod? (c : ClassDef) (name : String) (descriptor : MethodDescriptor) : Option Method :=
  match c.lineage.findSome? (·.declared? (!·.isStatic) name descriptor) with
  | some m => some m
  | none =>
    let maximal := c.maximalCandidates name descriptor
    match maximal.filter (!·.isAbstract) with
    | [] => maximal.head?
    | [m] => some m
    | _ => none

end ClassDef

end NativeBackend
