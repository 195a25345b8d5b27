import NativeBackend.Types.Layout

namespace NativeBackend

/-- What a pointer starts from. A memory region has a number and no symbol. -/
inductive Root where
  | global (symbol : String)
  | method (symbol : String)
  | memory (region : Nat)
  deriving DecidableEq, Repr

def Root.symbol? : Root → Option String
  | .global symbol | .method symbol => some symbol
  | .memory _ => none

inductive Derivation where
  | element (index : Int)
  | member (index : Nat) (name : String)
  | field (name : String)
  | stride (count : Int)
  deriving DecidableEq, Repr

/-- A typed address: a root, the way from it, and the byte offset that this way amounts to. -/
structure Pointer where
  root : Root
  rootPointee : Ty
  /-- Derivations from the root, the last one first. -/
  path : List Derivation
  pointee : Ty
  offset : Int

namespace Pointer

/-- Pointers are equal when they lie at the same offset from the same root. -/
instance : BEq Pointer := ⟨fun p q => p.root == q.root && p.offset == q.offset⟩

def ofRoot (root : Root) (pointee : Ty) : Pointer := ⟨root, pointee, [], pointee, 0⟩

def global (symbol : String) (pointee : Ty) : Pointer := .ofRoot (.global symbol) pointee

def memory (region : Nat) (pointee : Ty) : Pointer := .ofRoot (.memory region) pointee

def function (symbol : String) (signature : FunctionType) : Pointer :=
  .ofRoot (.method symbol) (.function signature)

def method (m : Method) : Pointer := .function m.symbol m.functionType

def pathText (root : Root) : List Derivation → String
  | [] =>
    match root with
    | .global symbol | .method symbol => "&" ++ symbol
    | .memory region => s!"&memory#{region}"
  | .element index :: path => "&(" ++ pathText root path ++ s!")[{index}]"
  | .member _ name :: path => "&(" ++ pathText root path ++ ")->" ++ name
  | .field name :: path => "&(" ++ pathText root path ++ ")->" ++ name
  | .stride count :: path => "(" ++ pathText root path ++ s!" + {count})"

def text (p : Pointer) : String := pathText p.root p.path

instance : ToString Pointer := ⟨text⟩

def inRange (n : Int) : Bool := Int64.minValue.toInt ≤ n && n ≤ Int64.maxValue.toInt

/-- Takes one derivation to `count` units of `unit` bytes further on. -/
def derive (p : Pointer) (what : String) (step : Derivation) (pointee : Ty) (count unit : Int) :
    Except PointerError Pointer :=
  if inRange (count * unit) && inRange (p.offset + count * unit) then
    .ok ⟨p.root, p.rootPointee, step :: p.path, pointee, p.offset + count * unit⟩
  else .error (.overflow what p.pointee.text)

/-- An element of an array; the index may lie outside of the declared count. -/
def element (p : Pointer) (index : Int) : Except PointerError Pointer :=
  match p.pointee with
  | .array element _ => p.derive "an element" (.element index) element index element.size
  | other => .error (.wrongPointee "an element" other.text)

def member (p : Pointer) (index : Nat) : Except PointerError Pointer :=
  match p.pointee with
  | .compound layout =>
    match layout.members[index]? with
    | some m => p.derive "a member" (.member index m.name) m.type 1 m.offset
    | none => .error (.noSuchMember "member" (toString index) p.pointee.text)
  | other => .error (.wrongPointee "a member" other.text)

def instanceField (p : Pointer) (name : String) : Except PointerError Pointer :=
  match p.pointee with
  | .object cls =>
    match cls.instanceField? name with
    | some f => p.derive "a field" (.field name) f.type 1 f.offset
    | none => .error (.noSuchMember "field" name p.pointee.text)
  | other => .error (.wrongPointee "a field" other.text)

def stride (p : Pointer) (count : Int) : Except PointerError Pointer :=
  if count = 0 then .ok p
  else p.derive "an element stride" (.stride count) p.pointee count p.pointee.size

end Pointer

end NativeBackend
