import NativeBackend.Types.Basic

namespace NativeBackend

/-- The next multiple of an alignment, by division toward zero. An alignment of at most one leaves
the value as it is. -/
def alignUp (value align : Int) : Int :=
  if align ≤ 1 then value else (value + align - 1).tdiv align * align

namespace Compound

def place (offset : Int) : List (String × Ty) → List Member × Int
  | [] => ([], offset)
  | (name, type) :: rest =>
    let start := alignUp offset type.align
    let (members, finish) := place (start + type.size) rest
    (⟨name, start, type, type.align⟩ :: members, finish)

/-- A struct laid out in declaration order, with its size rounded up to its largest alignment. -/
def layoutStruct (name : String) (fields : List (String × Ty)) : Compound :=
  let (members, finish) := place 0 fields
  let align := members.foldl (fun a m => max a m.align) 1
  ⟨.struct, name, members, alignUp finish align, align⟩

def member? (c : Compound) (name : String) : Option Member := c.members.find? (·.name == name)

def memberAtOrBefore? (c : Compound) (offset : Int) : Option (Member × Nat) :=
  (c.members.zipIdx.filter (·.1.offset ≤ offset)).getLast?

end Compound

end NativeBackend
