import NativeBackend.Descriptor

namespace NativeBackend

/-- The lowest type id of a class. Those below are reserved for `void` (1), the primitive types
(2 to 9), arrays of them (10 to 17) and reference arrays (18). -/
def firstClassTypeId : Nat := 19

def referenceArrayTypeId : Nat := 18

namespace Descriptor

def primitiveTypeId? : Descriptor → Option Nat
  | .void => some 1
  | .boolean => some 2
  | .byte => some 3
  | .short => some 4
  | .char => some 5
  | .int => some 6
  | .float => some 7
  | .long => some 8
  | .double => some 9
  | .object _ | .array _ => none

def arrayTypeId (element : Descriptor) : Nat :=
  match element.primitiveTypeId? with
  | some id => id + 8
  | none => referenceArrayTypeId

end Descriptor

end NativeBackend
