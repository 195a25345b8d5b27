import NativeBackend.Ir.Constant
import NativeBackend.Types.Layout

namespace NativeBackend

def roundUp (n align : Nat) : Nat := (n + align - 1) / align * align

theorem alignUp_eq_roundUp (n align : Nat) (h : 0 < align) : alignUp n align = roundUp n align := by
  rw [alignUp, roundUp]
  split
  · obtain rfl : align = 1 := by omega
    simp
  · have hsum : (n : Int) + align - 1 = (n + align - 1 : Nat) := by omega
    rw [hsum]
    push_cast
    rfl

theorem roundUp_of_dvd {n align : Nat} (hpos : 0 < align) (h : align ∣ n) : roundUp n align = n := by
  obtain ⟨k, rfl⟩ := h
  rw [roundUp, Nat.add_sub_assoc hpos, Nat.mul_add_div hpos, Nat.div_eq_of_lt (by omega), Nat.add_zero, Nat.mul_comm]

namespace IrType

def startOf (packed : Bool) (cursor : Nat) (type : IrType) : Nat :=
  if packed then cursor else roundUp cursor type.align

mutual

/-- Bytes of storage. Fields of a packed struct follow each other; elsewhere each lies at its alignment and the end
is rounded up. -/
def size : IrType → Nat
  | .void | .function _ => 0
  | .i1 | .i8 => 1
  | .i16 => 2
  | .i32 | .float => 4
  | .i64 | .double | .ptr => 8
  | .array length element => length * element.size
  | .struct true fields => endOf true 0 fields
  | .struct false fields => roundUp (endOf false 0 fields) (alignAll fields)

def endOf (packed : Bool) (cursor : Nat) : List IrType → Nat
  | [] => cursor
  | type :: rest => endOf packed (startOf packed cursor type + type.size) rest

end

end IrType

namespace Constant

mutual

/-- The scalars of an initializer of a type that starts at an offset, each with its own offset and type. What is
given as zero as a whole is one entry. -/
def scalars (start : Nat) : IrType → Constant → List (Nat × IrType × Constant)
  | .array _ element, .array _ values => elementScalars element start values
  | .struct packed _, .struct _ fields => fieldScalars packed start 0 fields
  | type, value => [(start, type, value)]

def elementScalars (type : IrType) (start : Nat) : List Constant → List (Nat × IrType × Constant)
  | [] => []
  | value :: rest => scalars start type value ++ elementScalars type (start + type.size) rest

def fieldScalars (packed : Bool) (base cursor : Nat) : List (IrType × Constant) → List (Nat × IrType × Constant)
  | [] => []
  | (type, value) :: rest =>
    scalars (base + type.startOf packed cursor) type value ++
      fieldScalars packed base (type.startOf packed cursor + type.size) rest

end

/-- The number that a load of a type finds where a scalar was put: the bits of its constant at the scalar's width. -/
def loaded? (t : Ty) (type : IrType) : Constant → Option Int
  | .int n =>
    let bits := BitVec.ofInt (8 * type.size) n
    some (if t.isSigned then bits.toInt else bits.toNat)
  | _ => none

end Constant

end NativeBackend
