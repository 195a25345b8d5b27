namespace NativeBackend

inductive ReadMode where
  | plain | opaqueRead | acquire | volatile
  deriving DecidableEq, Repr

inductive WriteMode where
  | plain | opaqueWrite | release | volatile
  deriving DecidableEq, Repr

def ReadMode.strength : ReadMode → Nat
  | .plain => 0
  | .opaqueRead => 1
  | .acquire => 2
  | .volatile => 3

def WriteMode.strength : WriteMode → Nat
  | .plain => 0
  | .opaqueWrite => 1
  | .release => 2
  | .volatile => 3

inductive ExchangeStrategy where
  | plain | acquire | release | seqCst
  deriving DecidableEq, Repr

/-- The narrowest operation at least as strong as both modes. -/
def ExchangeStrategy.select (read : ReadMode) (write : WriteMode) : ExchangeStrategy :=
  match read, write with
  | .plain, .plain => .plain
  | r, .plain => if r.strength ≤ ReadMode.acquire.strength then .acquire else .seqCst
  | .plain, w => if w.strength ≤ WriteMode.release.strength then .release else .seqCst
  | _, _ => .seqCst

def ExchangeStrategy.name : ExchangeStrategy → String
  | .plain => "plain"
  | .acquire => "acquire"
  | .release => "release"
  | .seqCst => "seq_cst"

inductive AccessWidth where
  | bits8 | bits16 | bits32 | bits64 | reference | typeId | pointer
  deriving DecidableEq, Repr

def AccessWidth.name : AccessWidth → String
  | .bits8 => "8-bit"
  | .bits16 => "16-bit"
  | .bits32 => "32-bit"
  | .bits64 => "64-bit"
  | .reference => "reference"
  | .typeId => "type id"
  | .pointer => "pointer"

inductive MemoryError where
  | invalidAccess (width : AccessWidth) (cell : String)
  | outOfBounds (offset size : Nat)
  | misaligned (offset align : Nat)
  deriving DecidableEq, Repr

def MemoryError.message : MemoryError → String
  | .invalidAccess width cell => s!"Invalid {width.name} access to {cell}"
  | .outOfBounds offset size => s!"Offset {offset} out of bounds for memory of size {size}"
  | .misaligned offset align => s!"Offset {offset} is not {align}-byte aligned"

end NativeBackend
