import NativeBackend.Memory.Access
import NativeBackend.Pointer.Basic

namespace NativeBackend

abbrev AccessWidth.Value : AccessWidth → Type
  | .bits8 => UInt8
  | .bits16 => UInt16
  | .bits32 => UInt32
  | .bits64 => UInt64
  | .reference => Option Pointer
  | .typeId => UInt32
  | .pointer => Option Pointer

/-- A fixed-length storage region of build-time contents. Booleans are accessed by 8 bits, longs
by aligned 64 bits, and nothing else is. -/
inductive Cell where
  | booleans (values : List Bool)
  | longs (values : List UInt64)
  deriving DecidableEq, Repr

namespace Cell

def kind : Cell → String
  | .booleans _ => "boolean array memory"
  | .longs _ => "long array memory"

def size : Cell → Nat
  | .booleans values => values.length
  | .longs values => values.length * 8

def zeroedBooleans (length : Nat) : Cell := .booleans (List.replicate length false)

def zeroedLongs (length : Nat) : Cell := .longs (List.replicate length 0)

def booleanAt (values : List Bool) (offset : Nat) : Except MemoryError Bool :=
  match values[offset]? with
  | some v => .ok v
  | none => .error (.outOfBounds offset values.length)

def longAt (values : List UInt64) (offset : Nat) : Except MemoryError UInt64 :=
  if offset % 8 ≠ 0 then .error (.misaligned offset 8)
  else
    match values[offset / 8]? with
    | some v => .ok v
    | none => .error (.outOfBounds offset (values.length * 8))

def load (c : Cell) (width : AccessWidth) (offset : Nat) (_mode : ReadMode) :
    Except MemoryError width.Value :=
  match c, width with
  | .booleans values, .bits8 => (booleanAt values offset).map (·.toUInt8)
  | .longs values, .bits64 => longAt values offset
  | c, width => .error (.invalidAccess width c.kind)

def store (c : Cell) (width : AccessWidth) (offset : Nat) (value : width.Value) (_mode : WriteMode) :
    Except MemoryError Cell :=
  match c, width with
  | .booleans values, .bits8 =>
    (booleanAt values offset).map fun _ => .booleans (values.set offset (value != 0))
  | .longs values, .bits64 =>
    (longAt values offset).map fun _ => .longs (values.set (offset / 8) value)
  | c, width => .error (.invalidAccess width c.kind)

variable {α : Type} [DecidableEq α]

def swapIfEqual (current expect update : α) : α × α :=
  (current, if current = expect then update else current)

/-- The prior and the new value of a slot after an exchange: a read and a conditional write, or an
atomic swap. -/
def exchangeSlot (strategy : ExchangeStrategy) (current expect update : α) : α × α :=
  match strategy with
  | .plain =>
    let prior := current
    if prior = expect then (prior, update) else (prior, prior)
  | .acquire | .release | .seqCst => swapIfEqual current expect update

def exchange (c : Cell) (width : AccessWidth) (offset : Nat) (expect update : width.Value)
    (read : ReadMode) (write : WriteMode) : Except MemoryError (width.Value × Cell) :=
  match c, width with
  | .booleans values, .bits8 =>
    (booleanAt values offset).map fun current =>
      let (prior, next) :=
        exchangeSlot (.select read write) current (expect != 0) (update != 0)
      (prior.toUInt8, .booleans (values.set offset next))
  | .longs values, .bits64 =>
    (longAt values offset).map fun current =>
      let (prior, next) := exchangeSlot (.select read write) current expect update
      (prior, .longs (values.set (offset / 8) next))
  | c, width => .error (.invalidAccess width c.kind)

/-- A cell of a new size in bytes that holds the old contents as far as they go, then zero. Longs
are kept whole. -/
def copy (c : Cell) (size : Nat) : Cell :=
  match c with
  | .booleans values => .booleans ((List.range size).map fun i => values.getD i false)
  | .longs values => .longs ((List.range ((size + 7) / 8)).map fun i => values.getD i 0)

def duplicate (c : Cell) : Cell := c.copy c.size

def zeroed : Cell → Cell
  | .booleans values => zeroedBooleans values.length
  | .longs values => zeroedLongs values.length

end Cell

end NativeBackend
