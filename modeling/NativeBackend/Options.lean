import NativeBackend.Error
import NativeBackend.Json.Basic

namespace NativeBackend

/-- How work on many methods is done. Without a number there are as many workers as processors. -/
structure ParallelOptions where
  maxParallelism : Option Nat := none
  failFast : Bool := false
  deriving DecidableEq, Repr

structure Options where
  pointerSize : Int := 8
  typeIdSize : Int := 4
  parallel : ParallelOptions := {}
  emitDispatchStatistics : Bool := true
  pie : Bool := false
  deriving DecidableEq, Repr

namespace Options

def parallelFields : List String := ["max_parallelism", "fail_fast"]

def putParallel (key : String) (v : Json) (o : ParallelOptions) : Option ParallelOptions :=
  if key = "max_parallelism" then
    (v.integer? 0 (UInt64.size - 1)).map fun n => { o with maxParallelism := some n.toNat }
  else v.bool?.map fun b => { o with failFast := b }

def fields : List String := ["pointer_size", "type_id_size", "parallel", "emit_dispatch_statistics", "pie"]

def put (key : String) (v : Json) (o : Options) : Option Options :=
  if key = "pointer_size" then
    (v.integer? Int64.minValue.toInt Int64.maxValue.toInt).map fun n => { o with pointerSize := n }
  else if key = "type_id_size" then
    (v.integer? Int64.minValue.toInt Int64.maxValue.toInt).map fun n => { o with typeIdSize := n }
  else if key = "parallel" then
    (v.record? parallelFields putParallel {}).map fun p => { o with parallel := p }
  else if key = "emit_dispatch_statistics" then v.bool?.map fun b => { o with emitDispatchStatistics := b }
  else v.bool?.map fun b => { o with pie := b }

def ofJson? (v : Json) : Option Options := v.record? fields put {}

def validate (o : Options) : Except Error Unit :=
  if o.pointerSize ≠ 4 ∧ o.pointerSize ≠ 8 then .error (.config (.pointerSize o.pointerSize))
  else if o.typeIdSize ≠ 1 ∧ o.typeIdSize ≠ 2 ∧ o.typeIdSize ≠ 4 ∧ o.typeIdSize ≠ 8 then
    .error (.config (.typeIdSize o.typeIdSize))
  else if o.parallel.maxParallelism = some 0 then .error (.config .noWorkers)
  else .ok ()

def parse (text : String) : Except Error Options :=
  match (Json.parse text).bind ofJson? with
  | none => .error (.config .unreadable)
  | some o => o.validate.map fun _ => o

end Options

variable {α β : Type}

/-- Applies a function to every item. The results are in the order of the items, whatever the number
of workers; failing fast, the first error stands for all. -/
def ParallelOptions.map (o : ParallelOptions) (f : α → Except Error β) (items : List α) :
    Except Error (List (Except Error β)) :=
  if o.failFast then (items.mapM f).map (·.map .ok) else .ok (items.map f)

end NativeBackend
