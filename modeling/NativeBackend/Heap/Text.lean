import NativeBackend.Class.Text
import NativeBackend.Heap.Object
import NativeBackend.Number.Shortest
import Std.Data.TreeMap

namespace NativeBackend

def guardedText (contents : String) : String := recordText "RwLock" [("data", contents)]

variable (object : ObjectId → String)

namespace HeapValue

def shown : HeapValue → String
  | .boolean value => "Boolean(" ++ toString value ++ ")"
  | .byte value => s!"Byte({value.toInt})"
  | .char value => s!"Char({value.toNat})"
  | .short value => s!"Short({value.toInt})"
  | .int value => s!"Int({value.toInt})"
  | .float bits => "Float(" ++ BinaryFormat.single.text bits.toNat ++ ")"
  | .long value => s!"Long({value.toInt})"
  | .double bits => "Double(" ++ BinaryFormat.double.text bits.toNat ++ ")"
  | .reference target => "Reference(" ++ optionText (target.map object) ++ ")"

end HeapValue

namespace HeapArray

def shown : HeapArray → String
  | .boolean elements => "Boolean(" ++ listText (elements.map toString) ++ ")"
  | .byte elements => "Byte(" ++ listText (elements.map fun v => toString v.toInt) ++ ")"
  | .char elements => "Char(" ++ listText (elements.map fun v => toString v.toNat) ++ ")"
  | .short elements => "Short(" ++ listText (elements.map fun v => toString v.toInt) ++ ")"
  | .int elements => "Int(" ++ listText (elements.map fun v => toString v.toInt) ++ ")"
  | .float elements =>
    "Float(" ++ listText (elements.map fun bits => BinaryFormat.single.text bits.toNat) ++ ")"
  | .long elements => "Long(" ++ listText (elements.map fun v => toString v.toInt) ++ ")"
  | .double elements =>
    "Double(" ++ listText (elements.map fun bits => BinaryFormat.double.text bits.toNat) ++ ")"
  | .reference elements =>
    "Reference(" ++ guardedText (listText (elements.map fun target => optionText (target.map object))) ++ ")"

end HeapArray

namespace HeapObject

def shownFields (values : List (String × HeapValue)) : String :=
  let sorted : Std.TreeMap String HeapValue := .ofList values
  tableText (sorted.toList.map fun (name, value) => (quoted name, value.shown object))

def shown : HeapObject → String
  | .instanceOf cls values =>
    "Instance(" ++ recordText "InstanceObject" [("class", cls.shown),
      ("fields", guardedText (shownFields object values))] ++ ")"
  | .arrayOf contents => "Array(" ++ contents.shown object ++ ")"

end HeapObject

def HeapValue.targets : HeapValue → List ObjectId
  | .reference (some id) => [id]
  | _ => []

def HeapObject.targets : HeapObject → List ObjectId
  | .instanceOf _ values => values.flatMap (·.2.targets)
  | .arrayOf (.reference elements) => elements.filterMap id
  | .arrayOf _ => []

/-- An object of a store with all that it refers to. Writing down an object that leads back to itself never ends. -/
def ObjectId.textIn (store : Array HeapObject) (id : ObjectId) : Option String :=
  match store[id]? with
  | none => some ""
  | some o => do
    let texts ← o.targets.mapM fun target => target |>.textIn store
    return o.shown fun target => ((o.targets.zip texts).lookup target).getD ""
partial_fixpoint

/-- A value with the objects it leads to. Where one of them leads back to itself the program never returns, and there
is no text. -/
def HeapValue.textIn (store : Array HeapObject) (value : HeapValue) : Option String := do
  let texts ← value.targets.mapM fun target => target.textIn store
  return value.shown fun target => ((value.targets.zip texts).lookup target).getD ""

end NativeBackend
