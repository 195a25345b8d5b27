import NativeBackend.Memory.Access

namespace NativeBackend

/-- Failure to derive a pointer; the pointee is kept as it is displayed. -/
inductive PointerError where
  | outOfBounds (offset size : Int) (pointee : String)
  | zeroSized (offset : Int) (pointee : String)
  | unattributable (offset : Int) (pointee : String)
  | wrongPointee (what pointee : String)
  | noSuchMember (what name pointee : String)
  | overflow (what pointee : String)
  deriving DecidableEq, Repr

def PointerError.message : PointerError → String
  | .outOfBounds offset size pointee => s!"Offset {offset} is outside of pointee {pointee} of size {size}"
  | .zeroSized offset pointee => s!"Offset {offset} into zero-sized pointee {pointee}"
  | .unattributable offset pointee => s!"Offset {offset} cannot be attributed to any part of {pointee}"
  | .wrongPointee what pointee => s!"Cannot take {what} of pointer to {pointee}"
  | .noSuchMember what name pointee => s!"No {what} '{name}' in {pointee}"
  | .overflow what pointee => s!"Byte offset overflows deriving {what} of {pointee}"

/-- Cause of an internal error. Nodes and blocks are given by number. -/
inductive Fault where
  | trailingDescriptor (text : String)
  | malformedDescriptor (text : String)
  | malformedMethodDescriptor (text : String)
  | reservedTypeId (cls : String) (id : Nat)
  | sharedTypeId (id : Nat) (first second : String)
  | duplicateClass (cls : String)
  | unknownNode (node : Nat)
  | notValue (node : Nat) (shown : String)
  | usedAsValue (node : Nat) (shown : String)
  | notEffect (node : Nat) (shown : String)
  | notPhi (node : Nat)
  | openBlock (block : Nat) (label : String)
  | notTerminator (block : Nat) (shown : String)
  | terminatedTwice (label : String)
  | malformedGraph (method label : String)
  | parameterRange (index : Nat) (function : String)
  | noIntegerWidth (bytes : Nat)
  | noFloatWidth (bytes : Nat)
  | bitwiseOnFloat (operation : String)
  | notNumeric (node : Nat) (type : String)
  | conversionTarget (type : String)
  | conversionKinds (source target : String)
  | loweringDepth (node : Nat)
  | noDominators
  | unscheduledUser (user node : Nat)
  | unscheduled (node : Nat)
  | duplicateData (symbol : String)
  | duplicateFunction (symbol : String)
  | vtableOfInterface (name : String)
  | itableOfClass (name : String)
  | typeIdSize (bytes : Int)
  | slotTaken (array : String) (slot : Nat)
  | notInstantiable (kind name : String)
  | fieldOfArray (field : String)
  | noInstanceField (field cls : String)
  | misfit (value cls field descriptor : String)
  | notReferenceArray
  | elementRange (index length : Nat)
  | noStringClass
  | noStringValue
  | stringValueType (descriptor : String)
  | overlappingField (field cls : String)
  | unserializable (value descriptor : String)
  | other (text : String)
  /-- Stands for no error: the call never returns, since it never comes to the end of the message that it makes. -/
  | endless
  deriving DecidableEq, Repr

def Fault.message : Fault → String
  | .trailingDescriptor text => s!"Trailing characters in descriptor '{text}'"
  | .malformedDescriptor text => s!"Malformed descriptor '{text}'"
  | .malformedMethodDescriptor text => s!"Malformed method descriptor '{text}'"
  | .reservedTypeId cls id => s!"Class {cls} uses reserved type id {id}"
  | .sharedTypeId id first second => s!"Type id {id} assigned to both {first} and {second}"
  | .duplicateClass cls => s!"Class {cls} registered twice"
  | .unknownNode node => s!"Node n{node} does not exist"
  | .notValue node shown => s!"Node n{node} is not a value: {shown}"
  | .usedAsValue node shown => s!"Node n{node} used as a value: {shown}"
  | .notEffect node shown => s!"Node n{node} on an effect chain is not an effect: {shown}"
  | .notPhi node => s!"Node n{node} is not a phi"
  | .openBlock block label => s!"Block b{block} ({label}) has no terminator"
  | .notTerminator block shown => s!"Block b{block} ends in a non-terminator {shown}"
  | .terminatedTwice label => s!"Block {label} terminated twice"
  | .malformedGraph method label =>
      s!"Malformed graph for {method}: Node added to terminated block '{label}'"
  | .parameterRange index function => s!"Parameter {index} out of range for {function}"
  | .noIntegerWidth bytes => s!"No integer type of width {bytes}"
  | .noFloatWidth bytes => s!"No floating point type of width {bytes}"
  | .bitwiseOnFloat operation => s!"Bitwise {operation} on floating point operands"
  | .notNumeric node type => s!"Operand n{node} of type {type} is not numeric"
  | .conversionTarget type => s!"Conversion to non-numeric type {type}"
  | .conversionKinds source target =>
      s!"Numeric conversion from {source} to {target} does not cross the integer/float boundary"
  | .loweringDepth node => s!"Node n{node} is nested too deeply to lower"
  | .noDominators => "Dominators could not be computed"
  | .unscheduledUser user node => s!"User n{user} of n{node} is unscheduled"
  | .unscheduled node => s!"Node n{node} could not be scheduled"
  | .duplicateData symbol => s!"Data symbol {symbol} defined twice"
  | .duplicateFunction symbol => s!"Function {symbol} defined twice"
  | .vtableOfInterface name => s!"Vtable requested for interface {name}"
  | .itableOfClass name => s!"Itable requested for class {name}"
  | .typeIdSize bytes => s!"Unsupported type id size {bytes}"
  | .slotTaken array slot => s!"{array} slot {slot} assigned twice"
  | .notInstantiable kind name => s!"Cannot instantiate {kind} {name}"
  | .fieldOfArray field => s!"Field {field} set on an array"
  | .noInstanceField field cls => s!"No instance field {field} in {cls}"
  | .misfit value cls field descriptor =>
      s!"Value {value} does not fit field {cls}.{field} of type {descriptor}"
  | .notReferenceArray => "Element store into a non-reference array"
  | .elementRange index length => s!"Index {index} out of bounds for length {length}"
  | .noStringClass => "String literal without a java/lang/String class"
  | .noStringValue => "java/lang/String has no value field"
  | .stringValueType descriptor => s!"Unsupported java/lang/String value field type {descriptor}"
  | .overlappingField field cls => s!"Field {field} of {cls} overlaps the previous field"
  | .unserializable value descriptor => s!"Cannot serialize {value} as {descriptor}"
  | .other text => text
  | .endless => ""

/-- A fault whose message holds a text, where the text comes to an end. -/
def Fault.withText (text : Option String) (fault : String → Fault) : Fault := text.elim .endless fault

inductive OptionsError where
  | pointerSize (bytes : Int)
  | typeIdSize (bytes : Int)
  | noWorkers
  | unreadable
  | other (text : String)
  deriving DecidableEq, Repr

def OptionsError.message : OptionsError → String
  | .pointerSize bytes => s!"pointer_size must be 4 or 8, got {bytes}"
  | .typeIdSize bytes => s!"type_id_size must be 1, 2, 4 or 8, got {bytes}"
  | .noWorkers => "max_parallelism must be at least 1"
  | .unreadable => "not a JSON text of compile options"
  | .other text => text

inductive Error where
  | internal (fault : Fault)
  | pointer (error : PointerError)
  | memory (error : MemoryError)
  | compilationFailed (errors : Nat)
  | config (error : OptionsError)
  | threadPool (text : String)
  deriving DecidableEq, Repr

def Error.message : Error → String
  | .internal fault => "Internal compiler error: " ++ fault.message
  | .pointer error => "Pointer error: " ++ error.message
  | .memory error => "Memory error: " ++ error.message
  | .compilationFailed errors => s!"Compilation failed with {errors} error(s)"
  | .config error => "Invalid configuration: " ++ error.message
  | .threadPool text => "Thread pool error: " ++ text

/-- Whether an error ends the compilation unit or only fails the build. -/
inductive ErrorSeverity where
  | fatal | recoverable
  deriving DecidableEq, Repr

def Error.severity : Error → ErrorSeverity
  | .internal _ | .pointer _ | .memory _ => .fatal
  | .compilationFailed _ | .config _ | .threadPool _ => .recoverable

end NativeBackend
