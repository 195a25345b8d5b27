import NativeBackend.Ir.Module

namespace NativeBackend

/-- A function of the runtime library. Those that raise an error never return. -/
inductive Routine where
  | raiseAbstractMethodError
  | raiseIncompatibleClassChangeError
  | raiseUnsatisfiedLinkError
  | raiseArithmeticException
  | raiseArrayStoreException
  | raiseNegativeArraySizeException
  | raiseNullPointerException
  | raiseArrayIndexOutOfBoundsException
  | monitorEnter
  | monitorExit
  | lookupVirtual
  | lookupInterface
  deriving DecidableEq, Repr

namespace Routine

def all : List Routine :=
  [.raiseAbstractMethodError, .raiseIncompatibleClassChangeError, .raiseUnsatisfiedLinkError,
    .raiseArithmeticException, .raiseArrayStoreException, .raiseNegativeArraySizeException,
    .raiseNullPointerException, .raiseArrayIndexOutOfBoundsException, .monitorEnter, .monitorExit,
    .lookupVirtual, .lookupInterface]

def symbol : Routine → String
  | .raiseAbstractMethodError => "kiln_raise_abstract_method_error"
  | .raiseIncompatibleClassChangeError => "kiln_raise_incompatible_class_change_error"
  | .raiseUnsatisfiedLinkError => "kiln_raise_unsatisfied_link_error"
  | .raiseArithmeticException => "kiln_raise_arithmetic_exception"
  | .raiseArrayStoreException => "kiln_raise_array_store_exception"
  | .raiseNegativeArraySizeException => "kiln_raise_negative_array_size_exception"
  | .raiseNullPointerException => "kiln_raise_null_pointer_exception"
  | .raiseArrayIndexOutOfBoundsException => "kiln_raise_array_index_out_of_bounds_exception"
  | .monitorEnter => "kiln_monitor_enter"
  | .monitorExit => "kiln_monitor_exit"
  | .lookupVirtual => "kiln_lookup_virtual"
  | .lookupInterface => "kiln_lookup_interface"

def returns : Routine → Bool
  | .monitorEnter | .monitorExit | .lookupVirtual | .lookupInterface => true
  | _ => false

def signature : Routine → Signature
  | .monitorEnter | .monitorExit => ⟨.void, [.ptr]⟩
  | .lookupVirtual => ⟨.ptr, [.ptr, .i32]⟩
  | .lookupInterface => ⟨.ptr, [.ptr, .i32, .i32]⟩
  | _ => ⟨.void, []⟩

def declare (r : Routine) (m : Module) : Module := m.declareFunction r.symbol r.signature

end Routine

end NativeBackend
