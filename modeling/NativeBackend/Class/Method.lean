import NativeBackend.Descriptor

namespace NativeBackend

def dotted (name : String) : String := name.map fun c => if c = '/' then '.' else c

structure MethodFlags where
  isStatic : Bool := false
  isAbstract : Bool := false
  isNative : Bool := false
  isPrivate : Bool := false
  deriving DecidableEq, Repr

structure Method where
  enclosing : String
  name : String
  descriptor : MethodDescriptor
  flags : MethodFlags
  hasBody : Bool
  deriving Repr

namespace Method

/-- An abstract method has no body, whatever is declared. -/
def declare (enclosing name : String) (descriptor : MethodDescriptor) (flags : MethodFlags)
    (hasBody : Bool) : Method :=
  ⟨enclosing, name, descriptor, flags, hasBody && !flags.isAbstract⟩

def isStatic (m : Method) : Bool := m.flags.isStatic

def isAbstract (m : Method) : Bool := m.flags.isAbstract

def isNative (m : Method) : Bool := m.flags.isNative

/-- Takes part in virtual dispatch: neither static, private nor an initializer. -/
def isVirtual (m : Method) : Bool :=
  !m.flags.isStatic && !m.flags.isPrivate && m.name.toList.head? != some '<'

def hasSelector (m : Method) (name : String) (descriptor : MethodDescriptor) : Bool :=
  m.name == name && m.descriptor == descriptor

def sameSelector (m n : Method) : Bool := m.hasSelector n.name n.descriptor

/-- Methods are told apart by class, name and descriptor. -/
instance : BEq Method := ⟨fun m n => m.enclosing == n.enclosing && m.sameSelector n⟩

def symbol (m : Method) : String := dotted m.enclosing ++ "." ++ m.name ++ m.descriptor.text

def text (m : Method) : String := m.enclosing ++ "." ++ m.name ++ m.descriptor.text

instance : ToString Method := ⟨text⟩

end Method

end NativeBackend
