import NativeBackend.Class.Basic
import NativeBackend.Text.Quoted
import NativeBackend.Text.Record

namespace NativeBackend

def Descriptor.shown : Descriptor → String
  | .void => "Void"
  | .boolean => "Boolean"
  | .byte => "Byte"
  | .short => "Short"
  | .char => "Char"
  | .int => "Int"
  | .float => "Float"
  | .long => "Long"
  | .double => "Double"
  | .object name => "Class(" ++ quoted name ++ ")"
  | .array element => "Array(" ++ element.shown ++ ")"

def MethodDescriptor.shown (d : MethodDescriptor) : String :=
  recordText "MethodDescriptor" [("params", listText (d.params.map (·.shown))),
    ("return_type", d.returns.shown)]

def MethodFlags.shown (f : MethodFlags) : String :=
  recordText "MethodFlags" [("is_static", toString f.isStatic), ("is_abstract", toString f.isAbstract),
    ("is_native", toString f.isNative), ("is_private", toString f.isPrivate)]

def Method.shown (m : Method) : String :=
  recordText "MethodElement" [("enclosing", quoted m.enclosing), ("name", quoted m.name),
    ("descriptor", m.descriptor.shown), ("flags", m.flags.shown), ("has_body", toString m.hasBody)]

def Field.shown (f : Field) : String :=
  recordText "FieldElement" [("name", quoted f.name), ("descriptor", f.descriptor.shown),
    ("is_static", toString f.isStatic), ("offset", toString f.offset)]

def ClassKind.shown : ClassKind → String
  | .concrete => "Concrete"
  | .abstractClass => "Abstract"
  | .interface => "Interface"

namespace ClassDef

mutual

def shown : ClassDef → String
  | ⟨name, typeId, kind, parent, interfaces, methods, fields, instanceSize⟩ =>
    recordText "ClassDefinition" [("name", quoted name), ("type_id", toString typeId),
      ("kind", kind.shown), ("super_class", optionText (shownParent parent)),
      ("interfaces", listText (shownAll interfaces)), ("methods", listText (methods.map (·.shown))),
      ("fields", listText (fields.map (·.shown))), ("instance_size", toString instanceSize)]

def shownParent : Option ClassDef → Option String
  | none => none
  | some parent => some parent.shown

def shownAll : List ClassDef → List String
  | [] => []
  | i :: rest => i.shown :: shownAll rest

end

end ClassDef

end NativeBackend
