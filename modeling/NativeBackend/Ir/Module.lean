import NativeBackend.Error
import NativeBackend.Ir.Function
import Std.Data.TreeMap

namespace NativeBackend

inductive Linkage where
  | global | internal | localOnly
  deriving DecidableEq, Repr

def Linkage.text : Linkage → String
  | .global => ""
  | .internal => "internal "
  | .localOnly => "private "

structure DataDefinition where
  name : String
  type : IrType
  value : Constant
  linkage : Linkage
  isConstant : Bool

def DataDefinition.text (d : DataDefinition) : String :=
  globalName d.name ++ " = " ++ d.linkage.text ++ (if d.isConstant then "constant " else "global ") ++
    d.type.text ++ " " ++ d.value.text ++ s!", align {max d.type.align 8}"

/-- The output module. Symbols are kept sorted, so its text does not depend on the order in which
they were added. -/
structure Module where
  name : String
  pie : Bool
  functions : Std.TreeMap String Function := ∅
  declarations : Std.TreeMap String Signature := ∅
  externals : Std.TreeMap String IrType := ∅
  data : Std.TreeMap String DataDefinition := ∅

namespace Module

/-- Declares an external function unless the symbol is a known function. -/
def declareFunction (m : Module) (name : String) (signature : Signature) : Module :=
  if m.functions.contains name then m
  else { m with declarations := m.declarations.insertIfNew name signature }

def declareData (m : Module) (name : String) (type : IrType) : Module :=
  if m.data.contains name then m else { m with externals := m.externals.insertIfNew name type }

/-- Defines data under a symbol that has none; a declaration of it goes away. -/
def define (m : Module) (d : DataDefinition) : Except Error Module :=
  if m.data.contains d.name then .error (.internal (.duplicateData d.name))
  else .ok { m with externals := m.externals.erase d.name, data := m.data.insert d.name d }

def addData (m : Module) (name : String) (type : IrType) (value : Constant) (linkage : Linkage) :
    Except Error Module := m.define ⟨name, type, value, linkage, true⟩

def addVariable (m : Module) (name : String) (type : IrType) (value : Constant) (linkage : Linkage) :
    Except Error Module := m.define ⟨name, type, value, linkage, false⟩

def addFunction (m : Module) (f : Function) : Except Error Module :=
  if m.functions.contains f.name then .error (.internal (.duplicateFunction f.name))
  else .ok { m with declarations := m.declarations.erase f.name, functions := m.functions.insert f.name f }

def dataNames (m : Module) : List String := m.data.keys

def externalText (name : String) (type : IrType) : String :=
  globalName name ++ " = external global " ++ type.text ++ "\n"

def declarationText (name : String) (signature : Signature) : String :=
  "declare " ++ signature.returns.text ++ " " ++ globalName name ++ "(" ++
    ", ".intercalate (IrType.texts signature.params) ++ ")\n"

def text (m : Module) : String :=
  "; ModuleID = '" ++ m.name ++ "'\nsource_filename = \"" ++ m.name ++ "\"\n" ++
    (if m.data.isEmpty && m.externals.isEmpty then "" else "\n") ++
    String.join (m.externals.toList.map fun (name, type) => externalText name type) ++
    String.join (m.data.values.map (·.text ++ "\n")) ++
    String.join (m.functions.values.map ("\n" ++ ·.text)) ++
    (if m.declarations.isEmpty then "" else "\n") ++
    String.join (m.declarations.toList.map fun (name, signature) => declarationText name signature) ++
    (if m.pie then "\n!llvm.module.flags = !\x7b!0\x7d\n!0 = !\x7bi32 7, !\"PIE Level\", i32 2\x7d\n" else "")

instance : ToString Module := ⟨text⟩

end Module

end NativeBackend
