import NativeBackend.Ir.Instruction

namespace NativeBackend

/-- A basic block. Instructions may be added after the terminator is set; they still come before
it. -/
structure BasicBlock where
  label : String
  phis : List Phi := []
  instructions : List Instruction := []
  terminator : Option Terminator := none

namespace BasicBlock

def lines (b : BasicBlock) : List String :=
  (b.label ++ ":") ::
    (b.phis.map (·.text) ++ b.instructions.map (·.text) ++ b.terminator.toList.map (·.text)).map ("  " ++ ·)

def text (b : BasicBlock) : String := String.join (b.lines.map (· ++ "\n"))

def instructionCount (b : BasicBlock) : Nat :=
  b.phis.length + b.instructions.length + b.terminator.toList.length

def push (b : BasicBlock) (i : Instruction) : BasicBlock :=
  { b with instructions := b.instructions ++ [i] }

def pushPhi (b : BasicBlock) (p : Phi) : BasicBlock := { b with phis := b.phis ++ [p] }

def addIncoming (b : BasicBlock) (index : Nat) (value : Operand) (label : String) : BasicBlock :=
  { b with phis := b.phis.modify index fun p => { p with incoming := p.incoming ++ [(value, label)] } }

end BasicBlock

structure Function where
  name : String
  signature : Signature
  blocks : List BasicBlock := []
  nextLocal : Nat

namespace Function

def declare (name : String) (signature : Signature) : Function where
  name := name
  signature := signature
  nextLocal := signature.params.length

def params (f : Function) : List Local := (List.range f.signature.params.length).map Local.mk

def freshLocal (f : Function) : Local × Function := (⟨f.nextLocal⟩, { f with nextLocal := f.nextLocal + 1 })

def addBlock (f : Function) (label : String) : Nat × Function :=
  (f.blocks.length, { f with blocks := f.blocks ++ [{ label := label }] })

def modifyBlock (f : Function) (index : Nat) (change : BasicBlock → BasicBlock) : Function :=
  { f with blocks := f.blocks.modify index change }

def instructionCount (f : Function) : Nat := f.blocks.foldr (fun b n => b.instructionCount + n) 0

def text (f : Function) : String :=
  "define " ++ f.signature.returns.text ++ " " ++ globalName f.name ++ "(" ++
    ", ".intercalate ((f.signature.params.zip f.params).map fun (t, l) => t.text ++ " " ++ l.text) ++
    ") \x7b\n" ++ "\n".intercalate (f.blocks.map (·.text)) ++ "\x7d\n"

instance : ToString Function := ⟨text⟩

end Function

end NativeBackend
