import NativeBackend.Ir.Function
import NativeBackend.Proofs.Graph.Flow

namespace NativeBackend

def BasicBlock.defs (b : BasicBlock) : List Local :=
  b.phis.map (·.result) ++ b.instructions.filterMap (·.result?)

namespace Function

def entryLabel (f : Function) : String := (f.blocks.head?.map (·.label)).getD ""

def flow (f : Function) : Flow String where
  entry := f.entryLabel
  next a c := ∃ b ∈ f.blocks, b.label = a ∧ ∃ t, b.terminator = some t ∧ c ∈ t.labels

def DefinedAbove (f : Function) (l : Local) (label : String) : Prop :=
  l ∈ f.params ∨ ∃ b ∈ f.blocks, b.label ≠ label ∧ f.flow.Dominates b.label label ∧ l ∈ b.defs

def DefinedAtEnd (f : Function) (l : Local) (label : String) : Prop :=
  l ∈ f.params ∨ ∃ b ∈ f.blocks, f.flow.Dominates b.label label ∧ l ∈ b.defs

/-- Locals are defined once, and where that is dominates where they are used. -/
structure Ssa (f : Function) : Prop where
  nodup : (f.params ++ f.blocks.flatMap (·.defs)).Nodup
  instructions : ∀ b ∈ f.blocks, ∀ before i after, b.instructions = before ++ i :: after →
    ∀ l, .ofLocal l ∈ i.operands → f.DefinedAbove l b.label ∨ l ∈ b.phis.map (·.result) ∨
      l ∈ before.filterMap (·.result?)
  terminator : ∀ b ∈ f.blocks, ∀ t, b.terminator = some t → ∀ l, .ofLocal l ∈ t.operands →
    f.DefinedAtEnd l b.label
  phis : ∀ b ∈ f.blocks, ∀ p ∈ b.phis, ∀ o label, (o, label) ∈ p.incoming →
    label ∈ f.blocks.map (·.label) ∧ ∀ l, o = .ofLocal l → f.DefinedAtEnd l label

end Function

end NativeBackend
