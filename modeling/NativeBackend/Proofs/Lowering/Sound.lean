import NativeBackend.Proofs.Dispatch.Advance
import NativeBackend.Proofs.Lowering.Primitives

namespace NativeBackend

def NodeKind.isUnsupported : NodeKind → Bool
  | .value ⟨_, .catchException⟩ => true
  | .value ⟨_, .pointerLiteral p⟩ => p.root.symbol?.isNone
  | .terminator (.throw ..) => true
  | _ => false

def Graph.Supported (g : Graph) (n : NodeId) : Prop := ∀ k, g.kind? n = some k → k.isUnsupported = false

inductive Pointer.Made : Pointer → Prop
  | global (symbol : String) (pointee : Ty) : Made (.global symbol pointee)
  | memory (region : Nat) (pointee : Ty) : Made (.memory region pointee)
  | function (symbol : String) (signature : FunctionType) : Made (.function symbol signature)
  | derive {p q : Pointer} {what : String} {step : Derivation} {t : Ty} {count unit : Int} :
      Made p → p.derive what step t count unit = .ok q → Made q

theorem Pointer.Made.signature {p : Pointer} (hp : p.Made) {symbol : String} (hroot : p.root = .method symbol) :
    ∃ signature, p.rootPointee = .function signature := by
  induction hp with
  | global | memory => cases hroot
  | function name signature => exact ⟨signature, rfl⟩
  | derive _ h ih =>
      rw [Pointer.derive] at h
      split at h
      · cases h
        exact ih hroot
      · cases h

def Graph.PointersMade (g : Graph) : Prop :=
  ∀ n type p, g.kind? n = some (.value ⟨type, .pointerLiteral p⟩) → p.Made

def Operand.Known (m : Module) (o : Operand) : Prop := ∀ name ∈ o.symbols, m.Knows name

namespace Lowering

open Steps

/-- Values and blocks read known symbols only, and unless an error was reported no node had a placeholder. -/
structure Sound (x : LoweringInput) (s : LoweringState) : Prop where
  values : ∀ (n : NodeId) o, s.values[n]? = some o → o.Known s.emission.module
  blocks : ∀ p ∈ s.blocks, ∀ o ∈ p.2.operands, o.Known s.emission.module
  supported : s.emission.diagnostics.errorCount = 0 → ∀ (n : NodeId) o, s.values[n]? = some o → x.graph.Supported n

/-- A step of lowering ends in a sound state, with all that was there before. -/
structure Goes (x : LoweringInput) (s s' : LoweringState) : Prop where
  sound : Sound x s'
  advances : s.emission.Advances s'.emission

variable {x : LoweringInput} {s s' s'' : LoweringState} {n : NodeId} {o : Operand}

theorem Sound.goes (hs : Sound x s) : Goes x s s := ⟨hs, .refl _⟩

theorem Goes.trans (first : Goes x s s') (second : Goes x s' s'') : Goes x s s'' :=
  ⟨second.sound, first.advances.trans second.advances⟩

theorem known_advances {e e' : Emission} (ho : o.Known e.module) (ha : e.Advances e') : o.Known e'.module :=
  fun name hname => ha.knows name (ho name hname)

theorem known_of_nil {m : Module} (h : o.symbols = []) : o.Known m := by
  rw [Operand.Known, h]
  simp

theorem known_int {m : Module} (i : Int) : (Operand.int i).Known m := known_of_nil rfl

theorem known_global {m : Module} {symbol : String} (h : m.Knows symbol) : (Operand.global symbol).Known m := by
  intro name hname
  rw [List.mem_singleton.1 hname]
  exact h

theorem Sound.emission (hs : Sound x s) {e : Emission} (ha : s.emission.Advances e) :
    Goes x s { s with emission := e } where
  sound :=
    { values := fun m o ho => known_advances (hs.values m o ho) ha
      blocks := fun p hp o ho => known_advances (hs.blocks p hp o ho) ha
      supported := fun hnone => hs.supported (Nat.eq_zero_of_le_zero (hnone ▸ ha.errors)) }
  advances := ha

theorem produce_declares (hs : Sound x s) {change : Module → Module} {name : String}
    (hchange : Module.Declares s.emission.module (change s.emission.module) ∧ (change s.emission.module).Knows name)
    (h : produce (Emission.modifyModule change) s = .ok ⟨⟩ s') : Goes x s s' ∧ s'.emission.module.Knows name := by
  obtain ⟨e, hstep, rfl⟩ := produce_run h
  cases hstep
  exact ⟨hs.emission (.of_declares hchange.1), hchange.2⟩

theorem report_goes (hs : Sound x s) {message : String} (h : report x n message s = .ok ⟨⟩ s') :
    Goes x s s' ∧ 0 < s'.emission.diagnostics.errorCount := by
  obtain ⟨e, hstep, rfl⟩ := produce_run h
  obtain ⟨ha, herror⟩ := Emission.report_advances hstep
  exact ⟨hs.emission ha, herror⟩

def Adds (m : Module) (change : BasicBlock → BasicBlock) : Prop :=
  ∀ B, ∀ o ∈ (change B).operands, o ∈ B.operands ∨ o.Known m

theorem adds_push {m : Module} {i : Instruction} (hi : ∀ o ∈ i.operands, o.Known m) : Adds m (·.push i) := by
  intro B o ho
  simp only [BasicBlock.operands, BasicBlock.push, List.flatMap_append, List.mem_append, List.flatMap_singleton] at ho ⊢
  have := hi o
  tauto

theorem adds_pushPhi (m : Module) (l : Local) (t : IrType) : Adds m (·.pushPhi ⟨l, t, []⟩) := by
  intro B o ho
  left
  simpa [BasicBlock.operands, BasicBlock.pushPhi] using ho

theorem adds_terminator {m : Module} {t : Terminator} (ht : ∀ o ∈ t.operands, o.Known m) :
    Adds m fun B => { B with terminator := some t } := by
  intro B o ho
  simp only [BasicBlock.operands, List.mem_append, Option.toList_some, List.flatMap_singleton] at ho ⊢
  have := ht o
  tauto

theorem adds_addIncoming {m : Module} (ho : o.Known m) (index : Nat) (label : String) :
    Adds m (·.addIncoming index o label) := by
  intro B o' ho'
  simp only [BasicBlock.operands, BasicBlock.addIncoming, List.mem_append, List.mem_flatMap, List.mem_map] at ho' ⊢
  refine or_iff_not_imp_right.2 fun hnew => ho'.imp_left (Or.imp_left ?_)
  rintro ⟨p, hp, q, hq, rfl⟩
  obtain ⟨i, hi⟩ := List.mem_iff_getElem?.1 hp
  rw [List.getElem?_modify] at hi
  obtain ⟨p', hp', rfl⟩ := Option.map_eq_some_iff.1 hi
  refine ⟨p', List.mem_of_getElem? hp', q, ?_, rfl⟩
  split at hq
  · rcases List.mem_append.1 hq with hq | hq
    · exact hq
    · rw [List.mem_singleton.1 hq] at hnew
      exact absurd ho hnew
  · exact hq

theorem Sound.discover (hs : Sound x s) (b : BlockId) : Goes x s { s with blocks := ensure b s.blocks } := by
  refine ⟨⟨hs.values, fun p hp => ?_, hs.supported⟩, .refl _⟩
  dsimp only [ensure] at hp
  split at hp
  · exact hs.blocks p hp
  · rcases List.mem_append.1 hp with hp | hp
    · exact hs.blocks p hp
    · rw [List.mem_singleton.1 hp]
      simp [BasicBlock.operands]

theorem Sound.changeAt (hs : Sound x s) {change : BasicBlock → BasicBlock} (hadd : Adds s.emission.module change)
    (b : BlockId) (next : Nat) : Goes x s { s with blocks := changeAt b change s.blocks, nextLocal := next } := by
  refine ⟨⟨hs.values, fun p hp o ho => ?_, hs.supported⟩, .refl _⟩
  obtain ⟨q, hq, rfl⟩ := List.mem_map.1 hp
  dsimp only at ho
  split at ho
  · exact (hadd q.2 o ho).elim (hs.blocks q hq o) id
  · exact hs.blocks q hq o ho

theorem emit_goes (hs : Sound x s) {i : Instruction} (hi : ∀ o ∈ i.operands, o.Known s.emission.module)
    (h : emit x n i s = .ok ⟨⟩ s') : Goes x s s' := by
  rw [emit_apply] at h
  cases h
  have hg := hs.discover (x.schedule.blockOf n)
  exact hg.trans (hg.sound.changeAt (adds_push hi) _ _)

theorem Goes.define {s₁ : LoweringState} (hg : Goes x s s₁) {f : Local → Instruction}
    (h : define x n f s₁ = .ok o s') (hf : ∀ l, ∀ o ∈ (f l).operands, o.Known s₁.emission.module) :
    Goes x s s' ∧ o.Known s'.emission.module := by
  rw [Lowering.define_apply] at h
  cases h
  have hg₁ := hg.trans (hg.sound.discover (x.schedule.blockOf n))
  exact ⟨hg₁.trans (hg₁.sound.changeAt (adds_push (hf _)) _ _), known_of_nil rfl⟩

theorem known_call {m : Module} {callee : Operand} (hcallee : callee.Known m) {args : List (IrType × Operand)}
    (hargs : ∀ a ∈ args, a.2.Known m) (result : Option Local) (t : IrType) :
    ∀ o ∈ (Instruction.call result t callee args).operands, o.Known m := by
  intro o ho
  rcases List.mem_cons.1 ho with rfl | ho
  · exact hcallee
  · obtain ⟨a, ha, rfl⟩ := List.mem_map.1 ho
    exact hargs a ha

theorem callRoutine_goes (hs : Sound x s) {r : Routine} {args : List (IrType × Operand)}
    (hargs : ∀ a ∈ args, a.2.Known s.emission.module) (h : callRoutine x n r args s = .ok ⟨⟩ s') : Goes x s s' := by
  obtain ⟨_, s₁, hdeclare, hemit⟩ := bind_eq_ok.1 h
  obtain ⟨hg, hknown⟩ := produce_declares hs (s.emission.module.declareFunction_declares _ _) hdeclare
  have hargs' := fun a ha => known_advances (hargs a ha) hg.advances
  exact hg.trans (emit_goes hg.sound (known_call (known_global hknown) hargs' _ _) hemit)

theorem Goes.askRoutine {s₁ : LoweringState} (hg : Goes x s s₁) {r : Routine} {args : List (IrType × Operand)}
    (hargs : ∀ a ∈ args, a.2.Known s₁.emission.module) (h : askRoutine x n r args s₁ = .ok o s') :
    Goes x s s' ∧ o.Known s'.emission.module := by
  obtain ⟨_, s₂, hdeclare, hdefine⟩ := bind_eq_ok.1 h
  obtain ⟨hg', hknown⟩ := produce_declares hg.sound (s₁.emission.module.declareFunction_declares _ _) hdeclare
  have hargs' := fun a ha => known_advances (hargs a ha) hg'.advances
  exact (hg.trans hg').define hdefine fun l => known_call (known_global hknown) hargs' (some l) _

theorem Sound.remember (hs : Sound x s) (ho : o.Known s.emission.module)
    (hn : s.emission.diagnostics.errorCount = 0 → x.graph.Supported n) :
    Goes x s { s with values := s.values.insert n o } := by
  refine ⟨⟨fun m o' ho' => ?_, hs.blocks, fun hnone m o' ho' => ?_⟩, .refl _⟩
  · dsimp only at ho'
    obtain ⟨-, rfl⟩ | ⟨-, ho'⟩ := Maps.getElem?_insert_eq_some.1 ho'
    · exact ho
    · exact hs.values m o' ho'
  · dsimp only at ho'
    obtain ⟨rfl, -⟩ | ⟨-, ho'⟩ := Maps.getElem?_insert_eq_some.1 ho'
    · exact hn hnone
    · exact hs.supported hnone m o' ho'

theorem supported_of_kind {g : Graph} {k : NodeKind} (hk : g.kind? n = some k) (h : k.isUnsupported = false) :
    g.Supported n := by
  intro k' hk'
  cases hk.symm.trans hk'
  exact h

/-- What is assumed of the function that lowers operands: it goes from a sound state to another, and the operand
that it gives is known. -/
def LowersSoundly (x : LoweringInput) (lower : NodeId → LowerM Operand) : Prop :=
  ∀ {s : LoweringState} {n : NodeId} {o : Operand} {s' : LoweringState}, Sound x s → lower n s = .ok o s' →
    Goes x s s' ∧ o.Known s'.emission.module

theorem Goes.operand {lower : NodeId → LowerM Operand} (hlower : LowersSoundly x lower) {s₁ : LoweringState}
    (hg : Goes x s s₁) (os : List Operand) (hos : ∀ a ∈ os, a.Known s₁.emission.module) (h : lower n s₁ = .ok o s') :
    Goes x s s' ∧ ∀ a ∈ os ++ [o], a.Known s'.emission.module := by
  obtain ⟨hg', ho⟩ := hlower hg.sound h
  refine ⟨hg.trans hg', fun a ha => ?_⟩
  rcases List.mem_append.1 ha with ha | ha
  · exact known_advances (hos a ha) hg'.advances
  · rw [List.mem_singleton.1 ha]
    exact ho

end Lowering

end NativeBackend
