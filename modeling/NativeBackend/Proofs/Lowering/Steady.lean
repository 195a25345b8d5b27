import NativeBackend.Proofs.Lowering.Refusals

namespace NativeBackend

def Error.IsDepth (e : Error) : Prop := ∃ n, e = .internal (.loweringDepth n)

theorem Error.not_isDepth_internal {f : Fault} (h : ∀ n, f ≠ .loweringDepth n) : ¬ (Error.internal f).IsDepth := by
  rintro ⟨n, heq⟩
  exact h n (Error.internal.inj heq)

def Shallow {α : Type} (r : Except Error α) : Prop := ∀ e, r = .error e → ¬ e.IsDepth

theorem Error.IsRefusal.not_isDepth {e : Error} (h : e.IsRefusal) : ¬ e.IsDepth := by
  obtain ⟨f, rfl, hf⟩ := h
  refine Error.not_isDepth_internal ?_
  rintro n rfl
  cases hf

theorem FunctionType.target_shallow (f : FunctionType) : Shallow f.target := fun e he =>
  (f.target_refuses e he).not_isDepth

namespace Lowering

/-- Where something holds of the state, two steps do the same, then something holds again, and what they fail with is
no lack of depth. -/
structure Steady {α : Type} (P : LoweringState → Prop) (Q : α → LoweringState → Prop) (m m' : LowerM α) : Prop where
  same : ∀ s, P s → m' s = m s
  ok : ∀ s a s', P s → m s = .ok a s' → Q a s'
  error : ∀ s e s', P s → m s = .error e s' → ¬ e.IsDepth

namespace Steady

variable {α β : Type} {P P' : LoweringState → Prop} {Q Q' : α → LoweringState → Prop} {R : β → LoweringState → Prop}
  {m m' : LowerM α}

theorem weaken (h : Steady P Q m m') (hP : ∀ s, P' s → P s) (hQ : ∀ a s, Q a s → Q' a s) : Steady P' Q' m m' where
  same s hs := h.same s (hP s hs)
  ok s a s' hs hm := hQ a s' (h.ok s a s' (hP s hs) hm)
  error s e s' hs := h.error s e s' (hP s hs)

theorem bind {f f' : α → LowerM β} (h : Steady P Q m m') (hf : ∀ a, Steady (Q a) R (f a) (f' a)) :
    Steady P R (m >>= f) (m' >>= f') where
  same s hs := by
    cases hm : m s with
    | ok a t =>
        rw [Steps.bind_of_ok hm, Steps.bind_of_ok ((h.same s hs).trans hm)]
        exact (hf a).same t (h.ok s a t hs hm)
    | error e t => rw [Steps.bind_of_error hm, Steps.bind_of_error ((h.same s hs).trans hm)]
  ok s b s' hs hm := by
    obtain ⟨a, t, ha, hb⟩ := Steps.bind_eq_ok.1 hm
    exact (hf a).ok t b s' (h.ok s a t hs ha) hb
  error s e s' hs hm := by
    rcases Steps.bind_eq_error.1 hm with he | ⟨a, t, ha, he⟩
    · exact h.error s e s' hs he
    · exact (hf a).error t e s' (h.ok s a t hs ha) he

theorem of_state (h : ∀ s, P s → Steady P Q m m') : Steady P Q m m' where
  same s hs := (h s hs).same s hs
  ok s a s' hs := (h s hs).ok s a s' hs
  error s e s' hs := (h s hs).error s e s' hs

theorem of_both_ok (h : ∀ s, P s → ∃ a s', m s = .ok a s' ∧ m' s = .ok a s' ∧ Q a s') : Steady P Q m m' where
  same s hs := by
    obtain ⟨a, t, hm, hm', -⟩ := h s hs
    exact hm'.trans hm.symm
  ok s a s' hs hm := by
    obtain ⟨b, t, hok, -, hQ⟩ := h s hs
    cases hok.symm.trans hm
    exact hQ
  error s e s' hs hm := by
    obtain ⟨b, t, hok, -⟩ := h s hs
    cases hok.symm.trans hm

theorem of_ok (h : ∀ s, P s → ∃ a s', m s = .ok a s' ∧ Q a s') : Steady P Q m m := by
  refine of_both_ok fun s hs => ?_
  obtain ⟨a, t, hm, hQ⟩ := h s hs
  exact ⟨a, t, hm, hm, hQ⟩

theorem pure (a : α) (h : ∀ s, P s → Q a s) : Steady P Q (Pure.pure a) (Pure.pure a) :=
  .of_ok fun s hs => ⟨a, s, rfl, h s hs⟩

theorem get : Steady P (fun a s => P s ∧ a = s) (MonadState.get : LowerM LoweringState) MonadState.get :=
  .of_ok fun s hs => ⟨s, s, rfl, hs, rfl⟩

theorem fault {f : Fault} (hf : ∀ n, f ≠ .loweringDepth n) : Steady P Q (Lowering.fault f) (Lowering.fault f) where
  same _ _ := rfl
  ok _ _ _ _ h := by cases h
  error s e s' _ h := by
    cases h
    exact Error.not_isDepth_internal hf

theorem ofExcept {r : Except Error α} (hr : Refuses r) :
    Steady P (fun _ => P) (Lowering.ofExcept r) (Lowering.ofExcept r) := by
  cases r with
  | ok a => exact .pure a fun _ hs => hs
  | error e =>
      refine ⟨fun _ _ => rfl, ?_, ?_⟩
      · rintro s a s' _ ⟨⟩
      · rintro s e' s' _ ⟨⟩
        exact (hr e rfl).not_isDepth

theorem discard {m m' : LowerM α} (h : Steady P (fun _ => P) m m') :
    Steady P (fun _ => P) (Functor.discard m) (Functor.discard m') :=
  h.bind fun _ => .pure _ fun _ hs => hs

theorem forM {step step' : α → LowerM PUnit} {as : List α} (h : ∀ a ∈ as, Steady P (fun _ => P) (step a) (step' a)) :
    Steady P (fun _ => P) (as.forM step) (as.forM step') := by
  induction as with
  | nil => exact .pure _ fun _ hs => hs
  | cons a as ih =>
      simp only [List.forM_eq_forM, List.forM_cons] at ih ⊢
      exact (h a List.mem_cons_self).bind fun _ => ih fun b hb => h b (List.mem_cons_of_mem _ hb)

end Steady

structure Registers (g : Graph) (known : List NodeId) (s : LoweringState) : Prop where
  operand : ∀ n ∈ known, s.values[n]? ≠ none
  nodup : (keys s.blocks).Nodup
  lt : ∀ b ∈ keys s.blocks, b < g.blocks.size

abbrev Stays {α : Type} (g : Graph) (known : List NodeId) (m m' : LowerM α) : Prop :=
  Steady (Registers g known) (fun _ => Registers g known) m m'

variable {g : Graph} {known : List NodeId} {s : LoweringState} {n : NodeId} {b : BlockId} {α : Type}

theorem Registers.length_le (h : Registers g known s) : s.blocks.length ≤ g.blocks.size := by
  have hlength := h.nodup.length_le_of_subset fun b hb => List.mem_range.2 (h.lt b hb)
  simpa [keys] using hlength

theorem Registers.ensure (h : Registers g known s) (hb : b < g.blocks.size) :
    Registers g known { s with blocks := ensure b s.blocks } := by
  refine ⟨h.operand, ?_, ?_⟩
  all_goals
    simp only [keys_ensure]
    split
  · exact h.nodup
  · rename_i hnew
    exact List.nodup_append.2 ⟨h.nodup, List.nodup_singleton b, fun c hc d hd heq =>
      hnew (List.mem_singleton.1 hd ▸ heq ▸ hc)⟩
  · exact h.lt
  · intro c hc
    rcases List.mem_append.1 hc with hc | hc
    · exact h.lt c hc
    · exact List.mem_singleton.1 hc ▸ hb

theorem Registers.insert (h : Registers g known s) (n : NodeId) (o : Operand) :
    Registers g (n :: known) { s with values := s.values.insert n o } := by
  refine ⟨fun m hm => ?_, h.nodup, h.lt⟩
  intro hnone
  obtain ⟨hne, hnone⟩ := Maps.getElem?_insert_eq_none.1 hnone
  exact h.operand m ((List.mem_cons.1 hm).resolve_left (Ne.symm hne)) hnone

theorem Registers.tail (h : Registers g (n :: known) s) : Registers g known s :=
  ⟨fun m hm => h.operand m (List.mem_cons_of_mem _ hm), h.nodup, h.lt⟩

namespace Stays

theorem get : Steady (Registers g known) (fun _ => Registers g known) (MonadState.get : LowerM LoweringState)
    MonadState.get :=
  Steady.get.weaken (fun _ hs => hs) fun _ _ hs => hs.1

theorem produce {step : EmitM α} (hstep : ∀ t e t', step t = .error e t' → ¬ e.IsDepth) :
    Stays g known (Lowering.produce step) (Lowering.produce step) where
  same _ _ := rfl
  ok s a s' hs h := by
    obtain ⟨e, rfl⟩ := produce_eq_ok h
    exact ⟨hs.operand, hs.nodup, hs.lt⟩
  error s e s' _ h := by
    rw [Lowering.produce] at h
    split at h
    · cases h
    · rename_i heq
      cases h
      exact hstep _ _ _ heq

theorem changeModule (change : Module → Module) :
    Stays g known (Lowering.produce (Emission.modifyModule change))
      (Lowering.produce (Emission.modifyModule change)) := by
  refine produce ?_
  rintro t e t' ⟨⟩

theorem freshLocal : Stays g known Lowering.freshLocal Lowering.freshLocal :=
  .of_ok fun s hs => ⟨_, _, freshLocal_apply s, hs.operand, hs.nodup, hs.lt⟩

theorem discover (hb : b < g.blocks.size) : Stays g known (Lowering.discover b) (Lowering.discover b) :=
  .of_ok fun s hs => ⟨_, _, discover_apply b s, hs.ensure hb⟩

theorem modifyBlock (b : BlockId) (change : BasicBlock → BasicBlock) :
    Stays g known (Lowering.modifyBlock b change) (Lowering.modifyBlock b change) := by
  refine .of_ok fun s hs => ⟨_, _, modifyBlock_apply b change s, hs.operand, ?_, fun c hc => hs.lt c ?_⟩
  · rw [keys_changeAt]
    exact hs.nodup
  · rwa [keys_changeAt] at hc

theorem markEffect (n : NodeId) : Stays g known (Lowering.markEffect n) (Lowering.markEffect n) :=
  .of_ok fun _ hs => ⟨_, _, rfl, hs.operand, hs.nodup, hs.lt⟩

theorem remember (n : NodeId) (o : Operand) :
    Steady (Registers g known) (fun _ => Registers g (n :: known)) (Lowering.remember n o) (Lowering.remember n o) :=
  .of_ok fun s hs => ⟨_, _, remember_apply n o s, hs.insert n o⟩

variable {x : LoweringInput} (hx : ∀ n, x.schedule.blockOf n < g.blocks.size)

include hx

theorem emit (n : NodeId) (i : Instruction) : Stays g known (Lowering.emit x n i) (Lowering.emit x n i) :=
  (discover (hx n)).bind fun _ => modifyBlock _ _

theorem define (n : NodeId) (f : Local → Instruction) :
    Stays g known (Lowering.define x n f) (Lowering.define x n f) :=
  freshLocal.bind fun _ => (emit hx n _).bind fun _ => .pure _ fun _ hs => hs

theorem terminate (n : NodeId) (t : Terminator) :
    Stays g known (Lowering.terminate x n t) (Lowering.terminate x n t) := by
  refine (discover (hx n)).bind fun _ => get.bind fun s => ?_
  split
  · exact .fault (by simp)
  · exact modifyBlock _ _

theorem callRoutine (n : NodeId) (r : Routine) (args : List (IrType × Operand)) :
    Stays g known (Lowering.callRoutine x n r args) (Lowering.callRoutine x n r args) :=
  (changeModule _).bind fun _ => emit hx n _

theorem askRoutine (n : NodeId) (r : Routine) (args : List (IrType × Operand)) :
    Stays g known (Lowering.askRoutine x n r args) (Lowering.askRoutine x n r args) :=
  (changeModule _).bind fun _ => define hx n _

omit hx

theorem report (n : NodeId) (message : String) :
    Stays g known (Lowering.report x n message) (Lowering.report x n message) :=
  produce fun _ _ _ h => nomatch h

theorem operandType (n : NodeId) : Stays g known (Lowering.operandType x n) (Lowering.operandType x n) :=
  (Steady.ofExcept (x.graph.valueType_refuses n)).bind fun t => .ofExcept t.target_refuses

theorem numericKind (n : NodeId) : Stays g known (Lowering.numericKind x n) (Lowering.numericKind x n) :=
  (Steady.ofExcept (x.graph.valueType_refuses n)).bind fun t => .ofExcept (t.kind_refuses n)

end Stays

end Lowering

end NativeBackend
