import NativeBackend.Proofs.Lowering.Primitives

namespace NativeBackend.Lowering

/-- What is assumed of the function that lowers operands: it works off the need for a value. -/
def LowersValues (x : LoweringInput) (lower : NodeId → LowerM Operand) : Prop :=
  ∀ (h : List Event) (s : LoweringState) (n : NodeId) (o : Operand) (s' : LoweringState), Reflects x h s →
    lower n s = .ok o s' → ∃ w, Lowers x h [.need n] w ∧ Does x h w s s' ∧ Bound (h ++ w) n o

variable {x : LoweringInput} {lower : NodeId → LowerM Operand} {h : List Event} {s s' : LoweringState}
  {n : NodeId} {o : Operand}

theorem lowerArgs_eq_ok (hlower : LowersValues x lower) (hr : Reflects x h s) {args : List NodeId}
    {passed : List (IrType × Operand)} (ha : lowerArgs x lower args s = .ok passed s') :
    ∃ w, Lowers x h (args.map .need) w ∧ Does x h w s s' ∧
      List.Forall₂ (Passes x.graph (Bound (h ++ w))) args passed := by
  induction args generalizing h s passed with
  | nil =>
      cases ha
      exact ⟨[], .nil, hr.does_nil, .nil⟩
  | cons n args ih =>
      obtain ⟨type, t, hvalue, htarget, ha₁⟩ := operandType_bind_eq_ok ha
      obtain ⟨o, s₁, ho, ha₂⟩ := Steps.bind_eq_ok.1 ha₁
      obtain ⟨w, hl, hd, hb⟩ := hlower h _ n o s₁ hr ho
      obtain ⟨rest, s₂, hrest, ha₃⟩ := Steps.bind_eq_ok.1 ha₂
      cases ha₃
      obtain ⟨w', hl', hd', hp⟩ := ih hd.reflects hrest
      refine ⟨w ++ w', hl.append hl', hd.trans hd', ?_⟩
      rw [← List.append_assoc]
      exact .cons ⟨type, hvalue, htarget, hb.append w'⟩ hp

def targetInputs : CallTarget → List NodeId
  | .direct _ => []
  | .indirect pointer _ => [pointer]

theorem lowerCallee_eq_ok (hlower : LowersValues x lower) (hr : Reflects x h s) {target : CallTarget}
    (hc : lowerCallee lower target s = .ok o s') :
    ∃ w, Lowers x h ((targetInputs target).map .need) w ∧ Does x h w s s' ∧ Calls (Bound (h ++ w)) target o := by
  cases target with
  | direct m =>
      obtain ⟨signature, -, hc₁⟩ := ofExcept_bind_eq_ok.1 hc
      obtain ⟨_, s₁, hdeclare, hc₂⟩ := Steps.bind_eq_ok.1 hc₁
      obtain ⟨e, rfl⟩ := produce_eq_ok hdeclare
      cases hc₂
      exact ⟨[], .nil, hr.does_emission e, .direct⟩
  | indirect pointer signature =>
      obtain ⟨w, hl, hd, hb⟩ := hlower h s pointer o s' hr hc
      exact ⟨w, hl, hd, .indirect hb⟩

theorem callRoutine_eq_ok (hlower : LowersValues x lower) (hr : Reflects x h s) {a : ActionNode}
    (hk : x.graph.kind? n = some (.action a)) {object : NodeId} {r : Routine}
    (hc : (do callRoutine x n r [(.ptr, ← lower object)] : LowerM Unit) s = .ok ⟨⟩ s') :
    ∃ w p, Lowers x h [.need object] w ∧ Bound (h ++ w) object p ∧
      Does x h (w ++ [.performed n (.call none r.signature.returns (.global r.symbol) [(.ptr, p)])]) s
        { s' with effects := n :: s'.effects } := by
  obtain ⟨p, s₁, hp, hc₁⟩ := Steps.bind_eq_ok.1 hc
  obtain ⟨w, hl, hd, hb⟩ := hlower h _ object p s₁ hr hp
  obtain ⟨_, s₂, hdeclare, hemit⟩ := Steps.bind_eq_ok.1 hc₁
  obtain ⟨e, rfl⟩ := produce_eq_ok hdeclare
  have hdoes : Does x h w s { s₁ with emission := e } := ⟨hd.reflects.emission e, hd.grows⟩
  exact ⟨w, p, hl, hb, hdoes.trans (hdoes.reflects.emitAction hk rfl hemit)⟩

theorem lowerAction_eq_ok (hlower : LowersValues x lower) (hr : Reflects x h s) {a : ActionNode} {d : NodeId}
    (hk : x.graph.kind? n = some (.action a)) (hdep : (NodeKind.action a).effectDependency? = some d)
    (hdone : Done h d) (ha : lowerAction x lower n a s = .ok ⟨⟩ s') :
    ∃ w i, Lowers x h ((x.graph.inputs n).map .need) w ∧ Selects x.graph (Bound (h ++ w)) n i ∧
      Does x h (w ++ [.performed n i]) s { s' with effects := n :: s'.effects } := by
  rw [Graph.inputs_of_kind hk]
  cases a with
  | blockEntry b => cases hdep
  | store pointer value mode dependency =>
      cases hdep
      obtain ⟨type, t, hvalue, htarget, ha₁⟩ := operandType_bind_eq_ok ha
      obtain ⟨p, s₁, hp, ha₂⟩ := Steps.bind_eq_ok.1 ha₁
      obtain ⟨w, hl, hd, hb⟩ := hlower h _ pointer p s₁ hr hp
      obtain ⟨v, s₂, hv, hemit⟩ := Steps.bind_eq_ok.1 ha₂
      obtain ⟨w', hl', hd', hb'⟩ := hlower _ _ value v s₂ hd.reflects hv
      have hdoes := hd.trans hd'
      refine ⟨w ++ w', _, .known hdone (hl.append hl'), .store hk hvalue htarget ?_ ?_,
        hdoes.trans (hdoes.reflects.emitAction hk rfl hemit)⟩
      · rw [← List.append_assoc]
        exact hb.append w'
      · rw [← List.append_assoc]
        exact hb'
  | monitorEnter object dependency =>
      cases hdep
      obtain ⟨w, p, hl, hb, hdoes⟩ := callRoutine_eq_ok hlower hr hk ha
      exact ⟨w, _, .known hdone hl, .monitorEnter hk hb, hdoes⟩
  | monitorExit object dependency =>
      cases hdep
      obtain ⟨w, p, hl, hb, hdoes⟩ := callRoutine_eq_ok hlower hr hk ha
      exact ⟨w, _, .known hdone hl, .monitorExit hk hb, hdoes⟩

theorem Reflects.done_iff (hr : Reflects x h s) :
    (s.effects.contains n || s.values.contains n) = true ↔ Done h n := by
  rw [Bool.or_eq_true, List.contains_iff_mem, hr.effects, Done, Std.TreeMap.contains_eq_isSome_getElem?]
  refine or_congr_right ⟨fun hsome => ?_, ?_⟩
  · obtain ⟨o, ho⟩ := Option.isSome_iff_exists.1 hsome
    exact ⟨o, hr.values n o ho⟩
  · rintro ⟨o, ho⟩
    cases hn : s.values[n]? with
    | some _ => rfl
    | none => exact absurd ho (hr.fresh n hn o)

theorem Lowers.dependency_first {h w w' : List Event} {d : NodeId} {ns : List NodeId}
    (hl : Lowers x h [.need d] w) (hl' : Lowers x (h ++ w) ((d :: ns).map .need) w') :
    Lowers x h ((d :: ns).map .need) (w ++ w') := by
  have hd : Done (h ++ w) d := hl.done List.mem_cons_self
  cases hl' with
  | known _ hl' => exact hl.append hl'
  | entered hnot | bound hnot | emit hnot | late hnot | phi hnot => exact absurd hd hnot

theorem Lowers.need_of_dependency {h w w' : List Event} {n d : NodeId} (hnew : ¬ Done h n)
    (hinputs : ∃ rest, x.graph.inputs n = d :: rest) (hl : Lowers x h [.need d] w)
    (hl' : Lowers x (h ++ w) [.need n] w') : Lowers x h [.need n] (w ++ w') := by
  obtain ⟨rest, hinputs⟩ := hinputs
  have hfirst : Done (h ++ w) n → Lowers x h [.need n] (w ++ []) := fun hn =>
    .late hnew (hinputs ▸ ⟨rest, rfl⟩ : [d] <+: x.graph.inputs n) (fun _ => Nat.le_refl 1) hl hn .nil
  cases hl' with
  | known hn hnil =>
      cases hnil
      exact hfirst hn
  | entered _ hk hnil => simp [Graph.inputs_of_kind hk, NodeKind.inputs, ActionNode.inputs] at hinputs
  | bound _ ho hnil => cases ho <;> simp_all [Graph.inputs_of_kind, NodeKind.inputs, ValueOp.inputs]
  | phi _ hk => simp [Graph.inputs_of_kind hk, NodeKind.inputs, ValueOp.inputs] at hinputs
  | @emit _ u _ _ e _ _ hin he hnil =>
      cases hnil
      rw [hinputs] at hin
      have hin' := hl.dependency_first hin
      rw [← hinputs] at hin'
      rw [← List.append_assoc]
      exact .emit hnew hin' (by simpa using he) .nil
  | @late _ u _ _ inputs _ _ hpre hlen hin hn hnil =>
      cases hnil
      rw [List.append_nil]
      cases inputs with
      | nil =>
          cases hin
          exact hfirst (by simpa using hn)
      | cons d' ns =>
          rw [hinputs, List.cons_prefix_cons] at hpre
          obtain ⟨rfl, hpre⟩ := hpre
          have hin' := hl.dependency_first hin
          have hlate := Lowers.late hnew (hinputs ▸ List.cons_prefix_cons.2 ⟨rfl, hpre⟩) hlen hin'
            (by simpa using hn) (Lowers.nil (x := x))
          simpa using hlate

theorem lowerEffect_eq_ok (hlower : LowersValues x lower) {w : List Event} {k : NodeKind} {d : NodeId}
    (hnew : ¬ Done h n) (hk : x.graph.kind? n = some k) (hd : k.effectDependency? = some d)
    (hl : Lowers x h [.need d] w) (hr : Reflects x (h ++ w) s) (he : lowerEffect x lower n s = .ok ⟨⟩ s') :
    ∃ w', Lowers x h [.need n] (w ++ w') ∧ Does x (h ++ w) w' s s' := by
  have hinputs : ∃ rest, x.graph.inputs n = d :: rest := by
    rw [Graph.inputs_of_kind hk]
    exact inputs_of_effectDependency? hd
  rw [lowerEffect, hk] at he
  cases k with
  | terminator t => cases hd
  | value v =>
      obtain ⟨o, s₁, hlow, hdiscard⟩ := Steps.bind_eq_ok.1 he
      cases hdiscard
      obtain ⟨w', hl', hdoes, -⟩ := hlower _ _ n o _ hr hlow
      exact ⟨w', Lowers.need_of_dependency hnew hinputs hl hl', hdoes⟩
  | action a =>
      obtain ⟨_, s₁, haction, hmark⟩ := Steps.bind_eq_ok.1 he
      cases hmark
      obtain ⟨w', i, hl', hselects, hdoes⟩ := lowerAction_eq_ok hlower hr hk hd (hl.done List.mem_cons_self) haction
      obtain ⟨rest, hrest⟩ := hinputs
      rw [hrest] at hl'
      have hin := hl.dependency_first hl'
      rw [← hrest] at hin
      have hemits : Emits x (h ++ (w ++ w')) n (.performed n i) := .action hk (by simpa using hselects)
      exact ⟨w' ++ [.performed n i], by simpa using Lowers.emit hnew hin hemits .nil, hdoes⟩

theorem pendingEffects_succ {steps : Nat} {later pending : List NodeId}
    (hp : pendingEffects x later (steps + 1) n s = .ok pending s') :
    ((s.effects.contains n || s.values.contains n) = true ∧ pending = later ∧ s' = s) ∨
      ¬ (s.effects.contains n || s.values.contains n) = true ∧
        ((∃ b, x.graph.kind? n = some (.action (.blockEntry b)) ∧ pending = later ∧ markEffect n s = .ok ⟨⟩ s') ∨
          ∃ k d, x.graph.kind? n = some k ∧ k.effectDependency? = some d ∧
            pendingEffects x (n :: later) steps d s = .ok pending s') := by
  rw [pendingEffects, Steps.bind_of_ok (Steps.get_apply s)] at hp
  by_cases hdone : (s.effects.contains n || s.values.contains n) = true
  · rw [if_pos hdone] at hp
    cases hp
    exact .inl ⟨hdone, rfl, rfl⟩
  · rw [if_neg hdone] at hp
    refine .inr ⟨hdone, ?_⟩
    cases hk : x.graph.kind? n with
    | none =>
        rw [hk] at hp
        cases hp
    | some k =>
        rw [hk] at hp
        cases k with
        | terminator t => cases hp
        | action a =>
            cases a with
            | blockEntry b =>
                cases hp
                exact .inl ⟨b, rfl, rfl, rfl⟩
            | _ => exact .inr ⟨_, _, rfl, rfl, hp⟩
        | value v =>
            cases hd : NodeKind.effectDependency? (.value v) with
            | none =>
                simp only [hd] at hp
                cases hp
            | some d => exact .inr ⟨_, d, rfl, hd, by simpa only [hd] using hp⟩

theorem pendingEffects_eq_ok (hlower : LowersValues x lower) (hr : Reflects x h s) {steps : Nat}
    {later pending : List NodeId} (hp : pendingEffects x later steps n s = .ok pending s') :
    ∃ first, pending = first ++ later ∧ ∀ s'', first.forM (lowerEffect x lower) s' = .ok ⟨⟩ s'' →
      ∃ w, Lowers x h [.need n] w ∧ Does x h w s s'' := by
  induction steps generalizing n later with
  | zero => cases hp
  | succ steps ih =>
      rcases pendingEffects_succ hp with ⟨hdone, rfl, rfl⟩ | ⟨hnot, hstep⟩
      · refine ⟨[], rfl, ?_⟩
        rintro s'' ⟨⟩
        exact ⟨[], .known (hr.done_iff.1 hdone) .nil, hr.does_nil⟩
      · have hnew : ¬ Done h n := fun hn => hnot (hr.done_iff.2 hn)
        rcases hstep with ⟨b, hk, rfl, hmark⟩ | ⟨k, d, hk, hd, hstep⟩
        · cases hmark
          refine ⟨[], rfl, ?_⟩
          rintro s'' ⟨⟩
          exact ⟨[.entered n], .entered hnew hk .nil, hr.entered hk⟩
        · obtain ⟨first, rfl, hfirst⟩ := ih hstep
          refine ⟨first ++ [n], by simp, fun s'' hforM => ?_⟩
          rw [List.forM_eq_forM, List.forM_append] at hforM
          obtain ⟨_, s₁, hbefore, hlast⟩ := Steps.bind_eq_ok.1 hforM
          obtain ⟨w, hl, hdoes⟩ := hfirst s₁ hbefore
          obtain ⟨_, s₂, heffect, hnil⟩ := Steps.bind_eq_ok.1 hlast
          cases hnil
          obtain ⟨w', hl', hdoes'⟩ := lowerEffect_eq_ok hlower hnew hk hd hl hdoes.reflects heffect
          exact ⟨w ++ w', hl', hdoes.trans hdoes'⟩

theorem lowerEffects_eq_ok (hlower : LowersValues x lower) (hr : Reflects x h s)
    (he : lowerEffects x lower n s = .ok ⟨⟩ s') : ∃ w, Lowers x h [.need n] w ∧ Does x h w s s' := by
  obtain ⟨pending, s₁, hp, hforM⟩ := Steps.bind_eq_ok.1 he
  obtain ⟨first, rfl, hfirst⟩ := pendingEffects_eq_ok hlower hr hp
  exact hfirst s' (by simpa using hforM)

end NativeBackend.Lowering
