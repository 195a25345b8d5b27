import NativeBackend.Proofs.Lowering.Reflects

namespace NativeBackend.Lowering

/-- From one state to another `w` is done after `h`; blocks are only added at the end. -/
structure Does (x : LoweringInput) (h w : List Event) (s s' : LoweringState) : Prop where
  reflects : Reflects x (h ++ w) s'
  grows : keys s.blocks <+: keys s'.blocks

variable {x : LoweringInput} {h w w' : List Event} {s s' s'' : LoweringState} {n : NodeId} {v : ValueNode}
  {o : Operand}

theorem Reflects.does_nil (hr : Reflects x h s) : Does x h [] s s :=
  ⟨by simpa using hr, List.prefix_rfl⟩

theorem Does.trans (hd : Does x h w s s') (hd' : Does x (h ++ w) w' s' s'') : Does x h (w ++ w') s s'' :=
  ⟨by simpa using hd'.reflects, hd.grows.trans hd'.grows⟩

theorem Reflects.emission (hr : Reflects x h s) (e : Emission) : Reflects x h { s with emission := e } :=
  ⟨hr.blocks, hr.values, hr.fresh, hr.effects, hr.isValue, hr.isAction, hr.locals, hr.phis, hr.incoming⟩

theorem Reflects.does_emission (hr : Reflects x h s) (e : Emission) : Does x h [] s { s with emission := e } :=
  ⟨by simpa using hr.emission e, List.prefix_rfl⟩

theorem discover_apply (b : BlockId) (s : LoweringState) :
    discover b s = .ok ⟨⟩ { s with blocks := ensure b s.blocks } := by
  rw [discover, Steps.modify_apply, ensure]
  split <;> rfl

theorem modifyBlock_apply (b : BlockId) (change : BasicBlock → BasicBlock) (s : LoweringState) :
    modifyBlock b change s = .ok ⟨⟩ { s with blocks := changeAt b change s.blocks } := rfl

theorem freshLocal_apply (s : LoweringState) :
    freshLocal s = .ok ⟨s.nextLocal⟩ { s with nextLocal := s.nextLocal + 1 } := rfl

theorem remember_apply (n : NodeId) (o : Operand) (s : LoweringState) :
    remember n o s = .ok ⟨⟩ { s with values := s.values.insert n o } := rfl

theorem emit_apply (n : NodeId) (i : Instruction) (s : LoweringState) :
    emit x n i s = .ok ⟨⟩ { s with
      blocks := changeAt (x.schedule.blockOf n) (·.push i) (ensure (x.schedule.blockOf n) s.blocks) } := by
  rw [emit, Steps.bind_of_ok (discover_apply _ _)]
  exact modifyBlock_apply _ _ _

theorem define_apply (n : NodeId) (f : Local → Instruction) (s : LoweringState) :
    define x n f s = .ok (.ofLocal ⟨s.nextLocal⟩) { s with
      nextLocal := s.nextLocal + 1
      blocks := changeAt (x.schedule.blockOf n) (·.push (f ⟨s.nextLocal⟩))
        (ensure (x.schedule.blockOf n) s.blocks) } := by
  rw [define, Steps.bind_of_ok (freshLocal_apply s), Steps.bind_of_ok (emit_apply _ _ _)]
  rfl

theorem produce_run {α : Type} {step : EmitM α} {a : α} (hp : produce step s = .ok a s') :
    ∃ e, step s.emission = .ok a e ∧ s' = { s with emission := e } := by
  rw [produce] at hp
  split at hp
  · rename_i hstep
    cases hp
    exact ⟨_, hstep, rfl⟩
  · cases hp

theorem produce_eq_ok {α : Type} {step : EmitM α} {a : α} (hp : produce step s = .ok a s') :
    ∃ e, s' = { s with emission := e } := by
  obtain ⟨e, -, hs⟩ := produce_run hp
  exact ⟨e, hs⟩

theorem ofExcept_eq_ok {α : Type} {r : Except Error α} {a : α} :
    ofExcept r s = .ok a s' ↔ r = .ok a ∧ s' = s := by
  cases r with
  | ok b =>
      simp only [ofExcept, Steps.pure_apply, Except.ok.injEq, EStateM.Result.ok.injEq]
      rw [eq_comm (a := s)]
  | error e => simp [ofExcept]

theorem ofExcept_bind_eq_ok {α β : Type} {r : Except Error α} {next : α → LowerM β} {b : β} :
    (ofExcept r >>= next) s = .ok b s' ↔ ∃ a, r = .ok a ∧ next a s = .ok b s' := by
  simp only [Steps.bind_eq_ok, ofExcept_eq_ok, and_assoc, exists_and_left, exists_eq_left]

theorem operandType_eq_ok {t : IrType} (ht : operandType x n s = .ok t s') :
    s' = s ∧ ∃ type, x.graph.valueType n = .ok type ∧ type.target = .ok t := by
  obtain ⟨type, htype, htarget⟩ := ofExcept_bind_eq_ok.1 ht
  obtain ⟨htarget', rfl⟩ := ofExcept_eq_ok.1 htarget
  exact ⟨rfl, type, htype, htarget'⟩

theorem operandType_bind_eq_ok {β : Type} {next : IrType → LowerM β} {b : β}
    (h : (operandType x n >>= next) s = .ok b s') :
    ∃ type t, x.graph.valueType n = .ok type ∧ type.target = .ok t ∧ next t s = .ok b s' := by
  obtain ⟨t, s₁, ht, hnext⟩ := Steps.bind_eq_ok.1 h
  obtain ⟨rfl, type, htype, htarget⟩ := operandType_eq_ok ht
  exact ⟨type, t, htype, htarget, hnext⟩

theorem operandType_bind_of_ok {β : Type} {next : IrType → LowerM β} {b : β} {type : Ty}
    (htype : x.graph.valueType n = .ok type) (h : (operandType x n >>= next) s = .ok b s') :
    ∃ t, type.target = .ok t ∧ next t s = .ok b s' := by
  obtain ⟨type', t, htype', htarget, hnext⟩ := operandType_bind_eq_ok h
  rw [htype] at htype'
  cases htype'
  exact ⟨t, htarget, hnext⟩

theorem numericKind_bind_eq_ok {β : Type} {next : NumericKind → LowerM β} {b : β}
    (h : (numericKind x n >>= next) s = .ok b s') :
    ∃ type kind, x.graph.valueType n = .ok type ∧ type.kind n = .ok kind ∧ next kind s = .ok b s' := by
  obtain ⟨kind, s₁, hkind, hnext⟩ := Steps.bind_eq_ok.1 h
  obtain ⟨type, htype, hkind⟩ := ofExcept_bind_eq_ok.1 hkind
  obtain ⟨hkind', rfl⟩ := ofExcept_eq_ok.1 hkind
  exact ⟨type, kind, htype, hkind', hnext⟩

def lowerCall (x : LoweringInput) (lower : NodeId → LowerM Operand) (n : NodeId) (type : Ty) (target : CallTarget)
    (args : List NodeId) : LowerM Operand := do
  let callee ← lowerCallee lower target
  let args ← lowerArgs x lower args
  match ← ofExcept type.target with
  | .void =>
    emit x n (.call none .void callee args)
    return .const .undef
  | type => define x n fun result => .call (some result) type callee args

theorem lowerCall_run {lower : NodeId → LowerM Operand} {type : Ty} {target : CallTarget} {args : List NodeId}
    (h : lowerCall x lower n type target args s = .ok o s') :
    ∃ callee passed t s₁ s₂, lowerCallee lower target s = .ok callee s₁ ∧ lowerArgs x lower args s₁ = .ok passed s₂ ∧
      type.target = .ok t ∧
      ((t = .void ∧ o = .const .undef ∧ emit x n (.call none .void callee passed) s₂ = .ok ⟨⟩ s') ∨
        (t ≠ .void ∧ define x n (fun result => .call (some result) t callee passed) s₂ = .ok o s')) := by
  obtain ⟨callee, s₁, hcallee, h₁⟩ := Steps.bind_eq_ok.1 h
  obtain ⟨passed, s₂, hpassed, h₂⟩ := Steps.bind_eq_ok.1 h₁
  obtain ⟨t, htarget, h₃⟩ := ofExcept_bind_eq_ok.1 h₂
  refine ⟨callee, passed, t, s₁, s₂, hcallee, hpassed, htarget, ?_⟩
  by_cases hvoid : t = .void
  · subst hvoid
    obtain ⟨_, s₃, hemit, hdone⟩ := Steps.bind_eq_ok.1 h₃
    cases hdone
    exact .inl ⟨rfl, rfl, hemit⟩
  · refine .inr ⟨hvoid, ?_⟩
    cases t <;> first
      | exact absurd rfl hvoid
      | exact h₃

def compute (x : LoweringInput) (lower : NodeId → LowerM Operand) (n : NodeId) (v : ValueNode) : LowerM Operand := do
  match (← get).values[n]? with
  | some o => return o
  | none =>
    let o ← lowerOp x lower n v
    remember n o
    return o

theorem compute_eq_ok {lower : NodeId → LowerM Operand} (h : compute x lower n v s = .ok o s') :
    (s.values[n]? = some o ∧ s' = s) ∨
      (s.values[n]? = none ∧ ∃ t, lowerOp x lower n v s = .ok o t ∧ s' = { t with values := t.values.insert n o }) := by
  rw [compute, Steps.bind_of_ok (Steps.get_apply s)] at h
  cases hn : s.values[n]? with
  | some o' =>
      rw [hn] at h
      cases h
      exact .inl ⟨rfl, rfl⟩
  | none =>
      rw [hn] at h
      obtain ⟨o', t, hop, hremember⟩ := Steps.bind_eq_ok.1 h
      cases hremember
      exact .inr ⟨rfl, t, hop, rfl⟩

/-- A value is known, or it is computed, a pure one after its operands. -/
theorem lowerValue_eq_ok {depth : Nat} (h : lowerValue x (depth + 1) n s = .ok o s') :
    (s.values[n]? = some o ∧ s' = s) ∨
      (s.values[n]? = none ∧ ∃ v, x.graph.kind? n = some (.value v) ∧
        ((v.op.isPure = false ∧ compute x (lowerValue x depth) n v s = .ok o s') ∨
          (v.op.isPure = true ∧ ∃ t,
            (v.op.inputs.filter x.graph.isValue).forM (fun i => discard (lowerValue x depth i)) s = .ok ⟨⟩ t ∧
              compute x (lowerValue x depth) n v t = .ok o s'))) := by
  rw [lowerValue, Steps.bind_of_ok (Steps.get_apply s)] at h
  cases hn : s.values[n]? with
  | some o' =>
      rw [hn] at h
      cases h
      exact .inl ⟨rfl, rfl⟩
  | none =>
      rw [hn] at h
      cases hk : x.graph.kind? n with
      | none =>
          rw [hk] at h
          cases h
      | some k =>
          rw [hk] at h
          cases k with
          | action a => cases h
          | terminator t => cases h
          | value v =>
              refine .inr ⟨rfl, v, rfl, ?_⟩
              dsimp only at h
              cases hv : v.op.isPure with
              | false =>
                  rw [hv, if_neg (by simp)] at h
                  exact .inl ⟨rfl, h⟩
              | true =>
                  rw [hv, if_pos rfl] at h
                  obtain ⟨_, t, hvisit, hcompute⟩ := Steps.bind_eq_ok.1 h
                  exact .inr ⟨rfl, t, hvisit, hcompute⟩

theorem Reflects.filled (hr : Reflects x h s) {e : Event} {b : BlockId} (change : BasicBlock → BasicBlock)
    (hb : e.blocks x = [b])
    (hrender : ∀ c, render x (h ++ [e]) c = if c = b then change (render x h c) else render x h c) :
    Filled x (h ++ [e]) (Mentioned x (h ++ [e])) (changeAt b change (ensure b s.blocks)) := by
  refine Filled.congr ((hr.blocks.ensure b).changeAt ?_ hrender) fun c => ?_
  · intro c hc
    rw [hb] at hc
    exact .inr (List.mem_singleton.1 hc)
  · rw [mentioned_append, hb, List.mem_singleton]

theorem Reflects.filled_of_nil (hr : Reflects x h s) {e : Event} (hb : e.blocks x = [])
    (hrender : ∀ c, render x (h ++ [e]) c = render x h c) :
    Filled x (h ++ [e]) (Mentioned x (h ++ [e])) s.blocks := by
  refine Filled.congr (hr.blocks.append ?_ hrender) fun c => ?_
  · intro c hc
    rw [hb] at hc
    cases hc
  · rw [mentioned_append, hb]
    simp

theorem grows_changeAt_ensure (b : BlockId) (change : BasicBlock → BasicBlock)
    (blocks : List (BlockId × BasicBlock)) : keys blocks <+: keys (changeAt b change (ensure b blocks)) := by
  rw [keys_changeAt]
  exact prefix_keys_ensure b blocks

theorem isValue_of_action {a : ActionNode} (hk : x.graph.kind? n = some (.action a)) :
    x.graph.isValue n = false := by
  rw [Graph.isValue, hk]

theorem isValue_of_value (hk : x.graph.kind? n = some (.value v)) : x.graph.isValue n = true := by
  rw [Graph.isValue, hk]

theorem Reflects.legal (hr : Reflects x h s) {i : Instruction} (hi : Selects x.graph (Bound h) n i) :
    x.graph.Legal n := by
  intro m hm
  rcases hi.reads hm with ⟨o, ho⟩ | hd
  · exact .inl (hr.isValue m o ho).1
  · exact .inr hd

theorem Reflects.entered (hr : Reflects x h s) {b : BlockId}
    (hk : x.graph.kind? n = some (.action (.blockEntry b))) :
    Does x h [.entered n] s { s with effects := n :: s.effects } := by
  refine ⟨hr.step (hr.filled_of_nil rfl (render_entered n)) rfl ?_ rfl nofun ?_ nofun nofun, List.prefix_rfl⟩
  · intro m
    simp only [List.mem_cons, Event.effect?, Option.some.injEq]
    rw [or_comm, eq_comm]
  · rintro m ⟨⟩
    exact isValue_of_action hk

theorem Reflects.bound (hr : Reflects x h s) (ho : Immediate x.graph n o) :
    Does x h [.bound n o] s { s with values := s.values.insert n o } := by
  refine ⟨hr.step (hr.filled_of_nil rfl (render_bound n o)) rfl (by simp [Event.effect?]) rfl ?_ nofun nofun
    nofun, List.prefix_rfl⟩
  rintro m o' ⟨⟩
  refine ⟨ho.isValue, fun i hi => ?_⟩
  rw [ho.inputs] at hi
  cases hi

theorem Reflects.define (hr : Reflects x h s) (hk : x.graph.kind? n = some (.value v))
    {f : Local → Instruction} (hf : ∀ l, (f l).result? = some l)
    (hselects : ∀ l, Selects x.graph (Bound h) n (f l)) (hdef : define x n f s = .ok o s') :
    o = (f ⟨s.nextLocal⟩).gives ∧
      Does x h [.computed n (f ⟨s.nextLocal⟩)] s { s' with values := s'.values.insert n o } := by
  rw [define_apply] at hdef
  cases hdef
  have hgives : (f ⟨s.nextLocal⟩).gives = .ofLocal ⟨s.nextLocal⟩ := by
    rw [Instruction.gives, hf]
  refine ⟨hgives.symm, hr.step (hr.filled (·.push _) rfl (render_computed n _)) ?_ (by simp [Event.effect?]) ?_ ?_ nofun
    nofun nofun, grows_changeAt_ensure (x.schedule.blockOf n) (·.push _) s.blocks⟩
  · simp only [Event.operand?, hgives]
  · simp only [Event.local?, hf, and_self]
  · rintro m o' ⟨⟩
    exact ⟨isValue_of_value hk, hr.legal (hselects ⟨s.nextLocal⟩)⟩

theorem Reflects.emitValue (hr : Reflects x h s) (hk : x.graph.kind? n = some (.value v)) {i : Instruction}
    (hi : i.result? = none) (hselects : Selects x.graph (Bound h) n i) (hemit : emit x n i s = .ok ⟨⟩ s') :
    Does x h [.computed n i] s { s' with values := s'.values.insert n (.const .undef) } := by
  rw [emit_apply] at hemit
  cases hemit
  have hgives : i.gives = .const .undef := by
    rw [Instruction.gives, hi]
  refine ⟨hr.step (hr.filled (·.push i) rfl (render_computed n i)) ?_ (by simp [Event.effect?]) ?_ ?_ nofun nofun
    nofun, grows_changeAt_ensure (x.schedule.blockOf n) (·.push _) s.blocks⟩
  · simp only [Event.operand?, hgives]
  · simp only [Event.local?, hi]
  · rintro m o' ⟨⟩
    exact ⟨isValue_of_value hk, hr.legal hselects⟩

theorem Reflects.emitAction (hr : Reflects x h s) {a : ActionNode}
    (hk : x.graph.kind? n = some (.action a)) {i : Instruction} (hi : i.result? = none)
    (hemit : emit x n i s = .ok ⟨⟩ s') :
    Does x h [.performed n i] s { s' with effects := n :: s'.effects } := by
  rw [emit_apply] at hemit
  cases hemit
  refine ⟨hr.step (hr.filled (·.push i) rfl (render_performed n i)) rfl ?_ ?_ nofun ?_ nofun nofun,
    grows_changeAt_ensure (x.schedule.blockOf n) (·.push _) s.blocks⟩
  · intro m
    simp only [List.mem_cons, Event.effect?, Option.some.injEq]
    rw [or_comm, eq_comm]
  · simp only [Event.local?, hi]
  · rintro m ⟨⟩
    exact isValue_of_action hk

theorem Reflects.remember (hr : Reflects x h s) (hn : Bound h n o) :
    Reflects x h { s with values := s.values.insert n o } := by
  refine ⟨hr.blocks, fun m o' ho => ?_, fun m hm => ?_, hr.effects, hr.isValue,
    hr.isAction, hr.locals, hr.phis, hr.incoming⟩
  · dsimp only at ho
    obtain ⟨rfl, rfl⟩ | ⟨-, ho⟩ := Maps.getElem?_insert_eq_some.1 ho
    · exact hn
    · exact hr.values m o' ho
  · dsimp only at hm
    exact hr.fresh m (Maps.getElem?_insert_eq_none.1 hm).2

theorem Filled.mem_of_keys {present : BlockId → Prop} {blocks : List (BlockId × BasicBlock)}
    (hf : Filled x h present blocks) {b : BlockId} (hb : b ∈ keys blocks) : (b, render x h b) ∈ blocks := by
  obtain ⟨⟨k, block⟩, hmem, rfl⟩ := List.mem_map.1 hb
  rw [← hf.content k block hmem]
  exact hmem

theorem Filled.lookup {present : BlockId → Prop} {blocks : List (BlockId × BasicBlock)}
    (hf : Filled x h present blocks) {b : BlockId} (hb : present b) :
    blocks.lookup b = some (render x h b) := by
  obtain ⟨before, after, heq⟩ := List.append_of_mem (hf.mem_of_keys ((hf.mem b).2 hb))
  refine List.lookup_eq_some_iff.2 ⟨before, after, heq, ?_⟩
  intro p hp
  have hnodup := hf.nodup
  rw [heq, keys, List.map_append, List.map_cons] at hnodup
  have hne := (List.nodup_append.1 hnodup).2.2 p.1 (List.mem_map_of_mem hp) b List.mem_cons_self
  exact bne_iff_ne.2 (Ne.symm hne)

end NativeBackend.Lowering
