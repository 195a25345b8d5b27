import NativeBackend.Proofs.Lowering.LowerEffects

namespace NativeBackend.Lowering

variable {x : LoweringInput} {lower : NodeId → LowerM Operand} {h : List Event} {s s' : LoweringState}
  {n : NodeId} {o : Operand}

theorem phi_bound {l : Local} {t : IrType} (hmem : .phi n l t ∈ h) : Bound h n (.ofLocal l) := ⟨_, hmem, rfl⟩

theorem Reflects.addIncoming (hr : Reflects x h s) {l : Local} {t : IrType} {index : Nat}
    (hindex : (h.filterMap (Event.phiAt x (x.schedule.blockOf n)))[index]? = some (n, l, t))
    (predecessor : BlockId) (o : Operand) :
    Does x h [.incoming n predecessor o] s { s with
      blocks := changeAt (x.schedule.blockOf n) (·.addIncoming index o (blockLabel predecessor))
        (ensure predecessor s.blocks) } := by
  have hfilled : Filled x (h ++ [.incoming n predecessor o]) (Mentioned x (h ++ [.incoming n predecessor o]))
      (changeAt (x.schedule.blockOf n) (·.addIncoming index o (blockLabel predecessor))
        (ensure predecessor s.blocks)) := by
    refine Filled.congr ((hr.blocks.ensure predecessor).changeAt ?_ (render_incoming hr.phis hindex)) fun c => ?_
    · intro c hc
      exact .inr (List.mem_singleton.1 hc)
    · rw [mentioned_append, Event.blocks, List.mem_singleton]
  refine ⟨hr.step hfilled rfl (by simp [Event.effect?]) rfl nofun nofun nofun ?_, ?_⟩
  · rintro m p o' ⟨⟩
    obtain ⟨e, he, hphi⟩ := List.mem_filterMap.1 (List.mem_of_getElem? hindex)
    cases e with
    | phi m l' t' =>
        rw [Event.phiAt] at hphi
        split at hphi
        · cases hphi
          exact ⟨l, t, he⟩
        · cases hphi
    | _ => cases hphi
  · rw [keys_changeAt]
    exact prefix_keys_ensure predecessor s.blocks

theorem lowerIncoming_eq_ok (hlower : LowersValues x lower) (hr : Reflects x h s) {l : Local} {t : IrType}
    {index : Nat} (hindex : (h.filterMap (Event.phiAt x (x.schedule.blockOf n)))[index]? = some (n, l, t))
    {inputs : List (BlockId × NodeId)} (hinputs : ∀ p ∈ inputs, p ∈ x.graph.phiInputs x.schedule.reachable n)
    (hp : lowerIncoming lower (x.schedule.blockOf n) index inputs s = .ok ⟨⟩ s') :
    ∃ w, Lowers x h (inputs.map fun (predecessor, value) => .incoming n predecessor value) w ∧
      Does x h w s s' := by
  induction inputs generalizing h s with
  | nil =>
      cases hp
      exact ⟨[], .nil, hr.does_nil⟩
  | cons input inputs ih =>
      obtain ⟨predecessor, value⟩ := input
      obtain ⟨o, s₁, hlow, hp₁⟩ := Steps.bind_eq_ok.1 hp
      obtain ⟨w, hl, hdoes, hb⟩ := hlower h s value o s₁ hr hlow
      rw [Steps.bind_of_ok (discover_apply _ _), Steps.bind_of_ok (modifyBlock_apply _ _ _)] at hp₁
      have hkept : ∀ u, ((h ++ u).filterMap (Event.phiAt x (x.schedule.blockOf n)))[index]? = some (n, l, t) := by
        intro u
        rw [List.filterMap_append, List.getElem?_append_left (List.getElem?_eq_some_iff.1 hindex).1, hindex]
      have hadd := hdoes.reflects.addIncoming (hkept w) predecessor o
      obtain ⟨w', hl', hdoes'⟩ := ih hadd.reflects (by rw [List.append_assoc]; exact hkept _)
        (fun p hmem => hinputs p (List.mem_cons_of_mem _ hmem)) hp₁
      refine ⟨w ++ .incoming n predecessor o :: w', .incoming (hinputs _ List.mem_cons_self) hl hb hl', ?_⟩
      simpa using (hdoes.trans hadd).trans (by simpa using hdoes')

theorem lowerPhi_eq_ok (hlower : LowersValues x lower) (hr : Reflects x h s) (hnew : ¬ Done h n) {type : Ty}
    {table : PhiId} (hk : x.graph.kind? n = some (.value ⟨type, .phi table⟩)) {t : IrType}
    (ht : type.target = .ok t) (hp : lowerPhi x lower n t s = .ok o s') :
    ∃ l w, o = .ofLocal l ∧ Lowers x h [.need n] (.phi n l t :: w) ∧ Does x h (.phi n l t :: w) s s' := by
  have habsent : ∀ l u, .phi n l u ∉ h := fun l u hmem => hnew (phi_bound hmem).done
  have hnone : ∀ predecessor o, .incoming n predecessor o ∉ h := by
    intro predecessor o hmem
    obtain ⟨l, u, hphi⟩ := hr.incoming n predecessor o hmem
    exact habsent l u hphi
  have hfilled := hr.filled (e := .phi n ⟨s.nextLocal⟩ t) (·.pushPhi ⟨⟨s.nextLocal⟩, t, []⟩) rfl (render_phi hnone)
  have hlookup : ((ensure (x.schedule.blockOf n) s.blocks).lookup (x.schedule.blockOf n)) =
      some (render x h (x.schedule.blockOf n)) := (hr.blocks.ensure (x.schedule.blockOf n)).lookup (.inr rfl)
  rw [lowerPhi, Steps.bind_of_ok (discover_apply _ _), Steps.bind_of_ok (freshLocal_apply _),
    Steps.bind_of_ok (Steps.get_apply _), Steps.bind_of_ok (modifyBlock_apply _ _ _),
    Steps.bind_of_ok (remember_apply _ _ _)] at hp
  obtain ⟨_, s₁, hin, hp₁⟩ := Steps.bind_eq_ok.1 hp
  cases hp₁
  have hdoes : Does x h [.phi n ⟨s.nextLocal⟩ t] s { s with
      nextLocal := s.nextLocal + 1
      blocks := changeAt (x.schedule.blockOf n) (·.pushPhi ⟨⟨s.nextLocal⟩, t, []⟩)
        (ensure (x.schedule.blockOf n) s.blocks)
      values := s.values.insert n (.ofLocal ⟨s.nextLocal⟩) } := by
    refine ⟨hr.step hfilled rfl (by simp [Event.effect?]) ⟨rfl, rfl⟩ ?_ nofun ?_ nofun,
      grows_changeAt_ensure (x.schedule.blockOf n) (·.pushPhi _) s.blocks⟩
    · rintro m o' ⟨⟩
      refine ⟨isValue_of_value hk, fun i hi => ?_⟩
      rw [Graph.inputs_of_kind hk] at hi
      cases hi
    · rintro m ⟨⟩ hmem
      obtain ⟨e, he, hphi⟩ := List.mem_filterMap.1 hmem
      cases e with
      | phi m l u =>
          cases hphi
          exact habsent l u he
      | _ => cases hphi
  have hindex : ((h ++ [Event.phi n ⟨s.nextLocal⟩ t]).filterMap (Event.phiAt x (x.schedule.blockOf n)))[
      (render x h (x.schedule.blockOf n)).phis.length]? = some (n, ⟨s.nextLocal⟩, t) := by
    simp [render, List.filterMap_append, Event.phiAt]
  obtain ⟨w, hl, hdoes'⟩ := lowerIncoming_eq_ok hlower hdoes.reflects hindex (fun p hmem => hmem)
    (by simpa [hlookup] using hin)
  refine ⟨⟨s.nextLocal⟩, w, rfl, ?_, by simpa using hdoes.trans hdoes'⟩
  have hphi := Lowers.phi (l := ⟨s.nextLocal⟩) hnew hk ht hl (Lowers.nil (x := x))
  simpa using hphi

/-- What lowering the operation of a node that is not done comes to. -/
inductive Yields (x : LoweringInput) (h : List Event) (n : NodeId) : Operand → List Event → Prop where
  | bound {o : Operand} : Immediate x.graph n o → Yields x h n o [.bound n o]
  | emit {w : List Event} {i : Instruction} : Lowers x h ((x.graph.inputs n).map .need) w →
      Selects x.graph (Bound (h ++ w)) n i → Yields x h n i.gives (w ++ [.computed n i])
  | phi {w : List Event} {type : Ty} {table : PhiId} {l : Local} {t : IrType} :
      x.graph.kind? n = some (.value ⟨type, .phi table⟩) → Lowers x h [.need n] (.phi n l t :: w) →
      Yields x h n (.ofLocal l) (.phi n l t :: w)

theorem result?_neg (kind : NumericKind) (l : Local) (t : IrType) (a : Operand) :
    (negInstruction kind l t a).result? = some l := by
  cases kind <;> rfl

theorem result?_cmp (op : CmpOp) (kind : NumericKind) (l : Local) (t : IrType) (a b : Operand) :
    (op.instruction kind l t a b).result? = some l := by
  cases kind <;> rfl

theorem Does.define {w : List Event} {s₁ : LoweringState} {v : ValueNode} (hdoes : Does x h w s s₁)
    (hk : x.graph.kind? n = some (.value v)) (hl : Lowers x h ((x.graph.inputs n).map .need) w)
    {f : Local → Instruction} (hf : ∀ l, (f l).result? = some l)
    (hselects : ∀ l, Selects x.graph (Bound (h ++ w)) n (f l)) (hdef : define x n f s₁ = .ok o s') :
    ∃ w', Yields x h n o w' ∧ Does x h w' s { s' with values := s'.values.insert n o } := by
  obtain ⟨rfl, hdoes'⟩ := hdoes.reflects.define hk hf hselects hdef
  exact ⟨w ++ [.computed n _], .emit hl (hselects _), hdoes.trans hdoes'⟩

theorem Does.operand (hlower : LowersValues x lower) {w : List Event} (ns : List NodeId) {s₁ : LoweringState}
    (hdoes : Does x h w s s₁) (hl : Lowers x h (ns.map .need) w) {m : NodeId} (hm : lower m s₁ = .ok o s') :
    ∃ w', Lowers x h ((ns ++ [m]).map .need) (w ++ w') ∧ Does x h (w ++ w') s s' ∧
      Bound (h ++ (w ++ w')) m o ∧ ∀ k p, Bound (h ++ w) k p → Bound (h ++ (w ++ w')) k p := by
  obtain ⟨w', hl', hdoes', hb⟩ := hlower _ _ m o s' hdoes.reflects hm
  refine ⟨w', ?_, hdoes.trans hdoes', by simpa using hb, fun k p hp => by simpa using hp.append w'⟩
  rw [List.map_append]
  exact hl.append hl'

theorem lowerPointer_eq_ok {p : Pointer} (hp : lowerPointer x n p s = .ok o s') :
    ∃ c e, o = .const c ∧ (∀ name, c ≠ .symbol name) ∧ s' = { s with emission := e } := by
  cases hroot : p.root with
  | global symbol =>
      rw [lowerPointer, hroot] at hp
      obtain ⟨_, s₁, hdeclare, hp₁⟩ := Steps.bind_eq_ok.1 hp
      obtain ⟨e, rfl⟩ := produce_eq_ok hdeclare
      cases hp₁
      exact ⟨_, e, rfl, by simp, rfl⟩
  | memory region =>
      rw [lowerPointer, hroot] at hp
      obtain ⟨_, s₁, hreport, hp₁⟩ := Steps.bind_eq_ok.1 hp
      obtain ⟨e, rfl⟩ := produce_eq_ok hreport
      cases hp₁
      exact ⟨_, e, rfl, by simp, rfl⟩
  | method symbol =>
      cases hpointee : p.rootPointee with
      | function signature =>
          rw [lowerPointer, hroot] at hp
          dsimp only at hp
          rw [hpointee] at hp
          obtain ⟨t, -, hp₁⟩ := ofExcept_bind_eq_ok.1 hp
          obtain ⟨_, s₂, hdeclare, hp₂⟩ := Steps.bind_eq_ok.1 hp₁
          obtain ⟨e, rfl⟩ := produce_eq_ok hdeclare
          cases hp₂
          exact ⟨_, e, rfl, by simp, rfl⟩
      | _ =>
          rw [lowerPointer, hroot] at hp
          dsimp only at hp
          rw [hpointee] at hp
          cases hp
          exact ⟨_, s.emission, rfl, by simp, rfl⟩

theorem Does.askRoutine {w : List Event} {s₁ : LoweringState} {v : ValueNode} (hdoes : Does x h w s s₁)
    (hk : x.graph.kind? n = some (.value v)) (hl : Lowers x h ((x.graph.inputs n).map .need) w) {r : Routine}
    {args : List (IrType × Operand)} (hselects : ∀ l, Selects x.graph (Bound (h ++ w)) n
      (.call (some l) r.signature.returns (.global r.symbol) args))
    (hask : askRoutine x n r args s₁ = .ok o s') :
    ∃ w', Yields x h n o w' ∧ Does x h w' s { s' with values := s'.values.insert n o } := by
  obtain ⟨_, s₂, hdeclare, hdef⟩ := Steps.bind_eq_ok.1 hask
  obtain ⟨e, rfl⟩ := produce_eq_ok hdeclare
  have hdoes' : Does x h w s { s₁ with emission := e } := ⟨hdoes.reflects.emission e, hdoes.grows⟩
  exact hdoes'.define hk hl (fun _ => rfl) hselects hdef

theorem inputs_call (type : Ty) (target : CallTarget) (args : List NodeId) (dependency : NodeId) :
    (NodeKind.value ⟨type, .call target args dependency⟩).inputs = dependency :: (targetInputs target ++ args) := by
  cases target <;> rfl

theorem Does.call (hlower : LowersValues x lower) {w : List Event} {s₁ : LoweringState} {type : Ty}
    {target : CallTarget} {args : List NodeId} {dependency : NodeId} (hdoes : Does x h w s s₁)
    (hk : x.graph.kind? n = some (.value ⟨type, .call target args dependency⟩))
    (hl : Lowers x h [.need dependency] w) (hop : lowerCall x lower n type target args s₁ = .ok o s') :
    ∃ w', Yields x h n o w' ∧ Does x h w' s { s' with values := s'.values.insert n o } := by
  obtain ⟨callee, passed, t, s₂, s₃, hcallee, hpassed, htarget, hlast⟩ := lowerCall_run hop
  obtain ⟨w₁, hl₁, hd₁, hcalls⟩ := lowerCallee_eq_ok hlower hdoes.reflects hcallee
  obtain ⟨w₂, hl₂, hd₂, hpasses⟩ := lowerArgs_eq_ok hlower hd₁.reflects hpassed
  have hd := (hdoes.trans hd₁).trans (by simpa using hd₂)
  have hall : Lowers x h ((x.graph.inputs n).map .need) (w ++ w₁ ++ w₂) := by
    rw [Graph.inputs_of_kind hk, inputs_call, List.map_cons, List.map_append]
    have htail := hl₁.append hl₂
    simpa using hl.append htail
  have hcalls' : Calls (Bound (h ++ (w ++ w₁ ++ w₂))) target callee :=
    hcalls.mono fun k p hp => by simpa using hp.append w₂
  have hpasses' : List.Forall₂ (Passes x.graph (Bound (h ++ (w ++ w₁ ++ w₂)))) args passed := by
    simpa using hpasses
  rcases hlast with ⟨rfl, rfl, hemit⟩ | ⟨hvoid, hdef⟩
  · have hselects : Selects x.graph (Bound (h ++ (w ++ w₁ ++ w₂))) n (.call none .void callee passed) :=
      .call hk htarget (by simp) hcalls' hpasses'
    exact ⟨_, .emit hall hselects, hd.trans (hd.reflects.emitValue hk rfl hselects hemit)⟩
  · exact hd.define hk hall (fun _ => rfl) (fun l => .call hk htarget (by simp [hvoid]) hcalls' hpasses') hdef

theorem lowerOp_eq_ok (hlower : LowersValues x lower) (hr : Reflects x h s) (hnew : ¬ Done h n) {v : ValueNode}
    (hk : x.graph.kind? n = some (.value v)) (hop : lowerOp x lower n v s = .ok o s') :
    ∃ w, Yields x h n o w ∧ Does x h w s { s' with values := s'.values.insert n o } := by
  obtain ⟨type, op⟩ := v
  have hnil : Does x h [] s s ∧ Lowers x h (([] : List NodeId).map .need) [] := ⟨hr.does_nil, .nil⟩
  have hinputs := Graph.inputs_of_kind hk
  cases op with
  | literal l =>
      cases hop
      exact ⟨_, .bound (.literal hk), hr.bound (.literal hk)⟩
  | parameter index =>
      rw [lowerOp] at hop
      dsimp only at hop
      split at hop
      case isTrue hlt =>
        cases hop
        exact ⟨_, .bound (.parameter hk hlt), hr.bound (.parameter hk hlt)⟩
      case isFalse => cases hop
  | binary op lhs rhs =>
      obtain ⟨operand, kind, hvalue, hkind, hop₁⟩ := numericKind_bind_eq_ok hop
      obtain ⟨opcode, hopcode, hop₂⟩ := ofExcept_bind_eq_ok.1 hop₁
      obtain ⟨t, htarget, hop₃⟩ := operandType_bind_of_ok hvalue hop₂
      obtain ⟨a, s₁, ha, hop₄⟩ := Steps.bind_eq_ok.1 hop₃
      obtain ⟨b, s₂, hb, hdef⟩ := Steps.bind_eq_ok.1 hop₄
      obtain ⟨w, hl, hd, hra, -⟩ := hnil.1.operand hlower [] hnil.2 ha
      obtain ⟨w', hl', hd', hrb, hkeep⟩ := hd.operand hlower _ hl hb
      exact hd'.define hk (hinputs ▸ hl') (fun _ => rfl)
        (fun l => .binary hk hvalue hkind hopcode htarget (hkeep _ _ hra) hrb) hdef
  | neg input =>
      obtain ⟨operand, kind, hvalue, hkind, hop₁⟩ := numericKind_bind_eq_ok hop
      obtain ⟨t, htarget, hop₂⟩ := operandType_bind_of_ok hvalue hop₁
      obtain ⟨a, s₁, ha, hdef⟩ := Steps.bind_eq_ok.1 hop₂
      obtain ⟨w, hl, hd, hra, -⟩ := hnil.1.operand hlower [] hnil.2 ha
      exact hd.define hk (hinputs ▸ hl) (fun l => result?_neg kind l t a)
        (fun l => .neg hk hvalue hkind htarget hra) hdef
  | cmp op lhs rhs =>
      obtain ⟨operand, kind, hvalue, hkind, hop₁⟩ := numericKind_bind_eq_ok hop
      obtain ⟨t, htarget, hop₂⟩ := operandType_bind_of_ok hvalue hop₁
      obtain ⟨a, s₁, ha, hop₃⟩ := Steps.bind_eq_ok.1 hop₂
      obtain ⟨b, s₂, hb, hdef⟩ := Steps.bind_eq_ok.1 hop₃
      obtain ⟨w, hl, hd, hra, -⟩ := hnil.1.operand hlower [] hnil.2 ha
      obtain ⟨w', hl', hd', hrb, hkeep⟩ := hd.operand hlower _ hl hb
      exact hd'.define hk (hinputs ▸ hl') (fun l => result?_cmp op kind l t a b)
        (fun l => .cmp hk hvalue hkind htarget (hkeep _ _ hra) hrb) hdef
  | conversion op input =>
      obtain ⟨source, hvalue, hop₁⟩ := ofExcept_bind_eq_ok.1 hop
      obtain ⟨t, htarget, hop₂⟩ := ofExcept_bind_eq_ok.1 hop₁
      obtain ⟨u, htarget', hop₃⟩ := ofExcept_bind_eq_ok.1 hop₂
      obtain ⟨opcode, hopcode, hop₄⟩ := ofExcept_bind_eq_ok.1 hop₃
      obtain ⟨a, s₁, ha, hdef⟩ := Steps.bind_eq_ok.1 hop₄
      obtain ⟨w, hl, hd, hra, -⟩ := hnil.1.operand hlower [] hnil.2 ha
      exact hd.define hk (hinputs ▸ hl) (fun _ => rfl)
        (fun l => .conversion hk hvalue htarget htarget' hopcode hra) hdef
  | select cond ifTrue ifFalse =>
      obtain ⟨t, htarget, hop₁⟩ := ofExcept_bind_eq_ok.1 hop
      obtain ⟨c, s₁, hc, hop₂⟩ := Steps.bind_eq_ok.1 hop₁
      obtain ⟨a, s₂, ha, hop₃⟩ := Steps.bind_eq_ok.1 hop₂
      obtain ⟨b, s₃, hb, hdef⟩ := Steps.bind_eq_ok.1 hop₃
      obtain ⟨w, hl, hd, hrc, -⟩ := hnil.1.operand hlower [] hnil.2 hc
      obtain ⟨w', hl', hd', hra, hkeep⟩ := hd.operand hlower _ hl ha
      obtain ⟨w'', hl'', hd'', hrb, hkeep'⟩ := hd'.operand hlower _ hl' hb
      exact hd''.define hk (hinputs ▸ hl'') (fun _ => rfl)
        (fun l => .select hk htarget (hkeep' _ _ (hkeep _ _ hrc)) (hkeep' _ _ hra) hrb) hdef
  | phi table =>
      obtain ⟨t, htarget, hp⟩ := ofExcept_bind_eq_ok.1 hop
      obtain ⟨l, w, rfl, hl, hd⟩ := lowerPhi_eq_ok hlower hr hnew hk htarget hp
      exact ⟨_, .phi hk hl, hd.reflects.remember ⟨.phi n l t, by simp, rfl⟩, hd.grows⟩
  | pointerLiteral p =>
      obtain ⟨c, e, rfl, hc, rfl⟩ := lowerPointer_eq_ok hop
      exact ⟨_, .bound (.pointerLiteral hk hc), ((hr.emission e).bound (.pointerLiteral hk hc)).reflects,
        List.prefix_rfl⟩
  | load pointer mode dependency =>
      obtain ⟨_, s₁, heffects, hop₁⟩ := Steps.bind_eq_ok.1 hop
      obtain ⟨w, hl, hd⟩ := lowerEffects_eq_ok hlower hr heffects
      obtain ⟨t, htarget, hop₂⟩ := ofExcept_bind_eq_ok.1 hop₁
      obtain ⟨a, s₂, ha, hdef⟩ := Steps.bind_eq_ok.1 hop₂
      obtain ⟨w', hl', hd', hra, -⟩ := hd.operand hlower [dependency] hl ha
      exact hd'.define hk (hinputs ▸ hl') (fun _ => rfl) (fun l => .load hk htarget hra) hdef
  | call target args dependency =>
      obtain ⟨_, s₁, heffects, hop₁⟩ := Steps.bind_eq_ok.1 hop
      obtain ⟨w, hl, hd⟩ := lowerEffects_eq_ok hlower hr heffects
      exact hd.call hlower hk hl hop₁
  | virtualLookup receiver m owner =>
      obtain ⟨index, s₁, hindex, hop₁⟩ := Steps.bind_eq_ok.1 hop
      obtain ⟨e, rfl⟩ := produce_eq_ok hindex
      obtain ⟨object, s₂, hobject, hask⟩ := Steps.bind_eq_ok.1 hop₁
      obtain ⟨w, hl, hd, hro, -⟩ := (hr.does_emission e).operand hlower [] hnil.2 hobject
      exact hd.askRoutine hk (hinputs ▸ hl) (fun l => .virtualLookup hk hro) hask
  | interfaceLookup receiver m interface =>
      obtain ⟨index, s₁, hindex, hop₁⟩ := Steps.bind_eq_ok.1 hop
      obtain ⟨e, rfl⟩ := produce_eq_ok hindex
      obtain ⟨object, s₂, hobject, hask⟩ := Steps.bind_eq_ok.1 hop₁
      obtain ⟨w, hl, hd, hro, -⟩ := (hr.does_emission e).operand hlower [] hnil.2 hobject
      exact hd.askRoutine hk (hinputs ▸ hl) (fun l => .interfaceLookup hk hro) hask
  | catchException =>
      obtain ⟨_, s₁, hreport, hop₁⟩ := Steps.bind_eq_ok.1 hop
      obtain ⟨e, rfl⟩ := produce_eq_ok hreport
      cases hop₁
      exact ⟨_, .bound (.catchException hk), ((hr.emission e).bound (.catchException hk)).reflects, List.prefix_rfl⟩

theorem Yields.bound_append {w : List Event} (hy : Yields x h n o w) : Bound (h ++ w) n o := by
  cases hy with
  | bound => exact ⟨.bound n o, by simp, rfl⟩
  | emit => exact ⟨.computed n _, by simp, rfl⟩
  | @phi _ _ _ l t => exact ⟨.phi n l t, by simp, rfl⟩

theorem Yields.lowers {v : ValueNode} (hk : x.graph.kind? n = some (.value v)) (hv : v.op.isPure = false)
    (hnew : ¬ Done h n) {w : List Event} (hy : Yields x h n o w) : Lowers x h [.need n] w := by
  cases hy with
  | bound ho => exact .bound hnew ho .nil
  | phi _ hl => exact hl
  | emit hl hi =>
      have hemits := Emits.value hk (fun hpure => by rw [hv] at hpure; cases hpure) hi
      exact .emit hnew hl hemits .nil

theorem filter_isValue {v : ValueNode} (hk : x.graph.kind? n = some (.value v)) (hv : v.op.isPure = true)
    (hlegal : x.graph.Legal n) : v.op.inputs.filter x.graph.isValue = x.graph.inputs n := by
  have hinputs : x.graph.inputs n = v.op.inputs := Graph.inputs_of_kind hk
  rw [hinputs]
  refine List.filter_eq_self.2 fun m hm => ?_
  rw [← hinputs] at hm
  refine (hlegal m hm).resolve_right fun hd => ?_
  rw [hk] at hd
  obtain ⟨type, op⟩ := v
  cases op <;> simp_all [ValueOp.isPure, NodeKind.effectDependency?]

theorem Yields.lowers_of_pure {v : ValueNode} (hk : x.graph.kind? n = some (.value v))
    (hv : v.op.isPure = true) (hnew : ¬ Done h n) {w w' : List Event}
    (hl : Lowers x h ((x.graph.inputs n).map .need) w) (hnew' : ¬ Done (h ++ w) n)
    (hy : Yields x (h ++ w) n o w') : Lowers x h [.need n] (w ++ w') := by
  cases hy with
  | bound ho =>
      rw [ho.inputs] at hl
      cases hl
      exact .bound hnew ho .nil
  | phi hk' =>
      rw [hk] at hk'
      cases hk'
      cases hv
  | emit hl' hi =>
      have hnil := hl'.eq_nil fun m hm => hl.done (List.mem_map_of_mem hm)
      subst hnil
      exact .emit hnew hl (.value hk (fun _ => hnew') (by simpa using hi)) .nil

theorem isEffect_of_isPure {v : ValueNode} (hk : x.graph.kind? n = some (.value v))
    (hv : v.op.isPure = true) : x.graph.isEffect n = false := by
  obtain ⟨type, op⟩ := v
  rw [Graph.isEffect, hk]
  cases op <;> first | rfl | cases hv

theorem forM_lower_eq_ok (hlower : LowersValues x lower) (hr : Reflects x h s) {ns : List NodeId}
    (hns : ns.forM (fun i => discard (lower i)) s = .ok ⟨⟩ s') :
    ∃ w, Lowers x h (ns.map .need) w ∧ Does x h w s s' := by
  induction ns generalizing h s with
  | nil =>
      cases hns
      exact ⟨[], .nil, hr.does_nil⟩
  | cons n ns ih =>
      rw [List.forM_eq_forM, List.forM_cons] at hns
      obtain ⟨_, s₁, hn, hrest⟩ := Steps.bind_eq_ok.1 hns
      obtain ⟨o, s₂, hlow, hdiscard⟩ := Steps.bind_eq_ok.1 hn
      cases hdiscard
      obtain ⟨w, hl, hd, -⟩ := hlower _ _ n o _ hr hlow
      obtain ⟨w', hl', hd'⟩ := ih hd.reflects hrest
      exact ⟨w ++ w', hl.append hl', hd.trans hd'⟩

theorem Reflects.not_done (hr : Reflects x h s) {v : ValueNode} (hk : x.graph.kind? n = some (.value v))
    (hn : s.values[n]? = none) : ¬ Done h n := by
  rintro (⟨e, he, hen⟩ | ⟨o, ho⟩)
  · have := hr.isAction e he n hen
    rw [isValue_of_value hk] at this
    cases this
  · exact hr.fresh n hn o ho

/-- Lowering a value works off the need for it. -/
theorem lowerValue_lowers (x : LoweringInput) (depth : Nat) : LowersValues x (lowerValue x depth) := by
  induction depth with
  | zero =>
      intro h s n o s' _ hlow
      cases hlow
  | succ depth ih =>
      intro h s n o s' hr hlow
      obtain ⟨hn, rfl⟩ | ⟨hn, v, hk, ⟨hv, hlow₁⟩ | ⟨hv, s₁, hvisit, hlow₁⟩⟩ := lowerValue_eq_ok hlow
      · have hb := hr.values n o hn
        exact ⟨[], .known hb.done .nil, hr.does_nil, hb.append []⟩
      · have hnew := hr.not_done hk hn
        obtain ⟨hn', -⟩ | ⟨-, t, hop, rfl⟩ := compute_eq_ok hlow₁
        · cases hn.symm.trans hn'
        obtain ⟨w, hy, hd⟩ := lowerOp_eq_ok ih hr hnew hk hop
        exact ⟨w, hy.lowers hk hv hnew, hd, hy.bound_append⟩
      · have hnew := hr.not_done hk hn
        obtain ⟨w, hl, hd⟩ := forM_lower_eq_ok ih hr hvisit
        obtain ⟨hn', rfl⟩ | ⟨hn', t, hop, rfl⟩ := compute_eq_ok hlow₁
        · have hb := hd.reflects.values n o hn'
          rw [filter_isValue hk hv (hd.reflects.isValue n o hb).2] at hl
          have hlate := Lowers.late hnew List.prefix_rfl (fun he => by simp [isEffect_of_isPure hk hv] at he) hl hb.done
            (Lowers.nil (x := x))
          exact ⟨w, by simpa using hlate, hd, hb⟩
        · have hnew' := hd.reflects.not_done hk hn'
          obtain ⟨w', hy, hd'⟩ := lowerOp_eq_ok ih hd.reflects hnew' hk hop
          rw [filter_isValue hk hv (hd'.reflects.isValue n o hy.bound_append).2] at hl
          exact ⟨w ++ w', hy.lowers_of_pure hk hv hnew hl hnew', hd.trans hd', by simpa using hy.bound_append⟩

end NativeBackend.Lowering
