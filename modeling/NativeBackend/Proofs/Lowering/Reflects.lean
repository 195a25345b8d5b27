import NativeBackend.Proofs.Lowering.Trace
import NativeBackend.Proofs.Maps
import NativeBackend.Proofs.Steps

namespace NativeBackend.Lowering

def ensure (b : BlockId) (blocks : List (BlockId × BasicBlock)) : List (BlockId × BasicBlock) :=
  if blocks.any (·.1 == b) then blocks else blocks ++ [(b, { label := blockLabel b })]

def changeAt (b : BlockId) (change : BasicBlock → BasicBlock) (blocks : List (BlockId × BasicBlock)) :
    List (BlockId × BasicBlock) :=
  blocks.map fun (k, block) => (k, if k == b then change block else block)

def keys (blocks : List (BlockId × BasicBlock)) : List BlockId := blocks.map (·.1)

@[simp]
theorem keys_changeAt (b : BlockId) (change : BasicBlock → BasicBlock) (blocks : List (BlockId × BasicBlock)) :
    keys (changeAt b change blocks) = keys blocks := by
  rw [keys, changeAt, List.map_map]
  rfl

theorem keys_ensure (b : BlockId) (blocks : List (BlockId × BasicBlock)) :
    keys (ensure b blocks) = if b ∈ keys blocks then keys blocks else keys blocks ++ [b] := by
  have hany : blocks.any (·.1 == b) = true ↔ b ∈ keys blocks := by
    simp [keys]
  rw [ensure]
  by_cases hb : b ∈ keys blocks
  · rw [if_pos (hany.2 hb), if_pos hb]
  · rw [if_neg (fun h => hb (hany.1 h)), if_neg hb, keys, List.map_append]
    rfl

theorem prefix_keys_ensure (b : BlockId) (blocks : List (BlockId × BasicBlock)) :
    keys blocks <+: keys (ensure b blocks) := by
  rw [keys_ensure]
  split
  · exact List.prefix_rfl
  · exact List.prefix_append _ _

variable (x : LoweringInput)

def Mentioned (h : List Event) (b : BlockId) : Prop := b = x.graph.entry ∨ ∃ e ∈ h, b ∈ e.blocks x

structure Filled (h : List Event) (present : BlockId → Prop) (blocks : List (BlockId × BasicBlock)) :
    Prop where
  nodup : (keys blocks).Nodup
  mem : ∀ b, b ∈ keys blocks ↔ present b
  mentioned : ∀ e ∈ h, ∀ b ∈ e.blocks x, present b
  content : ∀ b B, (b, B) ∈ blocks → B = render x h b

/-- What a state says is what the events have done. -/
structure Reflects (h : List Event) (s : LoweringState) : Prop where
  blocks : Filled x h (Mentioned x h) s.blocks
  values : ∀ (n : NodeId) (o : Operand), s.values[n]? = some o → Bound h n o
  fresh : ∀ n : NodeId, s.values[n]? = none → ∀ o, ¬ Bound h n o
  effects : ∀ n, n ∈ s.effects ↔ ∃ e ∈ h, e.effect? = some n
  isValue : ∀ n o, Bound h n o → x.graph.isValue n = true ∧ x.graph.Legal n
  isAction : ∀ e ∈ h, ∀ n, e.effect? = some n → x.graph.isValue n = false
  locals : ∃ k, h.filterMap Event.local? =
    (List.range' x.graph.method.functionType.params.length k).map Local.mk ∧
      s.nextLocal = x.graph.method.functionType.params.length + k
  phis : (h.filterMap Event.phi?).Nodup
  incoming : ∀ n predecessor o, .incoming n predecessor o ∈ h → ∃ l t, .phi n l t ∈ h

variable {x} {h : List Event} {present : BlockId → Prop} {blocks : List (BlockId × BasicBlock)}
  {s s' : LoweringState} {n : NodeId} {b : BlockId}

theorem phiAt_of_notMem {e : Event} (hb : b ∉ e.blocks x) : e.phiAt x b = none := by
  cases e with
  | phi m l t =>
      refine if_neg ?_
      rintro rfl
      exact hb (List.mem_singleton_self _)
  | _ => rfl

theorem instructionAt_of_notMem {e : Event} (hb : b ∉ e.blocks x) : e.instructionAt x b = none := by
  cases e with
  | computed m i | performed m i =>
      refine if_neg ?_
      rintro rfl
      exact hb (List.mem_singleton_self _)
  | _ => rfl

theorem terminatorAt_of_notMem {e : Event} (hb : b ∉ e.blocks x) : e.terminatorAt x b = none := by
  cases e with
  | terminated m targets t =>
      refine if_neg ?_
      rintro rfl
      exact hb List.mem_cons_self
  | _ => rfl

theorem render_of_absent (habsent : ∀ e ∈ h, b ∉ e.blocks x) : render x h b = { label := blockLabel b } := by
  have hphi : h.filterMap (Event.phiAt x b) = [] :=
    List.filterMap_eq_nil_iff.2 fun e he => phiAt_of_notMem (habsent e he)
  have hinstruction : h.filterMap (Event.instructionAt x b) = [] :=
    List.filterMap_eq_nil_iff.2 fun e he => instructionAt_of_notMem (habsent e he)
  have hterminator : h.findSome? (Event.terminatorAt x b) = none :=
    List.findSome?_eq_none_iff.2 fun e he => terminatorAt_of_notMem (habsent e he)
  rw [render, hphi, hinstruction, hterminator]
  rfl

theorem Filled.ensure (hf : Filled x h present blocks) (b : BlockId) :
    Filled x h (fun c => present c ∨ c = b) (ensure b blocks) := by
  have hkeys := keys_ensure b blocks
  by_cases hb : b ∈ keys blocks
  · have heq : Lowering.ensure b blocks = blocks := by
      rw [Lowering.ensure, if_pos]
      simpa [keys] using hb
    rw [heq]
    refine ⟨hf.nodup, fun c => ?_, fun e he c hc => .inl (hf.mentioned e he c hc), hf.content⟩
    rw [hf.mem]
    constructor
    · exact .inl
    · rintro (hc | rfl)
      · exact hc
      · exact (hf.mem c).1 hb
  · rw [if_neg hb] at hkeys
    refine ⟨?_, fun c => ?_, fun e he c hc => .inl (hf.mentioned e he c hc), fun c B hB => ?_⟩
    · rw [hkeys]
      refine List.nodup_append.2 ⟨hf.nodup, by simp, ?_⟩
      rintro c hc c' hc' rfl
      exact hb (List.mem_singleton.1 hc' ▸ hc)
    · rw [hkeys, List.mem_append, List.mem_singleton, hf.mem]
    · rw [Lowering.ensure, if_neg (by simpa [keys] using hb)] at hB
      rcases List.mem_append.1 hB with hB | hB
      · exact hf.content c B hB
      · cases List.mem_singleton.1 hB
        exact (render_of_absent fun e he hmem => hb ((hf.mem b).2 (hf.mentioned e he b hmem))).symm

theorem Filled.changeAt (hf : Filled x h present blocks) {e : Event} {change : BasicBlock → BasicBlock}
    (hblocks : ∀ c ∈ e.blocks x, present c)
    (hrender : ∀ c, render x (h ++ [e]) c = if c = b then change (render x h c) else render x h c) :
    Filled x (h ++ [e]) present (changeAt b change blocks) := by
  refine ⟨by simpa using hf.nodup, by simpa using hf.mem, ?_, ?_⟩
  · intro e' he' c hc
    rcases List.mem_append.1 he' with he' | he'
    · exact hf.mentioned e' he' c hc
    · rw [List.mem_singleton.1 he'] at hc
      exact hblocks c hc
  · intro c B hB
    obtain ⟨⟨k, block⟩, hmem, heq⟩ := List.mem_map.1 hB
    cases heq
    rw [hrender, ← hf.content c block hmem]
    by_cases hc : c = b <;> simp [hc]

theorem Filled.append (hf : Filled x h present blocks) {e : Event} (hblocks : ∀ c ∈ e.blocks x, present c)
    (hrender : ∀ c, render x (h ++ [e]) c = render x h c) : Filled x (h ++ [e]) present blocks := by
  refine ⟨hf.nodup, hf.mem, ?_, fun c B hB => (hrender c).symm ▸ hf.content c B hB⟩
  intro e' he' c hc
  rcases List.mem_append.1 he' with he' | he'
  · exact hf.mentioned e' he' c hc
  · rw [List.mem_singleton.1 he'] at hc
    exact hblocks c hc

theorem Filled.congr {present' : BlockId → Prop} (hf : Filled x h present blocks)
    (hpresent : ∀ c, present c ↔ present' c) : Filled x h present' blocks :=
  ⟨hf.nodup, fun c => (hf.mem c).trans (hpresent c), fun e he c hc => (hpresent c).1 (hf.mentioned e he c hc),
    hf.content⟩

theorem mentioned_append {e : Event} {c : BlockId} :
    Mentioned x (h ++ [e]) c ↔ Mentioned x h c ∨ c ∈ e.blocks x := by
  simp only [Mentioned, List.mem_append, List.mem_singleton, or_and_right, exists_or, exists_eq_left,
    or_assoc]

section

variable {i : Instruction}

theorem render_entered (n : NodeId) (c : BlockId) : render x (h ++ [.entered n]) c = render x h c := by
  simp [render, List.filterMap_append, List.filterMap_cons, Event.phiAt, Event.contribution, Event.instructionAt,
    Event.terminatorAt, List.findSome?_append]

theorem render_bound (n : NodeId) (o : Operand) (c : BlockId) :
    render x (h ++ [.bound n o]) c = render x h c := by
  simp [render, List.filterMap_append, List.filterMap_cons, Event.phiAt, Event.contribution, Event.instructionAt,
    Event.terminatorAt, List.findSome?_append]

theorem render_computed (n : NodeId) (i : Instruction) (c : BlockId) :
    render x (h ++ [.computed n i]) c =
      if c = x.schedule.blockOf n then (render x h c).push i else render x h c := by
  by_cases hc : c = x.schedule.blockOf n
  · subst hc
    simp [render, BasicBlock.push, List.filterMap_append, List.filterMap_cons, Event.phiAt, Event.contribution,
      Event.instructionAt, Event.terminatorAt, List.findSome?_append]
  · simp [render, List.filterMap_append, List.filterMap_cons, Event.phiAt, Event.contribution, Event.instructionAt,
      Event.terminatorAt, List.findSome?_append, hc, Ne.symm hc]

theorem render_performed (n : NodeId) (i : Instruction) (c : BlockId) :
    render x (h ++ [.performed n i]) c =
      if c = x.schedule.blockOf n then (render x h c).push i else render x h c := by
  by_cases hc : c = x.schedule.blockOf n
  · subst hc
    simp [render, BasicBlock.push, List.filterMap_append, List.filterMap_cons, Event.phiAt, Event.contribution,
      Event.instructionAt, Event.terminatorAt, List.findSome?_append]
  · simp [render, List.filterMap_append, List.filterMap_cons, Event.phiAt, Event.contribution, Event.instructionAt,
      Event.terminatorAt, List.findSome?_append, hc, Ne.symm hc]

theorem render_terminated {n : NodeId} {targets : List BlockId} {t : Terminator}
    (hopen : (render x h (x.schedule.blockOf n)).terminator = none) (c : BlockId) :
    render x (h ++ [.terminated n targets t]) c =
      if c = x.schedule.blockOf n then { render x h c with terminator := some t } else render x h c := by
  by_cases hc : c = x.schedule.blockOf n
  · subst hc
    have hnone : h.findSome? (Event.terminatorAt x (x.schedule.blockOf n)) = none := hopen
    simp [render, List.filterMap_append, List.filterMap_cons, Event.phiAt, Event.contribution, Event.instructionAt,
      Event.terminatorAt, List.findSome?_append, hnone]
  · simp [render, List.filterMap_append, List.filterMap_cons, Event.phiAt, Event.contribution, Event.instructionAt,
      Event.terminatorAt, List.findSome?_append, hc, Ne.symm hc]

theorem render_phi {n : NodeId} {l : Local} {t : IrType} (hnew : ∀ predecessor o, .incoming n predecessor o ∉ h)
    (c : BlockId) : render x (h ++ [.phi n l t]) c =
      if c = x.schedule.blockOf n then (render x h c).pushPhi ⟨l, t, []⟩ else render x h c := by
  have hnil : h.filterMap (Event.contribution n) = [] := by
    rw [List.filterMap_eq_nil_iff]
    intro e he
    cases e with
    | incoming m predecessor o =>
        refine if_neg ?_
        rintro rfl
        exact hnew predecessor o he
    | _ => rfl
  by_cases hc : c = x.schedule.blockOf n
  · subst hc
    simp [render, BasicBlock.pushPhi, List.filterMap_append, List.filterMap_cons, Event.phiAt, Event.contribution,
      Event.instructionAt, Event.terminatorAt, List.findSome?_append, hnil]
  · simp [render, List.filterMap_append, List.filterMap_cons, Event.phiAt, Event.contribution, Event.instructionAt,
      Event.terminatorAt, List.findSome?_append, hc, Ne.symm hc]

theorem phiAt_sublist (x : LoweringInput) (h : List Event) (b : BlockId) :
    ((h.filterMap (Event.phiAt x b)).map (·.1)).Sublist (h.filterMap Event.phi?) := by
  induction h with
  | nil => exact List.Sublist.refl _
  | cons e h ih =>
      cases e with
      | phi n l t =>
          by_cases hb : x.schedule.blockOf n = b
          · simpa [List.filterMap_cons, Event.phiAt, Event.phi?, hb] using ih
          · simpa [List.filterMap_cons, Event.phiAt, Event.phi?, hb] using ih.cons n
      | _ => simpa [List.filterMap_cons, Event.phiAt, Event.phi?] using ih

theorem blockOf_of_phiAt {h : List Event} {m : NodeId} {l : Local} {t : IrType}
    (hm : (m, l, t) ∈ h.filterMap (Event.phiAt x b)) : x.schedule.blockOf m = b := by
  obtain ⟨e, -, he⟩ := List.mem_filterMap.1 hm
  cases e with
  | phi k l' t' =>
      rw [Event.phiAt] at he
      split at he
      · cases he
        assumption
      · cases he
  | _ => cases he

theorem contribution_append (m n : NodeId) (predecessor : BlockId) (o : Operand) :
    (h ++ [Event.incoming n predecessor o]).filterMap (Event.contribution m) =
      h.filterMap (Event.contribution m) ++ if n = m then [(o, blockLabel predecessor)] else [] := by
  by_cases hm : n = m <;> simp [List.filterMap_append, Event.contribution, hm]

theorem render_incoming {predecessor : BlockId} {o : Operand} {l : Local} {t : IrType} {index : Nat}
    (hphis : (h.filterMap Event.phi?).Nodup)
    (hindex : (h.filterMap (Event.phiAt x (x.schedule.blockOf n)))[index]? = some (n, l, t)) (c : BlockId) :
    render x (h ++ [.incoming n predecessor o]) c =
      if c = x.schedule.blockOf n then (render x h c).addIncoming index o (blockLabel predecessor)
      else render x h c := by
  have hsame : (h ++ [Event.incoming n predecessor o]).filterMap (Event.phiAt x c) = h.filterMap (Event.phiAt x c) := by
    simp [List.filterMap_append, List.filterMap_cons, Event.phiAt]
  have hrest : render x (h ++ [.incoming n predecessor o]) c =
      { render x h c with phis := (render x (h ++ [.incoming n predecessor o]) c).phis } := by
    simp [render, List.filterMap_append, List.filterMap_cons, Event.instructionAt, Event.terminatorAt,
      List.findSome?_append]
  rw [hrest]
  by_cases hc : c = x.schedule.blockOf n
  · subst hc
    rw [if_pos rfl, BasicBlock.addIncoming]
    refine congrArg (fun phis => { render x h (x.schedule.blockOf n) with phis := phis }) ?_
    simp only [render, hsame]
    refine List.ext_getElem? fun j => ?_
    rw [List.getElem?_modify, List.getElem?_map, List.getElem?_map]
    cases hj : (h.filterMap (Event.phiAt x (x.schedule.blockOf n)))[j]? with
    | none => simp
    | some entry =>
        obtain ⟨m, l', t'⟩ := entry
        simp only [Option.map_some, contribution_append]
        by_cases hji : index = j
        · subst hji
          rw [hindex] at hj
          cases hj
          simp
        · have hne : n ≠ m := by
            rintro rfl
            have hnodup := hphis.sublist (phiAt_sublist x h (x.schedule.blockOf n))
            have hi : ((h.filterMap (Event.phiAt x (x.schedule.blockOf n))).map (·.1))[index]? = some n := by
              rw [List.getElem?_map, hindex]
              rfl
            have hj' : ((h.filterMap (Event.phiAt x (x.schedule.blockOf n))).map (·.1))[j]? = some n := by
              rw [List.getElem?_map, hj]
              rfl
            exact hji ((List.getElem?_inj (List.getElem?_eq_some_iff.1 hi).1 hnodup).1 (hi.trans hj'.symm))
          simp [hji, hne]
  · rw [if_neg hc]
    refine congrArg (fun phis => { render x h c with phis := phis }) ?_
    simp only [render, hsame]
    refine List.map_congr_left fun entry hentry => ?_
    obtain ⟨m, l', t'⟩ := entry
    have hne : n ≠ m := by
      rintro rfl
      exact hc (blockOf_of_phiAt hentry).symm
    simp only [contribution_append, hne, if_false, List.append_nil]

end

/-- A state goes on reflecting what has been done when it keeps up with one more event. -/
theorem Reflects.step (hr : Reflects x h s) {e : Event}
    (hblocks : Filled x (h ++ [e]) (Mentioned x (h ++ [e])) s'.blocks)
    (hvalues : s'.values = match e.operand? with
      | some (n, o) => s.values.insert n o
      | none => s.values)
    (heffects : ∀ n, n ∈ s'.effects ↔ n ∈ s.effects ∨ e.effect? = some n)
    (hlocal : match e.local? with
      | some l => l = ⟨s.nextLocal⟩ ∧ s'.nextLocal = s.nextLocal + 1
      | none => s'.nextLocal = s.nextLocal)
    (hvalue : ∀ n o, e.operand? = some (n, o) → x.graph.isValue n = true ∧ x.graph.Legal n)
    (haction : ∀ n, e.effect? = some n → x.graph.isValue n = false)
    (hphi : ∀ n, e.phi? = some n → n ∉ h.filterMap Event.phi?)
    (hincoming : ∀ n predecessor o, e = .incoming n predecessor o → ∃ l t, .phi n l t ∈ h) :
    Reflects x (h ++ [e]) s' where
  blocks := hblocks
  values n o ho := by
    rw [hvalues] at ho
    rw [bound_append, bound_singleton]
    cases he : e.operand? with
    | none =>
        rw [he] at ho
        exact .inl (hr.values n o ho)
    | some p =>
        rw [he] at ho
        dsimp only at ho
        obtain ⟨rfl, rfl⟩ | ⟨-, ho⟩ := Maps.getElem?_insert_eq_some.1 ho
        · exact .inr rfl
        · exact .inl (hr.values n o ho)
  fresh n hn o := by
    rw [hvalues] at hn
    rw [bound_append, bound_singleton, not_or]
    cases he : e.operand? with
    | none =>
        rw [he] at hn
        exact ⟨hr.fresh n hn o, nofun⟩
    | some p =>
        rw [he] at hn
        dsimp only at hn
        obtain ⟨hne, hn⟩ := Maps.getElem?_insert_eq_none.1 hn
        refine ⟨hr.fresh n hn o, ?_⟩
        rintro ⟨⟩
        exact hne rfl
  effects n := by
    rw [heffects, hr.effects]
    simp only [List.mem_append, List.mem_singleton, or_and_right, exists_or, exists_eq_left]
  isValue n o ho := by
    rw [bound_append, bound_singleton] at ho
    rcases ho with ho | ho
    · exact hr.isValue n o ho
    · exact hvalue n o ho
  isAction e' he' n hn := by
    rcases List.mem_append.1 he' with he' | he'
    · exact hr.isAction e' he' n hn
    · rw [List.mem_singleton.1 he'] at hn
      exact haction n hn
  locals := by
    obtain ⟨k, hk, hnext⟩ := hr.locals
    cases he : e.local? with
    | none =>
        rw [he] at hlocal
        exact ⟨k, by simp [List.filterMap_append, he, hk], hlocal.trans hnext⟩
    | some l =>
        rw [he] at hlocal
        obtain ⟨rfl, hnext'⟩ := hlocal
        refine ⟨k + 1, ?_, by rw [hnext', hnext, Nat.add_assoc]⟩
        simp [List.filterMap_append, he, hk, List.range'_1_concat, hnext]
  phis := by
    cases he : e.phi? with
    | none => simpa [List.filterMap_append, List.filterMap_cons, he] using hr.phis
    | some n =>
        have hn := hphi n he
        rw [List.filterMap_append]
        refine List.nodup_append.2 ⟨hr.phis, by simp [he], ?_⟩
        rintro m hm m' hm' rfl
        simp only [List.filterMap_cons, he, List.filterMap_nil, List.mem_singleton] at hm'
        exact hn (hm' ▸ hm)
  incoming n predecessor o hmem := by
    rcases List.mem_append.1 hmem with hmem | hmem
    · obtain ⟨l, t, hphi⟩ := hr.incoming n predecessor o hmem
      exact ⟨l, t, List.mem_append_left _ hphi⟩
    · obtain ⟨l, t, hphi⟩ := hincoming n predecessor o (List.mem_singleton.1 hmem).symm
      exact ⟨l, t, List.mem_append_left _ hphi⟩

end NativeBackend.Lowering
