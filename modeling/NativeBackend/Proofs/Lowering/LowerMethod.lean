import NativeBackend.Proofs.Graph.Placement
import NativeBackend.Proofs.Lowering.LowerValue

namespace NativeBackend.Lowering

/-- Blocks are ended one after another; what a terminator needs is lowered before it. -/
inductive LowersBlocks (x : LoweringInput) : List Event → List BlockId → List Event → Prop where
  | nil {h : List Event} : LowersBlocks x h [] []
  | ended {h w w' : List Event} {b : BlockId} {bs : List BlockId} {n : NodeId} {t : TerminatorNode}
      {t' : Terminator} : Mentioned x h b → x.graph.terminator b = .ok n →
      x.graph.kind? n = some (.terminator t) →
      Lowers x h (t.inputs.map .need) w → Ends x.graph (Bound (h ++ w)) t t' →
      LowersBlocks x (h ++ w ++ [.terminated n t.successors t']) bs w' →
      LowersBlocks x h (b :: bs) (w ++ .terminated n t.successors t' :: w')
  | thrown {h w : List Event} {b : BlockId} {bs : List BlockId} {n value dependency : NodeId}
      {handler : Option BlockId} : Mentioned x h b → x.graph.terminator b = .ok n →
      x.graph.kind? n = some (.terminator (.throw value handler dependency)) →
      LowersBlocks x (h ++ [.terminated n [] .unreachable]) bs w →
      LowersBlocks x h (b :: bs) (.terminated n [] .unreachable :: w)

variable {x : LoweringInput} {lower : NodeId → LowerM Operand} {h w : List Event} {s s₁ s' : LoweringState}
  {n : NodeId} {o : Operand}

def ensureAll (targets : List BlockId) (blocks : List (BlockId × BasicBlock)) : List (BlockId × BasicBlock) :=
  targets.foldl (fun blocks b => ensure b blocks) blocks

theorem Filled.ensureAll {present : BlockId → Prop} {blocks : List (BlockId × BasicBlock)}
    (hf : Filled x h present blocks) (targets : List BlockId) :
    Filled x h (fun c => present c ∨ c ∈ targets) (ensureAll targets blocks) ∧
      keys blocks <+: keys (ensureAll targets blocks) := by
  induction targets generalizing present blocks with
  | nil => exact ⟨hf.congr (by simp), List.prefix_rfl⟩
  | cons b targets ih =>
      obtain ⟨hf', hgrows⟩ := ih (hf.ensure b)
      refine ⟨hf'.congr fun c => ?_, (prefix_keys_ensure b blocks).trans hgrows⟩
      rw [List.mem_cons, or_assoc]

theorem terminate_eq_ok {present : BlockId → Prop} (hf : Filled x h present s.blocks) {t : Terminator}
    (ht : terminate x n t s = .ok ⟨⟩ s') :
    (render x h (x.schedule.blockOf n)).terminator = none ∧ s' = { s with
      blocks := changeAt (x.schedule.blockOf n) (fun block => { block with terminator := some t })
        (ensure (x.schedule.blockOf n) s.blocks) } := by
  have hlookup := (hf.ensure (x.schedule.blockOf n)).lookup (.inr rfl)
  rw [terminate, Steps.bind_of_ok (discover_apply _ _), Steps.bind_of_ok (Steps.get_apply _)] at ht
  dsimp only at ht
  rw [hlookup] at ht
  cases hterm : (render x h (x.schedule.blockOf n)).terminator with
  | none =>
      have hrender : render x h (x.schedule.blockOf n) =
          ⟨(render x h (x.schedule.blockOf n)).label, (render x h (x.schedule.blockOf n)).phis,
            (render x h (x.schedule.blockOf n)).instructions, none⟩ := by
        rw [← hterm]
      rw [hrender] at ht
      cases ht
      exact ⟨rfl, rfl⟩
  | some t' =>
      have hrender : render x h (x.schedule.blockOf n) =
          ⟨(render x h (x.schedule.blockOf n)).label, (render x h (x.schedule.blockOf n)).phis,
            (render x h (x.schedule.blockOf n)).instructions, some t'⟩ := by
        rw [← hterm]
      rw [hrender] at ht
      cases ht

theorem Does.terminated (hdoes : Does x h w s s₁) (targets : List BlockId) {t : Terminator}
    (ht : terminate x n t { s₁ with blocks := ensureAll targets s₁.blocks } = .ok ⟨⟩ s') :
    Does x h (w ++ [.terminated n targets t]) s s' := by
  have hr := hdoes.reflects
  obtain ⟨hf, hgrows⟩ := hr.blocks.ensureAll targets
  obtain ⟨hopen, rfl⟩ := terminate_eq_ok hf ht
  have hfilled : Filled x (h ++ w ++ [.terminated n targets t]) (Mentioned x (h ++ w ++ [.terminated n targets t]))
      (changeAt (x.schedule.blockOf n) (fun block => { block with terminator := some t })
        (ensure (x.schedule.blockOf n) (Lowering.ensureAll targets s₁.blocks))) := by
    refine Filled.congr ((hf.ensure (x.schedule.blockOf n)).changeAt ?_ (render_terminated hopen)) fun c => ?_
    · intro c hc
      rcases List.mem_cons.1 hc with rfl | hc
      · exact .inr rfl
      · exact .inl (.inr hc)
    · rw [mentioned_append, Event.blocks, List.mem_cons, or_assoc, or_comm (a := c = _)]
  refine hdoes.trans ⟨hr.step hfilled rfl (by simp [Event.effect?]) rfl (by rintro _ _ ⟨⟩) (by rintro _ ⟨⟩)
    (by rintro _ ⟨⟩) (by rintro _ _ _ ⟨⟩), ?_⟩
  rw [keys_changeAt]
  exact hgrows.trans (prefix_keys_ensure _ _)

theorem lowerTerminator_eq_ok (hlower : LowersValues x lower) (hr : Reflects x h s) {t : TerminatorNode}
    (ht : lowerTerminator x lower n t s = .ok ⟨⟩ s') :
    (∃ w t', Lowers x h (t.inputs.map .need) w ∧ Ends x.graph (Bound (h ++ w)) t t' ∧
        Does x h (w ++ [.terminated n t.successors t']) s s') ∨
      (∃ value handler dependency, t = .throw value handler dependency) ∧
        Does x h [.terminated n [] .unreachable] s s' := by
  cases t with
  | goto target dependency =>
      obtain ⟨_, s₁, heffects, ht₁⟩ := Steps.bind_eq_ok.1 ht
      obtain ⟨w, hl, hd⟩ := lowerEffects_eq_ok hlower hr heffects
      rw [Steps.bind_of_ok (discover_apply _ _)] at ht₁
      exact .inl ⟨w, _, hl, .goto, hd.terminated [target] ht₁⟩
  | branch cond ifTrue ifFalse dependency =>
      obtain ⟨_, s₁, heffects, ht₁⟩ := Steps.bind_eq_ok.1 ht
      obtain ⟨w, hl, hd⟩ := lowerEffects_eq_ok hlower hr heffects
      obtain ⟨c, s₂, hc, ht₂⟩ := Steps.bind_eq_ok.1 ht₁
      obtain ⟨w', hl', hd', hb, -⟩ := hd.operand hlower [dependency] hl hc
      rw [Steps.bind_of_ok (discover_apply _ _), Steps.bind_of_ok (discover_apply _ _)] at ht₂
      exact .inl ⟨w ++ w', _, hl', .branch hb, hd'.terminated [ifTrue, ifFalse] ht₂⟩
  | ret value dependency =>
      cases value with
      | none =>
          obtain ⟨_, s₁, heffects, ht₁⟩ := Steps.bind_eq_ok.1 ht
          obtain ⟨w, hl, hd⟩ := lowerEffects_eq_ok hlower hr heffects
          exact .inl ⟨w, _, hl, .retVoid, hd.terminated [] ht₁⟩
      | some value =>
          obtain ⟨_, s₁, heffects, ht₁⟩ := Steps.bind_eq_ok.1 ht
          obtain ⟨w, hl, hd⟩ := lowerEffects_eq_ok hlower hr heffects
          obtain ⟨operand, type, hvalue, htarget, ht₂⟩ := operandType_bind_eq_ok ht₁
          obtain ⟨a, s₂, ha, ht₃⟩ := Steps.bind_eq_ok.1 ht₂
          obtain ⟨w', hl', hd', hb, -⟩ := hd.operand hlower [dependency] hl ha
          exact .inl ⟨w ++ w', _, hl', .ret hvalue htarget hb, hd'.terminated [] ht₃⟩
  | unreachable dependency =>
      obtain ⟨_, s₁, heffects, ht₁⟩ := Steps.bind_eq_ok.1 ht
      obtain ⟨w, hl, hd⟩ := lowerEffects_eq_ok hlower hr heffects
      exact .inl ⟨w, _, hl, .unreachable, hd.terminated [] ht₁⟩
  | throw value handler dependency =>
      obtain ⟨_, s₁, hreport, ht₁⟩ := Steps.bind_eq_ok.1 ht
      obtain ⟨e, rfl⟩ := produce_eq_ok hreport
      exact .inr ⟨⟨value, handler, dependency, rfl⟩, (hr.does_emission e).terminated [] ht₁⟩

theorem lowerBlock_eq_ok (hlower : LowersValues x lower) (hr : Reflects x h s) {b : BlockId}
    (hmem : b ∈ keys s.blocks) (hb : lowerBlock x lower b s = .ok ⟨⟩ s') :
    ∃ w, Does x h w s s' ∧ ∀ bs w', LowersBlocks x (h ++ w) bs w' → LowersBlocks x h (b :: bs) (w ++ w') := by
  have hmentioned := (hr.blocks.mem b).1 hmem
  obtain ⟨n, hterm, hb₁⟩ := ofExcept_bind_eq_ok.1 hb
  cases hk : x.graph.kind? n with
  | none =>
      rw [hk] at hb₁
      cases hb₁
  | some k =>
      rw [hk] at hb₁
      cases k with
      | value v => cases hb₁
      | action a => cases hb₁
      | terminator t =>
          rcases lowerTerminator_eq_ok hlower hr hb₁ with ⟨w, t', hl, he, hd⟩ | ⟨⟨v, handler, d, rfl⟩, hd⟩
          · refine ⟨_, hd, fun bs w' hl' => ?_⟩
            rw [← List.append_assoc] at hl'
            simpa using LowersBlocks.ended hmentioned hterm hk hl he hl'
          · exact ⟨_, hd, fun bs w' hl' => .thrown hmentioned hterm hk hl'⟩

theorem lowerBlocks_eq_ok (hlower : LowersValues x lower) (hr : Reflects x h s) {index blocks : Nat}
    (hb : lowerBlocks x lower index blocks s = .ok ⟨⟩ s') :
    ∃ w, Does x h w s s' ∧ LowersBlocks x h (((keys s'.blocks).drop index).take blocks) w := by
  induction blocks generalizing h s index with
  | zero =>
      cases hb
      exact ⟨[], hr.does_nil, .nil⟩
  | succ blocks ih =>
      rw [lowerBlocks, Steps.bind_of_ok (Steps.get_apply s)] at hb
      cases hi : s.blocks[index]? with
      | none =>
          rw [hi] at hb
          cases hb
          have hlen := List.getElem?_eq_none_iff.1 hi
          have hdrop : (keys s'.blocks).drop index = [] := by
            rw [List.drop_eq_nil_iff, keys, List.length_map]
            exact hlen
          rw [hdrop, List.take_nil]
          exact ⟨[], hr.does_nil, .nil⟩
      | some p =>
          obtain ⟨b, block⟩ := p
          rw [hi] at hb
          obtain ⟨_, s₁, hblock, hrest⟩ := Steps.bind_eq_ok.1 hb
          have hkey' : (keys s.blocks)[index]? = some b := by
            rw [keys, List.getElem?_map, hi]
            rfl
          obtain ⟨w, hd, hcons⟩ := lowerBlock_eq_ok hlower hr (List.mem_of_getElem? hkey') hblock
          obtain ⟨w', hd', hl'⟩ := ih hd.reflects hrest
          have hdoes := hd.trans hd'
          have hkey : (keys s'.blocks)[index]? = some b := by
            obtain ⟨more, hmore⟩ := hdoes.grows
            rw [← hmore, List.getElem?_append_left (List.getElem?_eq_some_iff.1 hkey').1, hkey']
          obtain ⟨hlt, heq⟩ := List.getElem?_eq_some_iff.1 hkey
          refine ⟨w ++ w', hdoes, ?_⟩
          rw [List.drop_eq_getElem_cons hlt, List.take_succ_cons, heq]
          exact hcons _ _ hl'

end NativeBackend.Lowering
