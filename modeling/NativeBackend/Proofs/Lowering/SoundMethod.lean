import NativeBackend.Proofs.Lowering.Complete
import NativeBackend.Proofs.Lowering.SoundValue

namespace NativeBackend

namespace Lowering

open Steps

variable {x : LoweringInput} {lower : NodeId → LowerM Operand} {s s' : LoweringState} {n : NodeId} {o : Operand}

theorem terminate_goes (hs : Sound x s) {t : Terminator} (ht : ∀ o ∈ t.operands, o.Known s.emission.module)
    (h : terminate x n t s = .ok ⟨⟩ s') : Goes x s s' := by
  rw [terminate, bind_of_ok (discover_apply _ _), bind_of_ok (get_apply _)] at h
  have hg := hs.discover (x.schedule.blockOf n)
  have hended := hg.sound.changeAt (adds_terminator ht) (x.schedule.blockOf n) s.nextLocal
  dsimp only at h
  generalize (ensure (x.schedule.blockOf n) s.blocks).lookup (x.schedule.blockOf n) = found at h
  rcases found with _ | ⟨label, phis, instructions, _ | t'⟩
  · cases h
    exact hg.trans hended
  · cases h
    exact hg.trans hended
  · cases h

theorem lowerTerminator_goes (hlower : LowersSoundly x lower) (hs : Sound x s) {t : TerminatorNode}
    (hk : x.graph.kind? n = some (.terminator t)) (h : lowerTerminator x lower n t s = .ok ⟨⟩ s') :
    Goes x s s' ∧ (s'.emission.diagnostics.errorCount = 0 → x.graph.Supported n) := by
  cases t with
  | goto target dependency =>
      obtain ⟨_, s₁, heffects, h₁⟩ := bind_eq_ok.1 h
      have hg := lowerEffects_goes hlower hs heffects
      rw [bind_of_ok (discover_apply _ _)] at h₁
      have hg' := hg.trans (hg.sound.discover target)
      exact ⟨hg'.trans (terminate_goes hg'.sound (by simp [Terminator.operands]) h₁), fun _ => supported_of_kind hk rfl⟩
  | branch cond ifTrue ifFalse dependency =>
      obtain ⟨_, s₁, heffects, h₁⟩ := bind_eq_ok.1 h
      have hg := lowerEffects_goes hlower hs heffects
      obtain ⟨c, s₂, hc, h₂⟩ := bind_eq_ok.1 h₁
      obtain ⟨hg₁, hknown⟩ := hlower hg.sound hc
      rw [bind_of_ok (discover_apply _ _), bind_of_ok (discover_apply _ _)] at h₂
      have hg₂ := (hg.trans hg₁).trans (hg₁.sound.discover ifTrue)
      have hg₃ := hg₂.trans (hg₂.sound.discover ifFalse)
      exact ⟨hg₃.trans (terminate_goes hg₃.sound (by simpa [Terminator.operands] using hknown) h₂),
        fun _ => supported_of_kind hk rfl⟩
  | ret value dependency =>
      cases value with
      | none =>
          obtain ⟨_, s₁, heffects, h₁⟩ := bind_eq_ok.1 h
          have hg := lowerEffects_goes hlower hs heffects
          exact ⟨hg.trans (terminate_goes hg.sound (by simp [Terminator.operands]) h₁),
            fun _ => supported_of_kind hk rfl⟩
      | some value =>
          obtain ⟨_, s₁, heffects, h₁⟩ := bind_eq_ok.1 h
          have hg := lowerEffects_goes hlower hs heffects
          obtain ⟨operand, type, -, -, h₂⟩ := operandType_bind_eq_ok h₁
          obtain ⟨a, s₂, ha, h₃⟩ := bind_eq_ok.1 h₂
          obtain ⟨hg₁, hknown⟩ := hlower hg.sound ha
          have hg₂ := hg.trans hg₁
          exact ⟨hg₂.trans (terminate_goes hg₂.sound (by simpa [Terminator.operands] using hknown) h₃),
            fun _ => supported_of_kind hk rfl⟩
  | unreachable dependency =>
      obtain ⟨_, s₁, heffects, h₁⟩ := bind_eq_ok.1 h
      have hg := lowerEffects_goes hlower hs heffects
      exact ⟨hg.trans (terminate_goes hg.sound (by simp [Terminator.operands]) h₁), fun _ => supported_of_kind hk rfl⟩
  | throw value handler dependency =>
      obtain ⟨_, s₁, hreport, h₁⟩ := bind_eq_ok.1 h
      obtain ⟨hg, herror⟩ := report_goes hs hreport
      have hg' := terminate_goes hg.sound (by simp [Terminator.operands]) h₁
      refine ⟨hg.trans hg', fun hnone => ?_⟩
      have := hg'.advances.errors
      omega

theorem lowerBlock_goes (hlower : LowersSoundly x lower) (hs : Sound x s) {b : BlockId}
    (h : lowerBlock x lower b s = .ok ⟨⟩ s') :
    Goes x s s' ∧
      (s'.emission.diagnostics.errorCount = 0 → ∀ n, x.graph.terminator b = .ok n → x.graph.Supported n) := by
  obtain ⟨n, hterm, h₁⟩ := ofExcept_bind_eq_ok.1 h
  cases hk : x.graph.kind? n with
  | none =>
      rw [hk] at h₁
      cases h₁
  | some k =>
      rw [hk] at h₁
      cases k with
      | value v => cases h₁
      | action a => cases h₁
      | terminator t =>
          obtain ⟨hg, hsupported⟩ := lowerTerminator_goes hlower hs hk h₁
          refine ⟨hg, fun hnone m hm => ?_⟩
          cases hterm.symm.trans hm
          exact hsupported hnone

theorem lowerBlocks_goes (hlower : LowersSoundly x lower) (hlowers : LowersValues x lower) {events : List Event}
    (hs : Sound x s) (hr : Reflects x events s) {index blocks : Nat}
    (h : lowerBlocks x lower index blocks s = .ok ⟨⟩ s') :
    Goes x s s' ∧ (s'.emission.diagnostics.errorCount = 0 → ∀ b ∈ ((keys s'.blocks).drop index).take blocks,
      ∀ n, x.graph.terminator b = .ok n → x.graph.Supported n) := by
  induction blocks generalizing events s index with
  | zero =>
      cases h
      exact ⟨hs.goes, by simp⟩
  | succ blocks ih =>
      rw [lowerBlocks, bind_of_ok (get_apply s)] at h
      cases hi : s.blocks[index]? with
      | none =>
          rw [hi] at h
          cases h
          have hdrop : (keys s'.blocks).drop index = [] := by
            rw [List.drop_eq_nil_iff, keys, List.length_map]
            exact List.getElem?_eq_none_iff.1 hi
          exact ⟨hs.goes, by simp [hdrop]⟩
      | some p =>
          obtain ⟨b, block⟩ := p
          rw [hi] at h
          obtain ⟨_, s₁, hblock, hrest⟩ := bind_eq_ok.1 h
          have hkey : (keys s.blocks)[index]? = some b := by
            rw [keys, List.getElem?_map, hi]
            rfl
          obtain ⟨hg, hfirst⟩ := lowerBlock_goes hlower hs hblock
          obtain ⟨w, hd, -⟩ := lowerBlock_eq_ok hlowers hr (List.mem_of_getElem? hkey) hblock
          obtain ⟨hg', hrest'⟩ := ih hg.sound hd.reflects hrest
          obtain ⟨w', hd', -⟩ := lowerBlocks_eq_ok hlowers hd.reflects hrest
          have hkey' : (keys s'.blocks)[index]? = some b := by
            obtain ⟨more, hmore⟩ := (hd.trans hd').grows
            rw [← hmore, List.getElem?_append_left (List.getElem?_eq_some_iff.1 hkey).1, hkey]
          obtain ⟨hlt, heq⟩ := List.getElem?_eq_some_iff.1 hkey'
          refine ⟨hg.trans hg', fun hnone c hc => ?_⟩
          rw [List.drop_eq_getElem_cons hlt, List.take_succ_cons, heq] at hc
          rcases List.mem_cons.1 hc with rfl | hc
          · exact hfirst (Nat.eq_zero_of_le_zero (hnone ▸ hg'.advances.errors))
          · exact hrest' hnone c hc

theorem Lowers.not_terminated {h w : List Event} {ts : List Task} (hl : Lowers x h ts w) {targets : List BlockId}
    {t : Terminator} : .terminated n targets t ∉ w := by
  induction hl with
  | nil => simp
  | known _ _ ih => exact ih
  | entered _ _ _ ih | bound _ _ _ ih => simpa using ih
  | emit _ _ he _ ih ih' => cases he <;> simp [ih, ih']
  | late _ _ _ _ _ _ ih ih' => simp [ih, ih']
  | phi _ _ _ _ _ ih ih' => simp [ih, ih']
  | incoming _ _ _ _ ih ih' => simp [ih, ih']

theorem LowersBlocks.terminator_of_mem {h w : List Event} {bs : List BlockId} (hl : LowersBlocks x h bs w)
    {targets : List BlockId} {t : Terminator} (hmem : .terminated n targets t ∈ w) :
    ∃ b ∈ bs, x.graph.terminator b = .ok n := by
  induction hl with
  | nil => cases hmem
  | ended _ hterm _ hl _ _ ih =>
      rcases List.mem_append.1 hmem with hmem | hmem
      · exact absurd hmem hl.not_terminated
      · rcases List.mem_cons.1 hmem with heq | hmem
        · cases heq
          exact ⟨_, List.mem_cons_self, hterm⟩
        · obtain ⟨b, hb, hn⟩ := ih hmem
          exact ⟨b, List.mem_cons_of_mem _ hb, hn⟩
  | thrown _ hterm _ _ ih =>
      rcases List.mem_cons.1 hmem with heq | hmem
      · cases heq
        exact ⟨_, List.mem_cons_self, hterm⟩
      · obtain ⟨b, hb, hn⟩ := ih hmem
        exact ⟨b, List.mem_cons_of_mem _ hb, hn⟩

theorem supported_of_run {h : List Event} (hr : Reflects x h s) {bs : List BlockId} (hl : LowersBlocks x [] bs h)
    (hvalues : ∀ (n : NodeId) o, s.values[n]? = some o → x.graph.Supported n)
    (hends : ∀ b ∈ bs, ∀ n, x.graph.terminator b = .ok n → x.graph.Supported n) {e : Event} (he : e ∈ h) :
    x.graph.Supported e.node := by
  have hbound : ∀ n o, Bound h n o → x.graph.Supported n := by
    intro n o hb
    cases hn : s.values[n]? with
    | none => exact absurd hb (hr.fresh n hn o)
    | some o' => exact hvalues n o' hn
  obtain ⟨before, -, hguard⟩ := hl.valid.exists_guard he
  cases e with
  | entered m =>
      cases hguard with
      | entered _ hk => exact supported_of_kind hk rfl
      | emit hem => cases hem
  | performed m i =>
      cases hguard with
      | emit hem =>
          cases hem with
          | action hk => exact supported_of_kind hk rfl
  | bound m o => exact hbound m o ⟨_, he, rfl⟩
  | computed m i => exact hbound m i.gives ⟨_, he, rfl⟩
  | phi m l t => exact hbound m (.ofLocal l) ⟨_, he, rfl⟩
  | incoming m predecessor o =>
      obtain ⟨l, t, hphi⟩ := hr.incoming m predecessor o he
      exact hbound m (.ofLocal l) ⟨_, hphi, rfl⟩
  | terminated m targets t =>
      obtain ⟨b, hb, hm⟩ := hl.terminator_of_mem he
      exact hends b hb m hm

end Lowering

open Lowering

/-- A function comes from a run of lowering in which no node had a placeholder. -/
def Graph.LowersWhole (g : Graph) (f : Function) : Prop :=
  ∃ schedule order events, Lowered ⟨g, schedule⟩ f order events ∧ ∀ e ∈ events, g.Supported e.node

/-- Lowering a method adds no function, makes every symbol known that the body mentions, and reports an error
where it leaves a placeholder. -/
theorem lowerMethod_advances {g : Graph} (hg : g.WellFormed) (hpointers : g.PointersMade) {e e' : Emission}
    {f : Function} (h : lowerMethod g e = .ok f e') :
    e.Advances e' ∧ f.name = g.method.symbol ∧ (∀ name ∈ f.symbols, e'.module.Knows name) ∧
      (e'.diagnostics.errorCount = 0 → g.LowersWhole f) := by
  obtain ⟨signature, schedule, s', hsignature, hschedule, hgraph, rfl, rfl⟩ := exists_lowerGraph h
  obtain ⟨events, hd, hl, hsize⟩ := lowerGraph_eq_ok (x := ⟨g, schedule⟩) hg hschedule hgraph
  have hr : Reflects ⟨g, schedule⟩ events s' := by simpa using hd.reflects
  have hstart : Sound ⟨g, schedule⟩
      { emission := e, blocks := [], nextLocal := g.method.functionType.params.length } :=
    ⟨by simp, by simp, by simp⟩
  rw [lowerGraph, Steps.bind_of_ok (discover_apply _ _)] at hgraph
  have hentry := hstart.discover g.entry
  obtain ⟨hgoes, hends⟩ := lowerBlocks_goes (lowerValue_sound hpointers _) (lowerValue_lowers _ _) hentry.sound
    (reflects_start ⟨g, schedule⟩ e) hgraph
  rw [List.drop_zero, List.take_of_length_le hsize] at hends
  refine ⟨(hentry.trans hgoes).advances, rfl, fun name hname => ?_, fun hnone => ?_⟩
  · obtain ⟨B, hB, o, ho, hname⟩ := Function.mem_symbols.1 hname
    obtain ⟨p, hp, rfl⟩ := List.mem_map.1 hB
    exact hgoes.sound.blocks p hp o ho name hname
  · exact ⟨schedule, _, events, hd.lowered hl hschedule hsignature, fun e he =>
      supported_of_run hr hl (hgoes.sound.supported hnone) (hends hnone) he⟩

end NativeBackend
