import NativeBackend.Proofs.Graph.Convergence

namespace NativeBackend

namespace Graph

structure ImmediatelyDominates (g : Graph) (d b : BlockId) : Prop where
  ne : d ≠ b
  dominates : g.Dominates d b
  nearest : ∀ a, a ≠ b → g.Dominates a b → g.Dominates a d

theorem Dominates.eq_of_dominates {g : Graph} {a b : BlockId} (hab : g.Dominates a b) (hba : g.Dominates b a)
    (hb : g.Reaches b) : a = b :=
  Flow.Dominates.antisymm hab hba (reaches_iff_path.1 hb)

end Graph

open NativeBackend.Graph

variable {g : Graph} {a b c p x : BlockId}

namespace Idoms

variable {order : List BlockId} {idoms : Idoms} {k : Nat} {depths : Array Nat}

/-- At the end of the rounds the blocks above a block are its dominators. -/
theorem above_iff_dominates (h : Partial g order idoms.parent? 0) (hs : ∀ b ∈ order, g.Settled idoms.parent? b)
    (hb : g.Reaches b) : Above idoms.parent? a b ↔ g.Dominates a b := by
  have hknown : ∀ {b}, g.Reaches b → idoms.parent? b ≠ none := fun hb =>
    h.known ((h.postorder.mem _).2 hb) (Nat.zero_le _)
  refine ⟨fun hab visited hp => ?_, h.above (hknown hb)⟩
  induction hp with
  | start =>
      rw [h.rises.eq_top hab rfl]
      exact List.mem_singleton_self _
  | @step visited p b hp hnext ih =>
      by_cases hne : a = b
      · rw [hne]
        exact List.mem_cons_self
      · have hpr : g.Reaches p := reaches_iff_path.2 ⟨visited, hp⟩
        refine List.mem_cons_of_mem _ (ih hpr ?_)
        by_cases hbe : b = g.entry
        · exact absurd (h.rises.eq_top hab hbe) (hbe ▸ hne)
        · obtain ⟨d, hd, hall⟩ := hs b ((h.postorder.mem b).2 hb) hbe
          exact (hab.of_ne hne hd).trans (hall p hnext (hknown hpr))

def Deeper (g : Graph) (idoms : Idoms) (depths : Array Nat) (b : BlockId) : Prop :=
  ∀ p, idoms.parent? b = some p → b ≠ g.entry → depths.getD b 0 = depths.getD p 0 + 1

theorem getD_replicate (n : Nat) (b : BlockId) : (Array.replicate n 0).getD b 0 = 0 := by
  rw [Array.getD_eq_getD_getElem?, Array.getElem?_replicate]
  split <;> rfl

theorem deeper_setIfInBounds (h : Partial g order idoms.parent? 0) (hsize : x < depths.size)
    (hdeeper : ∀ b, order.idxOf x < order.idxOf b → Deeper g idoms depths b)
    (hb : order.idxOf x ≤ order.idxOf b) (hx : x ∈ order) : Deeper g idoms
      (depths.setIfInBounds x (((idoms.parent? x).map (depths.getD · 0)).getD 0 + 1)) b := by
  have hset : ∀ d c, (depths.setIfInBounds x d).getD c 0 = if c = x then d else depths.getD c 0 := by
    intro d c
    simp only [Array.getD_eq_getD_getElem?, Array.getElem?_setIfInBounds, hsize, if_true]
    by_cases hc : c = x
    · simp [hc]
    · rw [if_neg hc, if_neg (Ne.symm hc)]
  intro p hp hbe
  have hlt := h.lt hp hbe
  have hpx : p ≠ x := by
    rintro rfl
    omega
  rw [hset, hset, if_neg hpx]
  by_cases hbx : b = x
  · rw [if_pos hbx, ← hbx, hp]
    rfl
  · rw [if_neg hbx]
    have hidx : order.idxOf x ≠ order.idxOf b := fun heq => hbx ((List.idxOf_inj hx).1 heq).symm
    exact hdeeper b (by omega) p hp hbe

theorem deeper_foldl (hclosed : g.Closed) (h : Partial g order idoms.parent? 0) (hk : k ≤ order.length)
    (hsize : depths.size = g.blocks.size) (hentry : depths.getD g.entry 0 = 0)
    (hdeeper : ∀ b, k ≤ order.idxOf b → Deeper g idoms depths b) :
    let depths' := (order.take k).reverse.foldl (fun depths b =>
      if b = g.entry then depths
      else depths.setIfInBounds b (((idoms.parent? b).map (depths.getD · 0)).getD 0 + 1)) depths
    depths'.getD g.entry 0 = 0 ∧ ∀ b, Deeper g idoms depths' b := by
  induction k generalizing depths with
  | zero => exact ⟨hentry, fun b => hdeeper b (Nat.zero_le _)⟩
  | succ k ih =>
      have hlt : k < order.length := hk
      have hmem := List.getElem_mem hlt
      have hidx : order.idxOf order[k] = k := h.postorder.nodup.idxOf_getElem k hlt
      rw [List.take_succ_eq_append_getElem hlt, List.reverse_append, List.reverse_singleton,
        List.singleton_append, List.foldl_cons]
      by_cases hentry' : order[k] = g.entry
      · rw [if_pos hentry']
        refine ih (Nat.le_of_lt hlt) hsize hentry fun b hb => ?_
        by_cases hbe : b = g.entry
        · exact fun _ _ hne => absurd hbe hne
        · refine fun p hp hne => hdeeper b ?_ p hp hne
          have hb' : b ∈ order := h.mem (by simp [hp])
          have hneq : order.idxOf b ≠ order.idxOf order[k] := fun heq =>
            hbe (((List.idxOf_inj hb').1 heq).trans hentry')
          omega
      · rw [if_neg hentry']
        have hltx : order[k] < depths.size := hsize ▸ hclosed _ ((h.postorder.mem _).1 hmem)
        refine ih (Nat.le_of_lt hlt) (by simpa using hsize) ?_ fun b hb => ?_
        · rw [Array.getD_eq_getD_getElem?, Array.getElem?_setIfInBounds_ne hentry', ← Array.getD_eq_getD_getElem?]
          exact hentry
        · exact deeper_setIfInBounds h hltx (fun b hb' => hdeeper b (by omega)) (by omega) hmem

end Idoms

namespace DominatorTree

/-- The tree of dominators of a graph: the blocks on the way up from a block are those that all paths to it go
through. -/
structure Reflects (g : Graph) (t : DominatorTree) : Prop where
  entry : t.entry = g.entry
  parent_entry : t.idoms.parent? g.entry = some g.entry
  known : ∀ b, t.idoms.parent? b ≠ none ↔ g.Reaches b
  above : ∀ {a b}, g.Reaches b → (Above t.idoms.parent? a b ↔ g.Dominates a b)
  depth_entry : t.depth g.entry = 0
  depth_parent : ∀ {b p}, t.idoms.parent? b = some p → b ≠ g.entry → t.depth b = t.depth p + 1

theorem compute_eq_some (hclosed : g.Closed) : ∃ t, compute g = some t ∧ t.Reflects g := by
  obtain ⟨order, horder, hp⟩ := postorder_eq_some hclosed
  have hsize : (Idoms.start g).size = g.blocks.size := by simp [Idoms.start]
  have hstart : Partial g order (Idoms.start g).parent? order.length := by
    refine .start hp ?_ fun b hb => ?_
    · rw [Idoms.parent?_start hclosed, if_pos rfl]
    · rw [Idoms.parent?_start hclosed, if_neg hb]
  obtain ⟨idoms, hsettle, h, hs⟩ := Idoms.settle_eq_some hclosed hsize hstart
  have hdepths := Idoms.deeper_foldl hclosed h (Nat.le_refl _)
    Array.size_replicate (Idoms.getD_replicate ..) fun b hb p hp => by
      have := List.idxOf_lt_length_of_mem (h.mem (b := b) (by simp [hp]))
      omega
  rw [List.take_length] at hdepths
  refine ⟨⟨g.entry, idoms, idoms.depths g order⟩, ?_, rfl, h.up_entry, fun b => ⟨fun hb => ?_, fun hb => ?_⟩,
    Idoms.above_iff_dominates h hs, hdepths.1, fun {b p} hp hb => hdepths.2 b p hp hb⟩
  · rw [compute, horder, Option.bind_eq_bind, Option.bind_some, hsettle]
    rfl
  · exact (hp.mem b).1 (h.mem hb)
  · exact h.known ((hp.mem b).2 hb) (Nat.zero_le _)

namespace Reflects

variable {t : DominatorTree} (ht : t.Reflects g)

include ht

theorem exists_parent (hb : g.Reaches b) : ∃ p, t.idoms.parent? b = some p :=
  Option.ne_none_iff_exists'.1 ((ht.known b).2 hb)

theorem reaches_parent (hp : t.idoms.parent? b = some p) : g.Reaches p := by
  have hb : g.Reaches b := (ht.known b).1 (by simp [hp])
  exact ((ht.above hb).1 (.step hp .refl)).reaches hb

@[elab_as_elim]
theorem induct {motive : BlockId → Prop} (hentry : motive g.entry)
    (hparent : ∀ {b p}, t.idoms.parent? b = some p → b ≠ g.entry → g.Reaches b → motive p → motive b)
    (b : BlockId) (hb : g.Reaches b) : motive b := by
  induction hk : t.depth b using Nat.strongRecOn generalizing b with
  | ind k ih =>
      by_cases hbe : b = g.entry
      · rwa [hbe]
      · obtain ⟨p, hp⟩ := ht.exists_parent hb
        have hdepth := ht.depth_parent hp hbe
        exact hparent hp hbe hb (ih (t.depth p) (by omega) p (ht.reaches_parent hp) rfl)

omit ht in
theorem eq_entry (hab : g.Dominates a g.entry) : a = g.entry := List.mem_singleton.1 (hab _ .start)

theorem parent_ne (hp : t.idoms.parent? b = some p) (hbe : b ≠ g.entry) : p ≠ b := by
  rintro rfl
  have := ht.depth_parent hp hbe
  omega

theorem parent_dominates (hp : t.idoms.parent? b = some p) (hb : g.Reaches b) : g.Dominates p b :=
  (ht.above hb).1 (.step hp .refl)

theorem dominates_parent (hp : t.idoms.parent? b = some p) (hb : g.Reaches b) (hab : g.Dominates a b) (hne : a ≠ b) :
    g.Dominates a p :=
  (ht.above (ht.reaches_parent hp)).1 (((ht.above hb).2 hab).of_ne hne hp)

theorem dominates_eq_some (hb : g.Reaches b) (a : BlockId) :
    ∃ answer, t.dominates a b = some answer ∧ (answer = true ↔ g.Dominates a b) := by
  refine ht.induct ?_ (fun {b p} hp hbe hb ih => ?_) b hb
  · rw [dominates]
    by_cases ha : a = g.entry
    · exact ⟨true, by rw [if_pos ha], fun _ => ha ▸ Flow.dominates_refl _ _, fun _ => rfl⟩
    · refine ⟨false, by rw [if_neg ha, immediateDominator?, if_pos ht.entry.symm], ?_⟩
      exact ⟨Bool.noConfusion, fun h => absurd (eq_entry h) ha⟩
  · rw [dominates]
    by_cases ha : a = b
    · exact ⟨true, by rw [if_pos ha], fun _ => ha ▸ Flow.dominates_refl _ _, fun _ => rfl⟩
    · obtain ⟨answer, heq, hiff⟩ := ih
      refine ⟨answer, ?_, hiff.trans ⟨fun h => ?_, fun h => ht.dominates_parent hp hb h ha⟩⟩
      · rw [if_neg ha, immediateDominator?, ht.entry, if_neg hbe, hp]
        exact heq
      · exact Flow.Dominates.trans h (ht.parent_dominates hp hb)

theorem immediateDominator?_eq_some (hb : g.Reaches b) (hbe : b ≠ g.entry) :
    ∃ d, t.immediateDominator? b = some d ∧ g.ImmediatelyDominates d b := by
  obtain ⟨p, hp⟩ := ht.exists_parent hb
  refine ⟨p, ?_, ht.parent_ne hp hbe, ht.parent_dominates hp hb, fun a hne hab => ht.dominates_parent hp hb hab hne⟩
  rw [immediateDominator?, ht.entry, if_neg hbe, hp]

/-- The strict dominators of a block are as many as its depth says. -/
theorem exists_strictDominators (hb : g.Reaches b) :
    ∃ ds : List BlockId, ds.Nodup ∧ (∀ a, a ∈ ds ↔ a ≠ b ∧ g.Dominates a b) ∧ ds.length = t.depth b := by
  refine ht.induct ?_ (fun {b p} hp hbe hb ih => ?_) b hb
  · refine ⟨[], List.nodup_nil, fun a => ?_, ht.depth_entry.symm⟩
    simp only [List.not_mem_nil, false_iff, not_and]
    exact fun hne hab => hne (eq_entry hab)
  · obtain ⟨ds, hnodup, hmem, hlength⟩ := ih
    refine ⟨p :: ds, List.nodup_cons.2 ⟨fun hp => ((hmem p).1 hp).1 rfl, hnodup⟩, fun a => ?_, ?_⟩
    · rw [List.mem_cons, hmem]
      constructor
      · rintro (rfl | ⟨hne, hap⟩)
        · exact ⟨ht.parent_ne hp hbe, ht.parent_dominates hp hb⟩
        · have hpb := ht.parent_dominates hp hb
          refine ⟨?_, Flow.Dominates.trans hap hpb⟩
          rintro rfl
          exact hne (hap.eq_of_dominates hpb (ht.reaches_parent hp))
      · rintro ⟨hne, hab⟩
        by_cases hap : a = p
        · exact .inl hap
        · exact .inr ⟨hap, ht.dominates_parent hp hb hab hne⟩
    · rw [List.length_cons, hlength, ht.depth_parent hp hbe]

theorem depth_le (hb : g.Reaches b) (hab : Above t.idoms.parent? a b) : t.depth a ≤ t.depth b := by
  induction hab with
  | refl => exact Nat.le_refl _
  | @step b c hup _ ih =>
      have := ih (ht.reaches_parent hup)
      by_cases hbe : b = g.entry
      · rw [hbe, ht.parent_entry] at hup
        cases hup
        exact hbe ▸ this
      · have := ht.depth_parent hup hbe
        omega

theorem depth_lt (hb : g.Reaches b) (hab : Above t.idoms.parent? a b) (hne : a ≠ b) : t.depth a < t.depth b := by
  obtain ⟨p, hp⟩ := ht.exists_parent hb
  have hbe : b ≠ g.entry := fun hbe => hne ((eq_entry (hbe ▸ (ht.above hb).1 hab)).trans hbe.symm)
  have := ht.depth_le (ht.reaches_parent hp) (hab.of_ne hne hp)
  have := ht.depth_parent hp hbe
  omega

theorem exists_above_of_depth (hb : g.Reaches b) {n : Nat} (hn : n ≤ t.depth b) :
    ∃ a, Above t.idoms.parent? a b ∧ t.depth a = n := by
  revert hn
  refine ht.induct (fun hn => ⟨g.entry, .refl, ?_⟩) (fun {b p} hp hbe _ ih hn => ?_) b hb
  · have := ht.depth_entry
    omega
  · have hdepth := ht.depth_parent hp hbe
    by_cases heq : t.depth b = n
    · exact ⟨b, .refl, heq⟩
    · obtain ⟨a, ha, hna⟩ := ih (by omega)
      exact ⟨a, .step hp ha, hna⟩

theorem climb_depth_eq_some (hb : g.Reaches b) (n : Nat) :
    ∃ c, t.idoms.climb (t.depth · ≤ n) b = some c ∧ t.depth c = min n (t.depth b) ∧
      Above t.idoms.parent? c b ∧ ∀ d, Above t.idoms.parent? d b → t.depth d ≤ n → Above t.idoms.parent? d c := by
  obtain ⟨a, hab, hda⟩ := ht.exists_above_of_depth hb (Nat.min_le_right n (t.depth b))
  have hstop : decide (t.depth a ≤ n) = true := decide_eq_true (by omega)
  obtain ⟨c, hc, hstop', hcb, hfirst⟩ := Idoms.climb_eq_some (fun b => t.depth b ≤ n) hab hstop
  have hcn : t.depth c ≤ n := of_decide_eq_true hstop'
  have hcr : g.Reaches c := ((ht.above hb).1 hcb).reaches hb
  have hac := ht.depth_le hcr (hfirst a hab hstop)
  have hcb' := ht.depth_le hb hcb
  exact ⟨c, hc, by omega, hcb, fun d hd hdn => hfirst d hd (decide_eq_true hdn)⟩

theorem depth_eq_zero (hb : g.Reaches b) (hdepth : t.depth b = 0) : b = g.entry := by
  by_contra hbe
  obtain ⟨p, hp⟩ := ht.exists_parent hb
  have := ht.depth_parent hp hbe
  omega

theorem above_parent (ha : g.Reaches a) (hab : a ≠ b) (hdepth : t.depth a = t.depth b) {d : BlockId}
    (hda : Above t.idoms.parent? d a) (hdb : Above t.idoms.parent? d b) (hp : t.idoms.parent? b = some p) :
    Above t.idoms.parent? d p := by
  refine hdb.of_ne ?_ hp
  rintro rfl
  have := ht.depth_lt ha hda (Ne.symm hab)
  omega

theorem exists_parents (ha : g.Reaches a) (hb : g.Reaches b) (hab : a ≠ b) (hdepth : t.depth a = t.depth b) :
    ∃ p q, t.idoms.parent? a = some p ∧ t.idoms.parent? b = some q ∧
      t.depth p + t.depth q < t.depth a + t.depth b := by
  have hae : a ≠ g.entry := by
    rintro rfl
    exact hab (ht.depth_eq_zero hb (hdepth ▸ ht.depth_entry)).symm
  have hbe : b ≠ g.entry := by
    rintro rfl
    exact hab (ht.depth_eq_zero ha (hdepth.trans ht.depth_entry))
  obtain ⟨p, hp⟩ := ht.exists_parent ha
  obtain ⟨q, hq⟩ := ht.exists_parent hb
  have := ht.depth_parent hp hae
  have := ht.depth_parent hq hbe
  exact ⟨p, q, hp, hq, by omega⟩

theorem commonDominator_eq_some (ha : g.Reaches a) (hb : g.Reaches b) :
    ∃ c, t.commonDominator a b = some c ∧ Nearest (Above t.idoms.parent?) (fun d => d = a ∨ d = b) c := by
  induction hk : t.depth a + t.depth b using Nat.strongRecOn generalizing a b with
  | ind k ih =>
      rw [commonDominator]
      by_cases hab : a = b
      · subst hab
        exact ⟨a, by rw [if_pos rfl], Above.nearest_self _ a⟩
      · obtain ⟨a', ha', hdepthA, haboveA, hfirstA⟩ := ht.climb_depth_eq_some ha (t.depth b)
        obtain ⟨b', hb', hdepthB, haboveB, hfirstB⟩ := ht.climb_depth_eq_some hb (t.depth a')
        have hra : g.Reaches a' := ((ht.above ha).1 haboveA).reaches ha
        have hrb : g.Reaches b' := ((ht.above hb).1 haboveB).reaches hb
        have hclimbed : ∀ d, Above t.idoms.parent? d a → Above t.idoms.parent? d b →
            Above t.idoms.parent? d a' ∧ Above t.idoms.parent? d b' := fun d hda hdb =>
          have hda' := hfirstA d hda (ht.depth_le hb hdb)
          ⟨hda', hfirstB d hdb (ht.depth_le hra hda')⟩
        rw [if_neg hab, ha', Option.bind_eq_bind, Option.bind_some, hb', Option.bind_some]
        by_cases heq : a' = b'
        · subst heq
          rw [if_pos rfl, commonDominator, if_pos rfl]
          exact ⟨a', rfl, Above.nearest_below haboveA haboveB hclimbed (Above.nearest_self _ a')⟩
        · have hdepth : t.depth a' = t.depth b' := by omega
          obtain ⟨p, q, hp, hq, hlt⟩ := ht.exists_parents hra hrb heq hdepth
          obtain ⟨c, hc, hnear⟩ := ih (t.depth p + t.depth q) (by omega) (ht.reaches_parent hp)
            (ht.reaches_parent hq) rfl
          rw [if_neg heq, hp, Option.bind_some, hq, Option.bind_some]
          refine ⟨c, hc, Above.nearest_below haboveA haboveB hclimbed ?_⟩
          refine Above.nearest_below (.step hp .refl) (.step hq .refl) (fun d hda hdb => ?_) hnear
          exact ⟨ht.above_parent hrb (Ne.symm heq) hdepth.symm hdb hda hp, ht.above_parent hra heq hdepth hda hdb hq⟩

theorem nearest_commonDominator (ha : g.Reaches a) (hb : g.Reaches b) :
    ∃ c, t.commonDominator a b = some c ∧ g.Reaches c ∧ Nearest g.Dominates (fun d => d = a ∨ d = b) c := by
  obtain ⟨c, hc, hnear⟩ := ht.commonDominator_eq_some ha hb
  have hca : g.Dominates c a := (ht.above ha).1 (hnear.over_all a (.inl rfl))
  have hcr := hca.reaches ha
  refine ⟨c, hc, hcr, ?_, fun d hd => (ht.above hcr).1 (hnear.of_over_all d ?_)⟩
  · rintro d (rfl | rfl)
    · exact hca
    · exact (ht.above hb).1 (hnear.over_all _ (.inr rfl))
  · rintro e (rfl | rfl)
    · exact (ht.above ha).2 (hd _ (.inl rfl))
    · exact (ht.above hb).2 (hd _ (.inr rfl))

omit ht in
theorem parent?_ne_none_of_climb {idoms : Idoms} {stop : BlockId → Bool} (h : idoms.climb stop b = some c)
    (hne : c ≠ b) : idoms.parent? b ≠ none := by
  rw [Idoms.climb] at h
  split at h
  · cases h
    exact absurd rfl hne
  · obtain ⟨p, hp, -⟩ := Option.bind_eq_some_iff.1 h
    simp [hp]

theorem reaches_of_commonDominator (h : t.commonDominator a b = some c) (hne : a ≠ b) : g.Reaches a ∧ g.Reaches b := by
  rw [commonDominator, if_neg hne] at h
  obtain ⟨a', ha', h⟩ := Option.bind_eq_some_iff.1 h
  obtain ⟨b', hb', h⟩ := Option.bind_eq_some_iff.1 h
  have hup : ∀ {x x' : BlockId} {stop : BlockId → Bool}, t.idoms.climb stop x = some x' →
      g.Reaches x' → g.Reaches x := by
    intro x x' stop hx hx'
    by_cases heq : x' = x
    · exact heq ▸ hx'
    · exact (ht.known x).1 (parent?_ne_none_of_climb hx heq)
  have hdown : ∀ {x x' : BlockId} {stop : BlockId → Bool}, t.idoms.climb stop x = some x' →
      g.Reaches x → g.Reaches x' :=
    fun hx hr => Idoms.climb_induct (fun _ _ hp _ => ht.reaches_parent hp) hx hr
  split at h
  · rename_i heq
    subst heq
    by_cases hax : a' = a
    · have hb : g.Reaches b := (ht.known b).1 (parent?_ne_none_of_climb hb' (hax ▸ hne))
      exact ⟨hup ha' (hdown hb' hb), hb⟩
    · have ha : g.Reaches a := (ht.known a).1 (parent?_ne_none_of_climb ha' hax)
      exact ⟨ha, hup hb' (hdown ha' ha)⟩
  · obtain ⟨p, hp, h⟩ := Option.bind_eq_some_iff.1 h
    obtain ⟨q, hq, -⟩ := Option.bind_eq_some_iff.1 h
    exact ⟨hup ha' ((ht.known a').1 (by simp [hp])), hup hb' ((ht.known b').1 (by simp [hq]))⟩

theorem nearest_of_commonDominator (h : t.commonDominator a b = some c) :
    (c = a ∨ g.Reaches c) ∧ Nearest g.Dominates (fun d => d = a ∨ d = b) c := by
  by_cases hab : a = b
  · rw [commonDominator, if_pos hab] at h
    cases h
    subst hab
    refine ⟨.inl rfl, ?_, fun d hd => hd a (.inl rfl)⟩
    rintro d (rfl | rfl) <;> exact Flow.dominates_refl _ _
  · obtain ⟨ha, hb⟩ := ht.reaches_of_commonDominator h hab
    obtain ⟨c', hc', hcr, hnear⟩ := ht.nearest_commonDominator ha hb
    cases h.symm.trans hc'
    exact ⟨.inr hcr, hnear⟩

theorem nearest_joinAll? {bs : List BlockId} (hbs : ∀ b ∈ bs, g.Reaches b) (hne : bs ≠ []) :
    ∃ c, joinAll? t.commonDominator bs = some (some c) ∧ g.Reaches c ∧ Nearest g.Dominates (· ∈ bs) c := by
  obtain ⟨b, bs, rfl⟩ := List.exists_cons_of_ne_nil hne
  obtain ⟨c, hc, hcr, hnear⟩ := nearest_foldlM (P := g.Reaches)
    (Flow.dominates_refl g.flow) Flow.Dominates.trans ht.nearest_commonDominator (hbs b List.mem_cons_self)
    fun c hc => hbs c (List.mem_cons_of_mem _ hc)
  refine ⟨c, ?_, hcr, hnear⟩
  rw [joinAll?, hc]
  rfl

end Reflects

end DominatorTree

theorem Nearest.unique {P : BlockId → Prop} {c c' : BlockId} (h : Nearest g.Dominates P c)
    (h' : Nearest g.Dominates P c') (hc : g.Reaches c) : c' = c :=
  Dominates.eq_of_dominates (h.of_over_all c' h'.over_all) (h'.of_over_all c h.over_all) hc

theorem Graph.ImmediatelyDominates.unique {d d' : BlockId} (h : g.ImmediatelyDominates d b)
    (h' : g.ImmediatelyDominates d' b) (hb : g.Reaches b) : d' = d :=
  Dominates.eq_of_dominates (h.nearest d' h'.ne h'.dominates) (h'.nearest d h.ne h.dominates) (h.dominates.reaches hb)

theorem Graph.closed_of_terminator (h : ∀ b, g.Reaches b → ∃ n, g.terminator b = .ok n) : g.Closed := by
  intro b hb
  obtain ⟨n, hn⟩ := h b hb
  rw [terminator] at hn
  by_contra hge
  rw [Array.getElem?_eq_none (Nat.le_of_not_lt hge)] at hn
  cases hn

/-- Where the blocks that the entry leads to are terminated, the dominators are computed, and they are what the paths
say: dominance, the immediate dominator, the depth and the common dominator. -/
theorem DominatorTree.compute_reflects_paths (h : ∀ b, g.Reaches b → ∃ n, g.terminator b = .ok n) :
    ∃ t, compute g = some t ∧ ∀ b, g.Reaches b →
      (∀ a, ∃ answer, t.dominates a b = some answer ∧
        (answer = true ↔ ∀ visited, g.flow.Path visited b → a ∈ visited)) ∧
      (b ≠ g.entry → ∃ d, t.immediateDominator? b = some d ∧ ∀ d', g.ImmediatelyDominates d' b ↔ d' = d) ∧
      (∃ ds : List BlockId, ds.Nodup ∧ (∀ a, a ∈ ds ↔ a ≠ b ∧ g.Dominates a b) ∧ ds.length = t.depth b) ∧
      ∀ a, g.Reaches a → ∃ c, t.commonDominator a b = some c ∧
        ∀ c', Nearest g.Dominates (fun d => d = a ∨ d = b) c' ↔ c' = c := by
  obtain ⟨t, hcompute, ht⟩ := compute_eq_some (closed_of_terminator h)
  refine ⟨t, hcompute, fun b hb => ⟨ht.dominates_eq_some hb, fun hbe => ?_, ht.exists_strictDominators hb,
    fun a ha => ?_⟩⟩
  · obtain ⟨d, hd, himmediate⟩ := ht.immediateDominator?_eq_some hb hbe
    exact ⟨d, hd, fun d' => ⟨fun h' => himmediate.unique h' hb, fun heq => heq ▸ himmediate⟩⟩
  · obtain ⟨c, hc, hcr, hnear⟩ := ht.nearest_commonDominator ha hb
    exact ⟨c, hc, fun c' => ⟨fun h' => hnear.unique h' hcr, fun heq => heq ▸ hnear⟩⟩

namespace Example

def tangler : Method := ⟨"zoo/Knot", "tangle", ⟨[.int], .int⟩, { isStatic := true }, true⟩

/-- A region that is entered at two of its blocks, a branch to one block twice, and a way back to the entry. -/
def tangled : Builder :=
  let int : Ty := .integer .signed 4
  Request.applyAll (.start tangler) [.newBlock "left", .newBlock "right", .newBlock "again", .newBlock "exit",
    .parameter 0 int, .intLiteral int 0, .cmp .lt 5 6, .ifThenElse 7 1 2,
    .begin 1, .ifThenElse 7 2 2,
    .begin 2, .phi int, .binary .add 5 5, .binary .mul 11 5, .addPhiInput 10 0 11, .addPhiInput 10 1 12,
    .cmp .lt 10 5, .ifThenElse 13 1 3,
    .begin 3, .ifThenElse 13 0 4,
    .begin 4, .binary .add 10 11, .neg 16, .returnValue 16]

theorem tangled_built : Builder.Built tangler tangled := .applyAll .start _

theorem tangled_finish : tangled.finish = .ok tangled.graph := Builder.finish_of_matches (by cbv)

theorem mem_reachable_tangled {b : BlockId} : tangled.graph.Reaches b ↔ b ∈ [0, 1, 2, 3, 4] := by
  have hreachable : tangled.graph.reachable = [0, 1, 2, 3, 4] := by cbv
  rw [← Graph.mem_reachable (tangled_built.wellFormed tangled_finish), hreachable]

theorem compute_reflects_paths_of_tangled :
    (∀ b, tangled.graph.Reaches b → ∃ n, tangled.graph.terminator b = .ok n) ∧
    ∃ t, DominatorTree.compute tangled.graph = some t ∧
      t.immediateDominator? 1 = some 0 ∧ tangled.graph.ImmediatelyDominates 0 1 ∧
      t.depth 4 = 3 ∧ t.commonDominator 1 4 = some 0 ∧
      t.dominates 3 4 = some true ∧ (∀ visited, tangled.graph.flow.Path visited 4 → 3 ∈ visited) ∧
      t.dominates 1 4 = some false ∧ ¬ ∀ visited, tangled.graph.flow.Path visited 4 → 1 ∈ visited := by
  have hterm : ∀ b, tangled.graph.Reaches b → ∃ n, tangled.graph.terminator b = .ok n := fun b hb =>
    (Builder.finish_eq_ok tangled_finish).2 b ((Graph.mem_reachable (tangled_built.wellFormed tangled_finish)).2 hb)
  obtain ⟨t, ht, hall⟩ := DominatorTree.compute_reflects_paths hterm
  have hcompute : DominatorTree.compute tangled.graph =
      some ⟨0, #[some 0, some 0, some 0, some 2, some 3], #[0, 1, 1, 2, 3]⟩ := by cbv
  cases ht.symm.trans hcompute
  obtain ⟨hdominates, -⟩ := hall 4 (mem_reachable_tangled.2 (by decide))
  obtain ⟨-, himmediate, -⟩ := hall 1 (mem_reachable_tangled.2 (by decide))
  refine ⟨hterm, _, ht, by cbv, ?_, by cbv, by cbv, by cbv, ?_, by cbv, ?_⟩
  · obtain ⟨d, hd, hiff⟩ := himmediate (by cbv)
    cases hd.symm.trans (show DominatorTree.immediateDominator? _ 1 = some 0 by cbv)
    exact (hiff 0).2 rfl
  · obtain ⟨answer, hanswer, hiff⟩ := hdominates 3
    cases hanswer.symm.trans (show DominatorTree.dominates _ 3 4 = some true by cbv)
    exact hiff.1 rfl
  · obtain ⟨answer, hanswer, hiff⟩ := hdominates 1
    cases hanswer.symm.trans (show DominatorTree.dominates _ 1 4 = some false by cbv)
    exact fun h => Bool.noConfusion (hiff.2 h)

end Example

end NativeBackend
