import NativeBackend.Proofs.Graph.Queries

namespace NativeBackend

namespace Schedule

variable {g : Graph} {s : Schedule} {p : Placement} {n u : NodeId} {b : BlockId} {us rest : List NodeId}

/-- A node on top of the stack is taken from it once its block and those of its users are known. -/
def Drains (g : Graph) (s : Schedule) (n : NodeId) : Prop :=
  ∀ p : Placement, p.Consistent g → ∀ rest, ∃ p' : Placement, drain g s (n :: rest) p = drain g s rest p' ∧
    p'.Consistent g ∧ p.Later g p' ∧ p'.blockOf? n ≠ none

def Answers (g : Graph) (s : Schedule) (n : NodeId) : Prop :=
  ∀ p : Placement, p.Consistent g → ∃ b p', blockForNode g s n p = some (.ok b, p') ∧
    p'.Consistent g ∧ p.Later g p' ∧ p'.blockOf? n = some b

theorem drain_of_known (hn : p.blockOf? n ≠ none) : drain g s (n :: rest) p = drain g s rest p := by
  rw [drain, if_pos (Option.isSome_iff_ne_none.2 hn)]

theorem drain_of_place (hn : n < g.nodes.size) (hp : p.Consistent g) (hnone : p.blockOf? n = none)
    (hpending : s.pendingUsers n p = []) {p₁ : Placement} (hplace : place g s n p = some (.ok b, p₁))
    (hp₁ : p₁.Consistent g) (hlater : p.Later g p₁) (hb : p₁.Suits g n b) (rest : List NodeId) :
    ∃ p' : Placement, drain g s (n :: rest) p = drain g s rest p' ∧ p'.Consistent g ∧ p.Later g p' ∧
      p'.blockOf? n ≠ none := by
  have hsize : n < p₁.size := hp₁.size ▸ hn
  refine ⟨p₁.setIfInBounds n (some b), ?_, hp₁.setIfInBounds (hp.pinned?_eq_none hnone) hb,
    hlater.trans (Placement.later_setIfInBounds hsize b hb.unknown),
    Placement.blockOf?_setIfInBounds_ne_none hsize b⟩
  rw [drain, if_neg (by simp [hnone]), hpending]
  simp only [hplace, Option.bind_eq_bind, Option.bind_some]

theorem drain_of_pending (hn : p.blockOf? n = none) (hpending : s.pendingUsers n p ≠ []) :
    drain g s (n :: rest) p = drain g s ((s.pendingUsers n p).reverse ++ n :: rest) p := by
  obtain ⟨u, us, hus⟩ := List.exists_cons_of_ne_nil hpending
  rw [drain, if_neg (by simp [hn]), hus]

theorem answers_of_drains (hn : Drains g s n) : Answers g s n := by
  intro p hp
  rw [blockForNode]
  cases hb : p.blockOf? n with
  | some b => exact ⟨b, p, rfl, hp, .refl g p, hb⟩
  | none =>
      obtain ⟨p', hdrain, hp', hlater, hknown⟩ := hn p hp []
      obtain ⟨b, hb'⟩ := Option.ne_none_iff_exists'.1 hknown
      refine ⟨b, p', ?_, hp', hlater, hb'⟩
      simp only [hdrain, drain, Option.bind_eq_bind, Option.bind_some, hb', Option.pure_def]

theorem drains_append (hus : ∀ u ∈ us, g.Needed u ∧ Drains g s u) (hp : p.Consistent g) (rest : List NodeId) :
    ∃ p' : Placement, drain g s (us ++ rest) p = drain g s rest p' ∧ p'.Consistent g ∧ p.Later g p' ∧
      ∀ u ∈ us, p'.blockOf? u ≠ none := by
  induction us generalizing p with
  | nil => exact ⟨p, rfl, hp, .refl g p, fun u hu => nomatch hu⟩
  | cons u us ih =>
      obtain ⟨hneeded, hdrains⟩ := hus u List.mem_cons_self
      obtain ⟨p₁, hdrain₁, hp₁, hlater₁, hknown₁⟩ := hdrains p hp (us ++ rest)
      obtain ⟨p₂, hdrain₂, hp₂, hlater₂, hknown₂⟩ := ih (fun w hw => hus w (List.mem_cons_of_mem _ hw)) hp₁
      refine ⟨p₂, hdrain₁.trans hdrain₂, hp₂, hlater₁.trans hlater₂, ?_⟩
      exact List.forall_mem_cons.2 ⟨hlater₂.ne_none hneeded hknown₁, hknown₂⟩

section Prepared

variable (h : g.WellFormed) (hs : s.Prepared g)
  (hpinned : ∀ n b, g.Needed n → g.pinned? n = some b → g.Reaches b)

include h hs hpinned in
/-- A needed floating node whose users are known is placed in the nearest block that dominates all uses. -/
theorem place_eq_some (hp : p.Consistent g) (hn : g.Needed n) (hfloat : g.pinned? n = none)
    (husers : ∀ u, g.Needed u → n ∈ g.inputs u → p.blockOf? u ≠ none) :
    ∃ b, place g s n p = some (.ok b, p) ∧ g.Reaches b ∧ Nearest g.Dominates (p.UseAt g n) b := by
  obtain ⟨blocks, hblocks⟩ : ∃ blocks, (s.usesOf n).mapM (useBlock n p) = .ok blocks := by
    refine Steps.exists_mapM_eq_ok fun w hw => ?_
    cases w with
    | node u =>
        obtain ⟨hu, hin⟩ := (node_mem_usesOf hs).1 hw
        obtain ⟨c, hc⟩ := Option.ne_none_iff_exists'.1 (husers u hu hin)
        exact ⟨c, by rw [useBlock, hc]⟩
    | phiInput c => exact ⟨c, rfl⟩
  have hmem : ∀ c, c ∈ blocks ↔ p.UseAt g n c := fun c => (Steps.mem_of_mapM_eq_ok hblocks).trans (mem_useBlock hs)
  have hreach : ∀ c ∈ blocks, g.Reaches c := by
    intro c hc
    rcases (hmem c).1 hc with ⟨u, hu, -, hc⟩ | ⟨u, -, hin⟩
    · exact hp.reaches h hpinned hu hc
    · exact (Graph.mem_reachable h).1 (Graph.mem_phiInputs.1 hin).1
  have hne : blocks ≠ [] := by
    rcases hn.exists_use h hfloat with ⟨u, hu, hin⟩ | ⟨c, u, hu, hin⟩
    · obtain ⟨c, hc⟩ := Option.ne_none_iff_exists'.1 (husers u hu hin)
      exact List.ne_nil_of_mem ((hmem c).2 (.inl ⟨u, hu, hin, hc⟩))
    · exact List.ne_nil_of_mem ((hmem c).2 (.inr ⟨u, hu, hin⟩))
  obtain ⟨b, hb, hreaches, hnear⟩ := hs.dominators.nearest_joinAll? hreach hne
  refine ⟨b, ?_, hreaches, hnear.congr hmem⟩
  rw [place, hblocks]
  simp only [hb, Option.bind_eq_bind, Option.bind_some, Option.pure_def]

include h hs hpinned in
theorem drain_of_users (hp : p.Consistent g) (hn : g.Needed n) (hnone : p.blockOf? n = none)
    (hpending : s.pendingUsers n p = []) (rest : List NodeId) :
    ∃ p' : Placement, drain g s (n :: rest) p = drain g s rest p' ∧ p'.Consistent g ∧ p.Later g p' ∧
      p'.blockOf? n ≠ none := by
  have husers : ∀ u, g.Needed u → n ∈ g.inputs u → p.blockOf? u ≠ none := by
    intro u hu hin hnone
    have := mem_pendingUsers.2 ⟨(node_mem_usesOf hs).2 ⟨hu, hin⟩, hnone⟩
    rw [hpending] at this
    cases this
  obtain ⟨b, hb, hreaches, hnear⟩ := place_eq_some h hs hpinned hp hn (hp.pinned?_eq_none hnone) husers
  exact drain_of_place (hn.lt h) hp hnone hpending hb hp (.refl g p)
    ⟨hreaches.lt h, fun _ => hnone, fun _ => husers, fun _ => hnear⟩ rest

include h hs hpinned in
/-- Needed nodes are placed by their users, which come after them. -/
theorem drains (hn : g.Needed n) : Drains g s n := by
  induction hk : g.nodes.size - n using Nat.strongRecOn generalizing n with
  | ind k ih =>
      have hlt := hn.lt h
      intro p hp rest
      by_cases hknown : p.blockOf? n = none
      · by_cases hpending : s.pendingUsers n p = []
        · exact drain_of_users h hs hpinned hp hn hknown hpending rest
        · have hus : ∀ u ∈ (s.pendingUsers n p).reverse, g.Needed u ∧ Drains g s u := by
            intro u hu
            obtain ⟨hneeded, hin⟩ := (node_mem_usesOf hs).1 (mem_pendingUsers.1 (List.mem_reverse.1 hu)).1
            exact ⟨hneeded, ih _ (hk ▸ Nat.sub_lt_sub_left hlt (Graph.input_lt h hin).1) hneeded rfl⟩
          obtain ⟨p₁, hdrain, hp₁, hlater, hknown₁⟩ := drains_append hus hp (n :: rest)
          have hpending₁ : s.pendingUsers n p₁ = [] := by
            refine List.eq_nil_iff_forall_not_mem.2 fun u hu => ?_
            obtain ⟨huse, hnone⟩ := mem_pendingUsers.1 hu
            cases hu' : p.blockOf? u with
            | none => exact hknown₁ u (List.mem_reverse.2 (mem_pendingUsers.2 ⟨huse, hu'⟩)) hnone
            | some c =>
                rw [hlater u c ((node_mem_usesOf hs).1 huse).1 hu'] at hnone
                cases hnone
          rw [drain_of_pending hknown hpending, hdrain]
          by_cases hn₁ : p₁.blockOf? n = none
          · obtain ⟨p₂, hdrain₂, hp₂, hlater₂, hknown₂⟩ := drain_of_users h hs hpinned hp₁ hn hn₁ hpending₁ rest
            exact ⟨p₂, hdrain₂, hp₂, hlater.trans hlater₂, hknown₂⟩
          · exact ⟨p₁, drain_of_known hn₁, hp₁, hlater, hn₁⟩
      · exact ⟨p, drain_of_known hknown, hp, .refl g p, hknown⟩

theorem placeEarly_eq_some {inputs : List NodeId} (hinputs : ∀ i ∈ inputs, Answers g s i) {best : BlockId}
    (hbest : best < g.blocks.size) (hp : p.Consistent g) :
    ∃ b p', placeEarly g s inputs best p = some (.ok b, p') ∧ b < g.blocks.size ∧ p'.Consistent g ∧ p.Later g p' := by
  induction inputs generalizing best p with
  | nil => exact ⟨best, p, by rw [placeEarly], hbest, hp, .refl g p⟩
  | cons i inputs ih =>
      obtain ⟨b, p₁, hquery, hp₁, hlater₁, hb⟩ := hinputs i List.mem_cons_self p hp
      have hbest' : (if s.dominators.depth best < s.dominators.depth b then b else best) < g.blocks.size := by
        split
        · exact hp₁.lt i b hb
        · exact hbest
      obtain ⟨c, p₂, hearly, hc, hp₂, hlater₂⟩ := ih (fun j hj => hinputs j (List.mem_cons_of_mem _ hj)) hbest' hp₁
      refine ⟨c, p₂, ?_, hc, hp₂, hlater₁.trans hlater₂⟩
      rw [placeEarly, hquery]
      exact hearly

include h hs hpinned in
theorem answers (hn : n < g.nodes.size) : Answers g s n := by
  induction n using Nat.strongRecOn with
  | ind n ih =>
      by_cases hneeded : g.Needed n
      · exact answers_of_drains (drains h hs hpinned hneeded)
      · refine answers_of_drains fun p hp rest => ?_
        have huses : s.usesOf n = [] := by
          refine List.eq_nil_iff_forall_not_mem.2 fun w hw => ?_
          obtain ⟨m, hm, hmw⟩ := (hs.mem_usesOf n w).1 hw
          rcases Graph.mem_usesBy.1 hmw with ⟨-, hin⟩ | ⟨b, -, hin⟩
          · exact hneeded (hm.input hin)
          · exact hneeded (hm.phiInput hin)
        by_cases hknown : p.blockOf? n = none
        · have hinputs : ∀ i ∈ g.inputs n, Answers g s i := by
            intro i hi
            have hlt := (Graph.input_lt h hi).1
            exact ih i hlt (Nat.lt_trans hlt hn)
          obtain ⟨b, p₁, hearly, hb, hp₁, hlater⟩ := placeEarly_eq_some hinputs h.entry hp
          have hplace : place g s n p = some (.ok b, p₁) := by
            rw [place, huses]
            exact hearly
          have hpending : s.pendingUsers n p = [] := by rw [pendingUsers, huses, List.filterMap_nil]
          exact drain_of_place hn hp hknown hpending hplace hp₁ hlater (.of_not_needed hb hneeded) rest
        · exact ⟨p, drain_of_known hknown, hp, .refl g p, hknown⟩

end Prepared

end Schedule

end NativeBackend
