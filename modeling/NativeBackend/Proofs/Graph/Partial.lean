import NativeBackend.Proofs.Graph.Ancestors
import NativeBackend.Proofs.Graph.Postorder

namespace NativeBackend

namespace Graph

variable {g : Graph} {a b c : BlockId}

/-- Control gets from a block to another through blocks with numbers below a bound. -/
inductive Under (g : Graph) (number : BlockId → Nat) (bound : Nat) (a : BlockId) : BlockId → Prop where
  | refl : Under g number bound a a
  | step {b c : BlockId} : Under g number bound a b → c ∈ g.successors b → number c < bound →
      Under g number bound a c

namespace Under

variable {number : BlockId → Nat} {bound bound' : Nat}

theorem trans (hab : Under g number bound a b) (hbc : Under g number bound b c) : Under g number bound a c := by
  induction hbc with
  | refl => exact hab
  | step _ hmem hlt ih => exact .step ih hmem hlt

theorem mono (h : Under g number bound a b) (hle : bound ≤ bound') : Under g number bound' a b := by
  induction h with
  | refl => exact .refl
  | step _ hmem hlt ih => exact .step ih hmem (Nat.lt_of_lt_of_le hlt hle)

theorem dominates (h : Under g number bound a b) (hc : bound ≤ number c) (hcb : g.Dominates c b) :
    g.Dominates c a := by
  induction h with
  | refl => exact hcb
  | @step b d _ hmem hlt ih =>
      have hne : c ≠ d := by
        rintro rfl
        omega
      exact ih (Flow.Dominates.of_next hcb hne hmem)

end Under

/-- What a partial assignment of dominators says while a round is at the block with number `k`. It may still miss
paths, but no dominator: what dominates a block is above it. -/
structure Partial (g : Graph) (order : List BlockId) (up : BlockId → Option BlockId) (k : Nat) : Prop where
  postorder : g.Postorder order
  up_entry : up g.entry = some g.entry
  mem : ∀ {b}, up b ≠ none → b ∈ order
  up_up : ∀ {b p}, up b = some p → up p ≠ none
  lt : ∀ {b p}, up b = some p → b ≠ g.entry → order.idxOf b < order.idxOf p
  under : ∀ {b p}, up b = some p → b ≠ g.entry → g.Under order.idxOf (order.idxOf p) p b
  above : ∀ {a b}, up b ≠ none → g.Dominates a b → Above up a b
  above_of_predecessors : ∀ {a b}, up b ≠ none → b ≠ g.entry →
    (∀ p, b ∈ g.successors p → up p ≠ none → Above up a p) → Above up a b
  predecessor : ∀ {b}, up b ≠ none → b ≠ g.entry → ∃ p, b ∈ g.successors p ∧ up p ≠ none ∧
    order.idxOf b < order.idxOf p ∧
      ∀ a, Above up a b → a ≠ b → (order.idxOf a < k ∨ k ≤ order.idxOf b) → Above up a p
  known : ∀ {b}, b ∈ order → k ≤ order.idxOf b → up b ≠ none

namespace Partial

variable {order : List BlockId} {up up' : BlockId → Option BlockId} {k : Nat} {x d : BlockId}

theorem rises (h : Partial g order up k) : Rises order.idxOf up g.entry where
  up_top := h.up_entry
  up_up := h.up_up
  lt := h.lt
  le_top hb := h.postorder.idxOf_le_entry (h.mem hb)
  inj ha heq := (List.idxOf_inj (h.mem ha)).1 heq

/-- Control gets to a block from the blocks above it through blocks with smaller numbers. -/
theorem under_of_above (h : Partial g order up k) (hab : Above up a b) :
    g.Under order.idxOf (order.idxOf a) a b := by
  induction hab with
  | refl => exact .refl
  | @step b c hup hac ih =>
      by_cases hb : b = g.entry
      · rw [hb, h.up_entry] at hup
        cases hup
        exact hb ▸ ih
      · exact ih.trans ((h.under hup hb).mono (h.rises.number_le hac))

theorem start (hp : g.Postorder order) (hentry : up g.entry = some g.entry)
    (hnone : ∀ b, b ≠ g.entry → up b = none) : Partial g order up order.length := by
  have honly : ∀ {b}, up b ≠ none → b = g.entry := fun hb => by
    by_contra hne
    exact hb (hnone _ hne)
  refine
    { postorder := hp, up_entry := hentry
      mem := fun hb => honly hb ▸ hp.entry_mem
      up_up := fun {b p} hup => ?_
      lt := fun {b p} hup hne => ?_
      under := fun {b p} hup hne => ?_
      above := fun {a b} hb hab => ?_
      above_of_predecessors := fun hb hne => absurd (honly hb) hne
      predecessor := fun hb hne => absurd (honly hb) hne
      known := fun hb hle => ?_ }
  · have hb : b = g.entry := honly (by simp [hup])
    rw [hb, hentry] at hup
    cases hup
    simp [hentry]
  · exact absurd (honly (by simp [hup])) hne
  · exact absurd (honly (by simp [hup])) hne
  · have hb := honly hb
    subst hb
    rw [List.mem_singleton.1 (hab _ .start)]
    exact .refl
  · have := List.idxOf_lt_length_of_mem hb
    omega

theorem restart (h : Partial g order up 0) : Partial g order up order.length :=
  { h with
    predecessor := fun hb hne => by
      obtain ⟨p, hmem, hp, hlt, habove⟩ := h.predecessor hb hne
      exact ⟨p, hmem, hp, hlt, fun a hab hne _ => habove a hab hne (.inr (Nat.zero_le _))⟩
    known := fun hb _ => h.known hb (Nat.zero_le _) }

theorem skip_entry (h : Partial g order up (k + 1)) (hk : order.idxOf g.entry = k) : Partial g order up k := by
  have hle : ∀ {b}, b ∈ order → k ≤ order.idxOf b → b = g.entry := fun hb hle =>
    (List.idxOf_inj hb).1 (Nat.le_antisymm (h.postorder.idxOf_le_entry hb) (hk ▸ hle))
  refine
    { h with
      predecessor := fun hb hne => ?_
      known := fun hb hk' => ?_ }
  · obtain ⟨p, hmem, hp, hlt, habove⟩ := h.predecessor hb hne
    refine ⟨p, hmem, hp, hlt, fun a hab hne' hor => habove a hab hne' (.inl ?_)⟩
    rcases hor with hor | hor
    · omega
    · exact absurd (hle (h.mem hb) hor) hne
  · rw [hle hb hk', h.up_entry]
    exact Option.some_ne_none _

end Partial

structure Relaxed (g : Graph) (up up' : BlockId → Option BlockId) (x d : BlockId) : Prop where
  eq : up' x = some d
  off : ∀ b, b ≠ x → up' b = up b
  known : up d ≠ none
  nearest : Nearest (Above up) (fun p => x ∈ g.successors p ∧ up p ≠ none) d

namespace Relaxed

variable {order : List BlockId} {up up' : BlockId → Option BlockId} {x d : BlockId}

theorem ne_none (hr : Relaxed g up up' x d) (hb : up b ≠ none) : up' b ≠ none := by
  by_cases hbx : b = x
  · rw [hbx, hr.eq]
    exact Option.some_ne_none d
  · rwa [hr.off b hbx]

theorem known_old (hr : Relaxed g up up' x d) (hb : up' b ≠ none) (hbx : b ≠ x) : up b ≠ none := by
  rwa [hr.off b hbx] at hb

variable (hx : x ∈ order) (hne : x ≠ g.entry) (h : Partial g order up (order.idxOf x + 1))
  (hr : Relaxed g up up' x d)

include hx hne h in
theorem exists_predecessor : ∃ p, x ∈ g.successors p ∧ up p ≠ none ∧ order.idxOf x < order.idxOf p := by
  obtain ⟨p, hp, hxp, hlt⟩ := h.postorder.parent x hx hne
  exact ⟨p, hxp, h.known hp hlt, hlt⟩

include hx hne h hr in
theorem lt : order.idxOf x < order.idxOf d := by
  obtain ⟨p, hxp, hp, hlt⟩ := exists_predecessor hx hne h
  have := h.rises.number_le (hr.nearest.over_all p ⟨hxp, hp⟩)
  omega

include hne h hr in
theorem above_old (hup : up x ≠ none) : Above up d x :=
  h.above_of_predecessors hup hne fun p hxp hp => hr.nearest.over_all p ⟨hxp, hp⟩

include hne h hr in
theorem above_of_new (hab : Above up' a b) (hb : up b ≠ none) : Above up a b := by
  induction hab with
  | refl => exact .refl
  | @step b c hup _ ih =>
      by_cases hbx : b = x
      · subst hbx
        rw [hr.eq] at hup
        cases hup
        exact (ih hr.known).trans (above_old hne h hr hb)
      · rw [hr.off b hbx] at hup
        exact .step hup (ih (h.up_up hup))

include hr in
theorem keep_apart (hab : Above up a b) (hxb : ¬ Above up x b) : Above up' a b := by
  induction hab with
  | refl => exact .refl
  | @step b c hup _ ih =>
      have hbx : b ≠ x := by
        rintro rfl
        exact hxb .refl
      exact .step ((hr.off b hbx).trans hup) (ih fun hxc => hxb (.step hup hxc))

include h hr in
theorem keep_low (hab : Above up a b) (hle : order.idxOf a ≤ order.idxOf x) : Above up' a b := by
  induction hab with
  | refl => exact .refl
  | @step b c hup hac ih =>
      by_cases hbx : b = x
      · subst hbx
        by_cases hab : a = b
        · rw [hab]
          exact .refl
        · have := h.rises.number_lt (.step hup hac) hab
          omega
      · exact .step ((hr.off b hbx).trans hup) ih

include h hr in
theorem keep_high (hab : Above up a b) (hlt : order.idxOf x < order.idxOf b) : Above up' a b := by
  refine keep_apart hr hab fun hxb => ?_
  have := h.rises.number_le hxb
  omega

include hx hne h hr in
theorem above_new (had : Above up a d) : Above up' a x := .step hr.eq (keep_high h hr had (lt hx hne h hr))

include hx hne h hr in
theorem above_of_dominates (hb : up' b ≠ none) (hab : g.Dominates a b) : Above up' a b := by
  have hchanged : g.Dominates a x → Above up' a x := by
    intro hax
    by_cases hax' : a = x
    · rw [hax']
      exact .refl
    · refine above_new hx hne h hr (hr.nearest.of_over_all a ?_)
      rintro p ⟨hxp, hp⟩
      exact h.above hp (Flow.Dominates.of_next hax hax' hxp)
  by_cases hbx : b = x
  · rw [hbx] at hab ⊢
    exact hchanged hab
  · have habove := h.above (hr.known_old hb hbx) hab
    by_cases hle : order.idxOf a ≤ order.idxOf x
    · exact keep_low h hr habove hle
    · by_cases hxb : Above up x b
      · have hax := (h.under_of_above hxb).dominates (by omega) hab
        exact (hchanged hax).trans (keep_low h hr hxb (Nat.le_refl _))
      · exact keep_apart hr habove hxb

include hx hne h hr in
theorem above_of_predecessors (hb : up' b ≠ none) (hbe : b ≠ g.entry)
    (hall : ∀ p, b ∈ g.successors p → up' p ≠ none → Above up' a p) : Above up' a b := by
  have hold : ∀ p, b ∈ g.successors p → up p ≠ none → Above up a p := fun p hbp hp =>
    above_of_new hne h hr (hall p hbp (hr.ne_none hp)) hp
  by_cases hbx : b = x
  · rw [hbx] at hold ⊢
    exact above_new hx hne h hr (hr.nearest.of_over_all a fun p hp => hold p hp.1 hp.2)
  · have hb' := hr.known_old hb hbx
    have habove := h.above_of_predecessors hb' hbe hold
    by_cases hle : order.idxOf a ≤ order.idxOf x
    · exact keep_low h hr habove hle
    · by_cases hxb : Above up x b
      · -- `x` is above a predecessor of `b`, and so is `a`, further up
        obtain ⟨p, hbp, hp, -, hpb⟩ := h.predecessor hb' hbe
        have hxp := keep_low h hr (hpb x hxb (Ne.symm hbx) (.inl (Nat.lt_succ_self _))) (Nat.le_refl _)
        rcases (hall p hbp (hr.ne_none hp)).total hxp with hax | hxa
        · exact hax.trans (keep_low h hr hxb (Nat.le_refl _))
        · have := h.rises.number_le (above_of_new hne h hr hxa (h.rises.known habove hb'))
          omega
      · exact keep_apart hr habove hxb

include hx hne h hr in
theorem predecessor (hb : up' b ≠ none) (hbe : b ≠ g.entry) : ∃ p, b ∈ g.successors p ∧ up' p ≠ none ∧
    order.idxOf b < order.idxOf p ∧ ∀ a, Above up' a b → a ≠ b →
      (order.idxOf a < order.idxOf x ∨ order.idxOf x ≤ order.idxOf b) → Above up' a p := by
  by_cases hbx : b = x
  · subst hbx
    obtain ⟨p, hbp, hp, hlt⟩ := exists_predecessor hx hne h
    refine ⟨p, hbp, hr.ne_none hp, hlt, fun a hab hab' _ => ?_⟩
    have had : Above up a d := above_of_new hne h hr (hab.of_ne hab' hr.eq) hr.known
    exact keep_high h hr (had.trans (hr.nearest.over_all p ⟨hbp, hp⟩)) hlt
  · have hb' := hr.known_old hb hbx
    obtain ⟨p, hbp, hp, hlt, hpb⟩ := h.predecessor hb' hbe
    have hidx : order.idxOf b ≠ order.idxOf x := fun heq => hbx ((List.idxOf_inj (h.mem hb')).1 heq)
    refine ⟨p, hbp, hr.ne_none hp, hlt, fun a hab hab' hor => ?_⟩
    have hap : Above up a p := hpb a (above_of_new hne h hr hab hb') hab' (by omega)
    by_cases hle : order.idxOf a ≤ order.idxOf x
    · exact keep_low h hr hap hle
    · exact keep_high h hr hap (by omega)

include hx hne h hr in
/-- Setting one block again keeps everything, and the round goes on. -/
theorem preserves : Partial g order up' (order.idxOf x) := by
  refine
    { postorder := h.postorder
      up_entry := (hr.off _ (Ne.symm hne)).trans h.up_entry
      mem := fun {b} hb => ?_
      up_up := fun {b p} hup => ?_
      lt := fun {b p} hup hb => ?_
      under := fun {b p} hup hb => ?_
      above := above_of_dominates hx hne h hr
      above_of_predecessors := above_of_predecessors hx hne h hr
      predecessor := predecessor hx hne h hr
      known := fun {b} hb hle => ?_ }
  · by_cases hbx : b = x
    · rwa [hbx]
    · exact h.mem (hr.known_old hb hbx)
  · by_cases hbx : b = x
    · rw [hbx, hr.eq] at hup
      cases hup
      exact hr.ne_none hr.known
    · rw [hr.off b hbx] at hup
      exact hr.ne_none (h.up_up hup)
  · by_cases hbx : b = x
    · rw [hbx, hr.eq] at hup
      cases hup
      exact hbx ▸ lt hx hne h hr
    · rw [hr.off b hbx] at hup
      exact h.lt hup hb
  · by_cases hbx : b = x
    · rw [hbx, hr.eq] at hup
      cases hup
      obtain ⟨p, hxp, hp, -⟩ := exists_predecessor hx hne h
      rw [hbx]
      exact .step (h.under_of_above (hr.nearest.over_all p ⟨hxp, hp⟩)) hxp (lt hx hne h hr)
    · rw [hr.off b hbx] at hup
      exact h.under hup hb
  · by_cases hbx : b = x
    · rw [hbx, hr.eq]
      exact Option.some_ne_none d
    · have hidx : order.idxOf b ≠ order.idxOf x := fun heq => hbx ((List.idxOf_inj hb).1 heq)
      rw [hr.off b hbx]
      exact h.known hb (by omega)

end Relaxed

end Graph

end NativeBackend
