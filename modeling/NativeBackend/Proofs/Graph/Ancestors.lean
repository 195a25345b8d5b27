import NativeBackend.Graph.Dominators

namespace NativeBackend

/-- `c` is over all of some blocks, and what is over all of them is over `c`. -/
structure Nearest (R : BlockId → BlockId → Prop) (P : BlockId → Prop) (c : BlockId) : Prop where
  over_all : ∀ b, P b → R c b
  of_over_all : ∀ d, (∀ b, P b → R d b) → R d c

theorem Nearest.congr {R : BlockId → BlockId → Prop} {P Q : BlockId → Prop} {c : BlockId}
    (h : Nearest R P c) (hPQ : ∀ b, P b ↔ Q b) : Nearest R Q c :=
  ⟨fun b hb => h.over_all b ((hPQ b).2 hb), fun d hd => h.of_over_all d fun b hb => hd b ((hPQ b).1 hb)⟩

section Join

variable {R : BlockId → BlockId → Prop} {P : BlockId → Prop} {f : BlockId → BlockId → Option BlockId}
  {b b' c d : BlockId} {bs : List BlockId}

theorem nearest_singleton (hrefl : ∀ a, R a a) (b : BlockId) : Nearest R (· ∈ [b]) b where
  over_all _ hd := List.mem_singleton.1 hd ▸ hrefl b
  of_over_all _ hd := hd b List.mem_cons_self

theorem Nearest.cons (htrans : ∀ {a b c}, R a b → R b c → R a c) (hpair : Nearest R (fun e => e = b ∨ e = b') d)
    (h : Nearest R (· ∈ d :: bs) c) : Nearest R (· ∈ b :: b' :: bs) c where
  over_all e he := by
    have hcd : R c d := h.over_all d List.mem_cons_self
    rcases List.mem_cons.1 he with rfl | he
    · exact htrans hcd (hpair.over_all _ (.inl rfl))
    · rcases List.mem_cons.1 he with rfl | he
      · exact htrans hcd (hpair.over_all _ (.inr rfl))
      · exact h.over_all e (List.mem_cons_of_mem _ he)
  of_over_all e he := by
    refine h.of_over_all e fun e' he' => ?_
    rcases List.mem_cons.1 he' with rfl | he'
    · refine hpair.of_over_all e ?_
      rintro e' (rfl | rfl)
      · exact he _ List.mem_cons_self
      · exact he _ (List.mem_cons_of_mem _ List.mem_cons_self)
    · exact he e' (List.mem_cons_of_mem _ (List.mem_cons_of_mem _ he'))

theorem nearest_foldlM (hrefl : ∀ a, R a a) (htrans : ∀ {a b c}, R a b → R b c → R a c)
    (hjoin : ∀ {a b}, P a → P b → ∃ c, f a b = some c ∧ P c ∧ Nearest R (fun d => d = a ∨ d = b) c)
    (hb : P b) (hbs : ∀ c ∈ bs, P c) :
    ∃ c, bs.foldlM f b = some c ∧ P c ∧ Nearest R (· ∈ b :: bs) c := by
  induction bs generalizing b with
  | nil => exact ⟨b, rfl, hb, nearest_singleton hrefl b⟩
  | cons b' bs ih =>
      obtain ⟨d, hd, hPd, hpair⟩ := hjoin hb (hbs b' List.mem_cons_self)
      obtain ⟨c, hc, hPc, hrest⟩ := ih hPd fun e he => hbs e (List.mem_cons_of_mem _ he)
      refine ⟨c, ?_, hPc, hpair.cons htrans hrest⟩
      rw [List.foldlM_cons, hd]
      exact hc

theorem nearest_of_joinAll? (hrefl : ∀ a, R a a) (htrans : ∀ {a b c}, R a b → R b c → R a c)
    (hjoin : ∀ {a b c}, P a → P b → f a b = some c → P c ∧ Nearest R (fun d => d = a ∨ d = b) c)
    (h : joinAll? f bs = some (some c)) (hbs : ∀ b ∈ bs, P b) : P c ∧ Nearest R (· ∈ bs) c := by
  cases bs with
  | nil => cases h
  | cons b bs =>
      obtain ⟨d, hd, heq⟩ := Option.map_eq_some_iff.1 h
      cases heq
      clear h
      induction bs generalizing b with
      | nil =>
          cases hd
          exact ⟨hbs _ List.mem_cons_self, nearest_singleton hrefl _⟩
      | cons b' bs ih =>
          obtain ⟨e, he, hd⟩ := Option.bind_eq_some_iff.1 hd
          obtain ⟨hPe, hpair⟩ :=
            hjoin (hbs b List.mem_cons_self) (hbs b' (List.mem_cons_of_mem _ List.mem_cons_self)) he
          obtain ⟨hPc, hrest⟩ := ih e (List.forall_mem_cons.2
            ⟨hPe, fun e' he' => hbs e' (List.mem_cons_of_mem _ (List.mem_cons_of_mem _ he'))⟩) hd
          exact ⟨hPc, hpair.cons htrans hrest⟩

end Join

/-- `a` is met on the way up from a block. -/
inductive Above (up : BlockId → Option BlockId) (a : BlockId) : BlockId → Prop where
  | refl : Above up a a
  | step {b c : BlockId} : up b = some c → Above up a c → Above up a b

namespace Above

variable {up : BlockId → Option BlockId} {a b c : BlockId}

theorem trans (hab : Above up a b) (hbc : Above up b c) : Above up a c := by
  induction hbc with
  | refl => exact hab
  | step hup _ ih => exact .step hup ih

theorem of_ne (h : Above up a b) (hne : a ≠ b) (hup : up b = some c) : Above up a c := by
  cases h with
  | refl => exact absurd rfl hne
  | step hup' h =>
      rw [hup] at hup'
      cases hup'
      exact h

theorem total (ha : Above up a c) (hb : Above up b c) : Above up a b ∨ Above up b a := by
  induction ha with
  | refl => exact .inr hb
  | step hup ha ih =>
      cases hb with
      | refl => exact .inl (.step hup ha)
      | step hup' hb =>
          rw [hup] at hup'
          cases hup'
          exact ih hb

theorem nearest_self (up : BlockId → Option BlockId) (a : BlockId) :
    Nearest (Above up) (fun c => c = a ∨ c = a) a where
  over_all := by rintro c (rfl | rfl) <;> exact .refl
  of_over_all d hd := hd a (.inl rfl)

theorem nearest_below {p q : BlockId} (hpa : Above up p a) (hqb : Above up q b)
    (hall : ∀ d, Above up d a → Above up d b → Above up d p ∧ Above up d q)
    (h : Nearest (Above up) (fun d => d = p ∨ d = q) c) : Nearest (Above up) (fun d => d = a ∨ d = b) c where
  over_all := by
    rintro d (rfl | rfl)
    · exact (h.over_all p (.inl rfl)).trans hpa
    · exact (h.over_all q (.inr rfl)).trans hqb
  of_over_all d hd := by
    obtain ⟨hp, hq⟩ := hall d (hd a (.inl rfl)) (hd b (.inr rfl))
    refine h.of_over_all d ?_
    rintro e (rfl | rfl) <;> assumption

end Above

theorem Idoms.climb_induct {idoms : Idoms} {stop : BlockId → Bool} {P : BlockId → Prop}
    (hup : ∀ b c, idoms.parent? b = some c → P b → P c) {b c : BlockId} (h : idoms.climb stop b = some c) (hb : P b) :
    P c := by
  refine climb.partial_correctness idoms stop (fun b c => P b → P c) (fun f ih b c h hb => ?_) b c h hb
  split at h
  · cases h
    exact hb
  · obtain ⟨d, hd, h⟩ := Option.bind_eq_some_iff.1 h
    exact ih d c h (hup b d hd hb)

theorem Idoms.climb_eq_some {idoms : Idoms} (stop : BlockId → Bool) {a b : BlockId}
    (h : Above idoms.parent? a b) (hstop : stop a = true) :
    ∃ c, idoms.climb stop b = some c ∧ stop c = true ∧ Above idoms.parent? c b ∧
      ∀ d, Above idoms.parent? d b → stop d = true → Above idoms.parent? d c := by
  induction h with
  | refl =>
      refine ⟨a, ?_, hstop, .refl, fun d hd _ => hd⟩
      rw [climb, if_pos hstop]
  | @step b c hup _ ih =>
      rw [climb]
      by_cases hb : stop b = true
      · rw [if_pos hb]
        exact ⟨b, rfl, hb, .refl, fun d hd _ => hd⟩
      · rw [if_neg hb, hup]
        obtain ⟨e, he, hstop', habove, hfirst⟩ := ih
        refine ⟨e, he, hstop', .step hup habove, fun d hd hd' => hfirst d (hd.of_ne ?_ hup) hd'⟩
        rintro rfl
        exact hb hd'

/-- From all blocks that have one, the way up leads through greater numbers to the top, which is above itself. -/
structure Rises (number : BlockId → Nat) (up : BlockId → Option BlockId) (top : BlockId) : Prop where
  up_top : up top = some top
  up_up : ∀ {b p}, up b = some p → up p ≠ none
  lt : ∀ {b p}, up b = some p → b ≠ top → number b < number p
  le_top : ∀ {b}, up b ≠ none → number b ≤ number top
  inj : ∀ {a b}, up a ≠ none → number a = number b → a = b

namespace Rises

variable {number : BlockId → Nat} {up : BlockId → Option BlockId} {top a b : BlockId}

theorem eq_top (h : Rises number up top) (hab : Above up a b) (hb : b = top) : a = top := by
  induction hab with
  | refl => exact hb
  | step hup _ ih =>
      rw [hb, h.up_top] at hup
      cases hup
      exact ih rfl

theorem number_le (h : Rises number up top) (hab : Above up a b) : number b ≤ number a := by
  induction hab with
  | refl => exact Nat.le_refl _
  | @step b c hup _ ih =>
      by_cases hb : b = top
      · rw [hb, h.up_top] at hup
        cases hup
        exact hb ▸ ih
      · have := h.lt hup hb
        omega

theorem number_lt (h : Rises number up top) (hab : Above up a b) (hne : a ≠ b) : number b < number a := by
  cases hab with
  | refl => exact absurd rfl hne
  | @step _ c hup habove =>
      have hb : b ≠ top := by
        rintro rfl
        exact hne (h.eq_top (.step hup habove) rfl)
      have := h.lt hup hb
      have := h.number_le habove
      omega

theorem known (h : Rises number up top) (hab : Above up a b) (hb : up b ≠ none) : up a ≠ none := by
  induction hab with
  | refl => exact hb
  | step hup _ ih => exact ih (h.up_up hup)

theorem top_above (h : Rises number up top) (hb : up b ≠ none) : Above up top b := by
  induction hk : number top - number b using Nat.strongRecOn generalizing b with
  | ind k ih =>
      by_cases htop : b = top
      · rw [htop]
        exact .refl
      · obtain ⟨p, hp⟩ := Option.ne_none_iff_exists'.1 hb
        have hlt := h.lt hp htop
        have hle := h.le_top (h.up_up hp)
        exact .step hp (ih (number top - number p) (by omega) (h.up_up hp) rfl)

end Rises

/-- Two blocks meet at the nearest block above both. -/
theorem Idoms.intersect_eq_some {idoms : Idoms} {number : BlockId → Nat} {top a b : BlockId}
    (h : Rises number idoms.parent? top) (ha : idoms.parent? a ≠ none) (hb : idoms.parent? b ≠ none) :
    ∃ d, idoms.intersect number a b = some d ∧ idoms.parent? d ≠ none ∧
      Nearest (Above idoms.parent?) (fun c => c = a ∨ c = b) d := by
  induction hk : 2 * number top - (number a + number b) using Nat.strongRecOn generalizing a b with
  | ind k ih =>
      rw [intersect]
      by_cases hab : a = b
      · subst hab
        rw [if_pos rfl]
        exact ⟨a, rfl, ha, Above.nearest_self _ a⟩
      · rw [if_neg hab]
        obtain ⟨a', ha', hstopA, haboveA, hfirstA⟩ := climb_eq_some
          (fun c => number b ≤ number c) (h.top_above ha) (decide_eq_true (h.le_top hb))
        have hknownA := h.known haboveA ha
        obtain ⟨b', hb', hstopB, haboveB, hfirstB⟩ := climb_eq_some
          (fun c => number a' ≤ number c) (h.top_above hb) (decide_eq_true (h.le_top hknownA))
        have hknownB := h.known haboveB hb
        have hba' : number b ≤ number a' := of_decide_eq_true hstopA
        have hab' : number a' ≤ number b' := of_decide_eq_true hstopB
        have haa' := h.number_le haboveA
        have hbb' := h.number_le haboveB
        have htopA := h.le_top hknownA
        have htopB := h.le_top hknownB
        have hne : number a ≠ number b := fun heq => hab (h.inj ha heq)
        obtain ⟨d, hd, hknown, hnear⟩ :=
          ih (2 * number top - (number a' + number b')) (by omega) hknownA hknownB rfl
        refine ⟨d, ?_, hknown, Above.nearest_below haboveA haboveB (fun e hea heb => ?_) hnear⟩
        · rw [ha', Option.bind_eq_bind, Option.bind_some, hb']
          exact hd
        · have hea' := hfirstA e hea (decide_eq_true (h.number_le heb))
          exact ⟨hea', hfirstB e heb (decide_eq_true (h.number_le hea'))⟩

end NativeBackend
