import Mathlib.Computability.Primrec.List
import Mathlib.Data.List.Forall2
import Mathlib.Data.List.Nodup
import Mathlib.Data.List.Pairwise
import Mathlib.Data.List.Permutation

-- The first and the last module have equations of `List.lookup` and `Prod.snd` that closed look-ups are evaluated by.

namespace NativeBackend.Lists

variable {α β : Type}

section

variable {f g : α → Option β} {xs ys : List α}

theorem eq_of_nodup_filterMap (h : (xs.filterMap f).Nodup) {x y : α} {b : β} (hx : x ∈ xs) (hy : y ∈ xs)
    (hxb : f x = some b) (hyb : f y = some b) : x = y := by
  by_contra hne
  have hapart := List.pairwise_filterMap.1 (List.nodup_iff_pairwise_ne.1 h)
  have : Std.Symm fun a a' => ∀ b, f a = some b → ∀ b', f a' = some b' → b ≠ b' :=
    ⟨fun a a' hne b hb b' hb' heq => hne b' hb' b hb heq.symm⟩
  exact hapart.forall hx hy hne b hxb b hyb rfl

theorem filterMap_sublist (hfg : ∀ x b, f x = some b → g x = some b) (xs : List α) :
    (xs.filterMap f).Sublist (xs.filterMap g) := by
  induction xs with
  | nil => exact .slnil
  | cons x xs ih =>
      cases hf : f x with
      | some b =>
          rw [List.filterMap_cons_some hf, List.filterMap_cons_some (hfg x b hf)]
          exact ih.cons_cons b
      | none =>
          rw [List.filterMap_cons_none hf, List.filterMap_cons]
          cases g x with
          | none => exact ih
          | some b => exact ih.cons b

theorem exists_mem_filterMap {p : β → Prop} {q : α → Prop} (h : ∀ x, (∃ y, f x = some y ∧ p y) ↔ q x)
    (xs : List α) : (∃ y ∈ xs.filterMap f, p y) ↔ ∃ x ∈ xs, q x := by
  simp only [List.mem_filterMap]
  constructor
  · rintro ⟨y, ⟨x, hx, hy⟩, hp⟩
    exact ⟨x, hx, (h x).1 ⟨y, hy, hp⟩⟩
  · rintro ⟨x, hx, hq⟩
    obtain ⟨y, hy, hp⟩ := (h x).2 hq
    exact ⟨y, ⟨x, hx, hy⟩, hp⟩

theorem findSome?_perm (hperm : xs.Perm ys)
    (hf : ∀ x ∈ xs, ∀ y ∈ xs, ∀ b c, f x = some b → f y = some c → b = c) : xs.findSome? f = ys.findSome? f := by
  cases hx : xs.findSome? f with
  | none =>
      refine (List.findSome?_eq_none_iff.2 fun y hy => ?_).symm
      exact List.findSome?_eq_none_iff.1 hx y (hperm.mem_iff.2 hy)
  | some b =>
      obtain ⟨x, hxmem, hb⟩ := List.exists_of_findSome?_eq_some hx
      cases hy : ys.findSome? f with
      | none =>
          rw [List.findSome?_eq_none_iff.1 hy x (hperm.mem_iff.1 hxmem)] at hb
          cases hb
      | some c =>
          obtain ⟨y, hymem, hc⟩ := List.exists_of_findSome?_eq_some hy
          rw [hf x hxmem y (hperm.mem_iff.2 hymem) b c hb hc]

theorem exists_mapM_eq_some_iff : (∃ bs, xs.mapM f = some bs) ↔ ∀ x ∈ xs, ∃ b, f x = some b := by
  induction xs with
  | nil => simp
  | cons x xs ih =>
      rw [List.forall_mem_cons, ← ih, List.mapM_cons]
      cases f x with
      | none => simp
      | some b => cases xs.mapM f <;> simp

end

section

variable {P : α → β → Prop} {xs : List α} {ys : List β}

theorem exists_of_mem_right (h : List.Forall₂ P xs ys) {y : β} (hy : y ∈ ys) : ∃ x ∈ xs, P x y := by
  induction h with
  | nil => cases hy
  | cons hxy _ ih =>
      rcases List.mem_cons.1 hy with rfl | hy
      · exact ⟨_, List.mem_cons_self, hxy⟩
      · obtain ⟨x, hx, hp⟩ := ih hy
        exact ⟨x, List.mem_cons_of_mem _ hx, hp⟩

theorem exists_of_mem_left (h : List.Forall₂ P xs ys) {x : α} (hx : x ∈ xs) : ∃ y ∈ ys, P x y := by
  obtain ⟨y, hy, hp⟩ := exists_of_mem_right h.flip hx
  exact ⟨y, hy, hp⟩

end

theorem lookup_filter_ne [DecidableEq α] {key other : α} (hne : key ≠ other) (entries : List (α × β)) :
    (entries.filter (·.1 != other)).lookup key = entries.lookup key := by
  induction entries with
  | nil => rfl
  | cons entry rest ih =>
      obtain ⟨first, value⟩ := entry
      by_cases hfirst : first = other
      · have hmiss : (key == first) = false := by simp [hfirst, hne]
        rw [List.filter_cons_of_neg (by simp [hfirst]), ih, List.lookup_cons, hmiss]
      · rw [List.filter_cons_of_pos (by simpa using hfirst), List.lookup_cons, List.lookup_cons, ih]

end NativeBackend.Lists
