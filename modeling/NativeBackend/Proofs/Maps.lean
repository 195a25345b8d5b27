import Std.Data.TreeMap

namespace NativeBackend.Maps

variable {α β : Type} [Ord α] [Std.TransOrd α] [Std.LawfulEqOrd α] {m : Std.TreeMap α β} {k a : α} {v w : β}

theorem getElem?_insert_of_ne (h : k ≠ a) (v : β) : (m.insert k v)[a]? = m[a]? := by
  rw [Std.TreeMap.getElem?_insert, if_neg fun heq => h (Std.compare_eq_iff_eq.1 heq)]

theorem getElem?_insert_eq_some :
    (m.insert k v)[a]? = some w ↔ (k = a ∧ v = w) ∨ (k ≠ a ∧ m[a]? = some w) := by
  by_cases h : k = a
  · subst h
    simp
  · rw [getElem?_insert_of_ne h]
    simp [h]

theorem getElem?_insert_eq_none : (m.insert k v)[a]? = none ↔ k ≠ a ∧ m[a]? = none := by
  by_cases h : k = a
  · subst h
    simp
  · rw [getElem?_insert_of_ne h]
    simp [h]

theorem getElem?_insert_of_new (hnew : m[k]? = none) (h : m[a]? = some w) : (m.insert k v)[a]? = some w := by
  rw [getElem?_insert_of_ne, h]
  rintro rfl
  rw [hnew] at h
  cases h

end NativeBackend.Maps
