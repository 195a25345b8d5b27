namespace NativeBackend

def unseenBelow (bound : Nat) (seen : List Nat) : Nat := (List.range bound).countP fun i => !seen.contains i

theorem countP_lt_countP {α : Type} {p q : α → Bool} {xs : List α} {a : α} (ha : a ∈ xs)
    (hp : p a = false) (hq : q a = true) (h : ∀ x ∈ xs, p x = true → q x = true) :
    xs.countP p < xs.countP q := by
  induction xs with
  | nil => simp at ha
  | cons x xs ih =>
    have hle : xs.countP p ≤ xs.countP q :=
      List.countP_mono_left fun y hy => h y (List.mem_cons_of_mem _ hy)
    rcases List.mem_cons.1 ha with rfl | ha
    · rw [List.countP_cons_of_neg (by simp [hp]), List.countP_cons_of_pos hq]
      omega
    · have := ih ha fun y hy => h y (List.mem_cons_of_mem _ hy)
      rw [List.countP_cons, List.countP_cons]
      by_cases hx : p x = true
      · rw [if_pos hx, if_pos (h x List.mem_cons_self hx)]
        omega
      · rw [if_neg hx]
        omega

theorem unseenBelow_cons_lt {bound id : Nat} {seen : List Nat} (hid : id < bound)
    (hseen : seen.contains id = false) : unseenBelow bound (id :: seen) < unseenBelow bound seen := by
  refine countP_lt_countP (List.mem_range.2 hid) (by simp) (by simp_all) ?_
  intro i _ hi
  simp_all

/-- Depth-first search from a stack of ids below a bound: everything seen before, and all that the
stack leads to. -/
def search (next : Nat → List Nat) (bound : Nat) (seen : List Nat) (stack : List Nat) : List Nat :=
  match stack with
  | [] => seen
  | id :: rest =>
    if seen.contains id then search next bound seen rest
    else if id < bound then search next bound (id :: seen) (next id ++ rest)
    else search next bound seen rest
termination_by (unseenBelow bound seen, stack.length)
decreasing_by
  · exact Prod.Lex.right _ (by simp)
  · exact Prod.Lex.left _ _ (unseenBelow_cons_lt (by assumption) (by simp_all))
  · exact Prod.Lex.right _ (by simp)

/-- The ids below a bound that a list of ids leads to, in increasing order. -/
def reachableFrom (next : Nat → List Nat) (bound : Nat) (start : List Nat) : List Nat :=
  let seen := search next bound [] start
  (List.range bound).filter seen.contains

end NativeBackend
