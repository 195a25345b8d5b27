import Mathlib.Algebra.Order.BigOperators.Group.List
import Mathlib.Algebra.Order.Group.Nat
import NativeBackend.Proofs.Graph.Partial
import NativeBackend.Proofs.Lists

namespace NativeBackend

/-- Once all paths are taken into account, a block other than the entry is set to a block above all its
predecessors. -/
def Graph.Settled (g : Graph) (up : BlockId → Option BlockId) (b : BlockId) : Prop :=
  b ≠ g.entry → ∃ d, up b = some d ∧ ∀ p, b ∈ g.successors p → up p ≠ none → Above up d p

namespace Idoms

open NativeBackend.Graph

variable {g : Graph} {order : List BlockId} {idoms : Idoms} {b p x d : BlockId} {k : Nat}

theorem parent?_setIfInBounds (hx : x < idoms.size) (d b : BlockId) :
    parent? (idoms.setIfInBounds x (some d)) b = if b = x then some d else idoms.parent? b := by
  rw [parent?, parent?, Array.getD_eq_getD_getElem?, Array.getD_eq_getD_getElem?]
  by_cases hb : b = x
  · subst hb
    simp [hx]
  · rw [if_neg hb, Array.getElem?_setIfInBounds_ne (Ne.symm hb)]

theorem mem_predecessors (order : List BlockId) : p ∈ g.predecessors order b ↔ p ∈ order ∧ b ∈ g.successors p := by
  simp only [predecessors, List.mem_flatMap, List.mem_filterMap]
  constructor
  · rintro ⟨q, hq, c, hc, hif⟩
    split at hif
    · rename_i heq
      cases hif
      exact ⟨hq, heq ▸ hc⟩
    · cases hif
  · rintro ⟨hp, hb⟩
    exact ⟨p, hp, b, hb, if_pos rfl⟩

theorem meet_eq_some (h : Partial g order idoms.parent? (order.idxOf x + 1)) (hx : x ∈ order) (hne : x ≠ g.entry) :
    ∃ d, meet order idoms (g.predecessors order x) = some (some d) ∧ idoms.parent? d ≠ none ∧
      Nearest (Above idoms.parent?) (fun p => x ∈ g.successors p ∧ idoms.parent? p ≠ none) d := by
  have hmem : ∀ p, p ∈ (g.predecessors order x).filter (fun p => (idoms.parent? p).isSome) ↔
      x ∈ g.successors p ∧ idoms.parent? p ≠ none := by
    intro p
    rw [List.mem_filter, mem_predecessors, Option.isSome_iff_ne_none]
    exact ⟨fun hp => ⟨hp.1.2, hp.2⟩, fun hp => ⟨⟨h.mem hp.2, hp.1⟩, hp.2⟩⟩
  rw [meet]
  cases hknown : (g.predecessors order x).filter (fun p => (idoms.parent? p).isSome) with
  | nil =>
      obtain ⟨p, hxp, hp, -⟩ := Relaxed.exists_predecessor hx hne h
      have := (hmem p).2 ⟨hxp, hp⟩
      rw [hknown] at this
      cases this
  | cons p ps =>
      rw [hknown] at hmem
      have hps : ∀ q ∈ p :: ps, idoms.parent? q ≠ none := fun q hq => ((hmem q).1 hq).2
      obtain ⟨d, hd, hup, hnear⟩ := nearest_foldlM (R := Above idoms.parent?)
        (P := (idoms.parent? · ≠ none)) (f := fun d p => idoms.intersect order.idxOf p d)
        (fun _ => .refl) Above.trans
        (fun ha hb => by
          obtain ⟨c, hc, hup, hnear⟩ := intersect_eq_some h.rises hb ha
          exact ⟨c, hc, hup, hnear.congr fun _ => or_comm⟩)
        (hps p List.mem_cons_self) (fun q hq => hps q (List.mem_cons_of_mem _ hq))
      refine ⟨d, ?_, hup, hnear.congr hmem⟩
      rw [joinAll?, hd]
      rfl

def distance (order : List BlockId) (idoms : Idoms) : Nat :=
  (order.map fun b => match idoms.parent? b with
    | none => order.length + 1
    | some p => order.length - order.idxOf p).sum

inductive Outcome (g : Graph) (order : List BlockId) (bs : List BlockId) (idoms : Idoms) (changed : Bool) :
    Idoms → Bool → Prop where
  | settled : (∀ b ∈ bs, g.Settled idoms.parent? b) → Outcome g order bs idoms changed idoms changed
  | moved {idoms' : Idoms} : distance order idoms' < distance order idoms → Outcome g order bs idoms changed idoms' true

namespace Outcome

variable {bs bs' : List BlockId} {idoms' idoms'' : Idoms} {changed changed' changed'' : Bool}

theorem trans (h : Outcome g order bs idoms changed idoms' changed')
    (h' : Outcome g order bs' idoms' changed' idoms'' changed'') :
    Outcome g order (bs' ++ bs) idoms changed idoms'' changed'' := by
  cases h with
  | settled hs =>
      cases h' with
      | settled hs' => exact .settled fun b hb => (List.mem_append.1 hb).elim (hs' b) (hs b)
      | moved hlt => exact .moved hlt
  | moved hlt =>
      cases h' with
      | settled => exact .moved hlt
      | moved hlt' => exact .moved (Nat.lt_trans hlt' hlt)

end Outcome

theorem distance_lt (hx : x ∈ order) {idoms' : Idoms} (hd : idoms'.parent? x = some d) (hdo : d ∈ order)
    (hoff : ∀ b, b ≠ x → idoms'.parent? b = idoms.parent? b)
    (hup : ∀ c, idoms.parent? x = some c → order.idxOf c < order.idxOf d) :
    distance order idoms' < distance order idoms := by
  have hlt := List.idxOf_lt_length_of_mem hdo
  have hself : order.length - order.idxOf d < match idoms.parent? x with
      | none => order.length + 1
      | some p => order.length - order.idxOf p := by
    cases hc : idoms.parent? x with
    | none => exact Nat.lt_succ_of_le (Nat.sub_le _ _)
    | some c =>
        have := hup c hc
        simp only
        omega
  refine List.sum_lt_sum _ _ (fun b _ => ?_) ⟨x, hx, by rwa [hd]⟩
  by_cases hb : b = x
  · rw [hb, hd]
    exact Nat.le_of_lt hself
  · rw [hoff b hb]

variable (hclosed : g.Closed)

include hclosed in
theorem relax_eq_some (hsize : idoms.size = g.blocks.size)
    (h : Partial g order idoms.parent? (order.idxOf x + 1)) (hx : x ∈ order) (changed : Bool) :
    ∃ idoms' changed', relax g order (idoms, changed) x = some (idoms', changed') ∧
      idoms'.size = g.blocks.size ∧ Partial g order idoms'.parent? (order.idxOf x) ∧
        Outcome g order [x] idoms changed idoms' changed' := by
  rw [relax]
  by_cases hne : x = g.entry
  · rw [if_pos hne]
    refine ⟨idoms, changed, rfl, hsize, h.skip_entry (by rw [hne]), .settled fun b hb => ?_⟩
    rw [List.mem_singleton.1 hb]
    exact fun hne' => absurd hne hne'
  · obtain ⟨d, hmeet, hknown, hnear⟩ := meet_eq_some h hx hne
    rw [if_neg hne, hmeet]
    simp only [Option.bind_eq_bind, Option.bind_some, Option.pure_def]
    by_cases heq : idoms.parent? x = some d
    · rw [if_pos heq]
      have hr : Relaxed g idoms.parent? idoms.parent? x d := ⟨heq, fun _ _ => rfl, hknown, hnear⟩
      refine ⟨idoms, changed, rfl, hsize, hr.preserves hx hne h, .settled fun b hb _ => ?_⟩
      rw [List.mem_singleton.1 hb]
      exact ⟨d, heq, fun p hxp hp => hnear.over_all p ⟨hxp, hp⟩⟩
    · rw [if_neg heq]
      have hlt : x < idoms.size := hsize ▸ hclosed x ((h.postorder.mem x).1 hx)
      have hset := parent?_setIfInBounds hlt d
      have hr : Relaxed g idoms.parent? (parent? (idoms.setIfInBounds x (some d))) x d :=
        ⟨(hset x).trans (if_pos rfl), fun b hb => (hset b).trans (if_neg hb), hknown, hnear⟩
      refine ⟨_, true, rfl, by simpa using hsize, hr.preserves hx hne h, .moved ?_⟩
      refine distance_lt hx hr.eq (h.mem hknown) hr.off fun c hc => ?_
      have hdx : d ≠ x := by
        rintro rfl
        exact absurd (hr.lt hx hne h) (Nat.lt_irrefl _)
      refine h.rises.number_lt ((hr.above_old hne h (by simp [hc])).of_ne hdx hc) ?_
      rintro rfl
      exact heq hc

include hclosed in
theorem foldlM_relax_eq_some (hk : k ≤ order.length) (hsize : idoms.size = g.blocks.size)
    (h : Partial g order idoms.parent? k) (changed : Bool) :
    ∃ idoms' changed', (order.take k).reverse.foldlM (relax g order) (idoms, changed) = some (idoms', changed') ∧
      idoms'.size = g.blocks.size ∧ Partial g order idoms'.parent? 0 ∧
        Outcome g order (order.take k) idoms changed idoms' changed' := by
  induction k generalizing idoms changed with
  | zero => exact ⟨idoms, changed, rfl, hsize, h, .settled fun b hb => nomatch hb⟩
  | succ k ih =>
      have hlt : k < order.length := hk
      have hidx : order.idxOf order[k] = k := h.postorder.nodup.idxOf_getElem k hlt
      obtain ⟨idoms₁, changed₁, hrelax, hsize₁, h₁, hout₁⟩ :=
        relax_eq_some hclosed hsize (by rwa [hidx]) (List.getElem_mem hlt) changed
      rw [hidx] at h₁
      obtain ⟨idoms₂, changed₂, hrest, hsize₂, h₂, hout₂⟩ := ih (Nat.le_of_lt hlt) hsize₁ h₁ changed₁
      rw [List.take_succ_eq_append_getElem hlt]
      refine ⟨idoms₂, changed₂, ?_, hsize₂, h₂, hout₁.trans hout₂⟩
      rw [List.reverse_append, List.reverse_singleton, List.singleton_append, List.foldlM_cons, hrelax]
      exact hrest

include hclosed in
/-- The rounds end, and the last one has found all settled. -/
theorem settle_eq_some (hsize : idoms.size = g.blocks.size) (h : Partial g order idoms.parent? order.length) :
    ∃ idoms', settle g order idoms = some idoms' ∧ Partial g order idoms'.parent? 0 ∧
      ∀ b ∈ order, g.Settled idoms'.parent? b := by
  induction hk : distance order idoms using Nat.strongRecOn generalizing idoms with
  | ind n ih =>
      obtain ⟨idoms', changed, hsweep, hsize', h', hout⟩ :=
        foldlM_relax_eq_some hclosed (Nat.le_refl _) hsize h false
      rw [List.take_length] at hsweep hout
      rw [settle, sweep, hsweep, Option.bind_eq_bind, Option.bind_some]
      cases hout with
      | settled hs => exact ⟨idoms, rfl, h', hs⟩
      | moved hlt => exact ih _ (hk ▸ hlt) hsize' h'.restart rfl

include hclosed in
theorem parent?_start (b : BlockId) : (start g).parent? b = if b = g.entry then some g.entry else none := by
  have hlt : g.entry < (Array.replicate g.blocks.size (none : Option BlockId)).size := by
    rw [Array.size_replicate]
    exact hclosed _ (.start (List.mem_singleton_self _))
  rw [start, parent?_setIfInBounds hlt]
  simp only [parent?, Array.getD_eq_getD_getElem?, Array.getElem?_replicate]
  split
  · rfl
  · split <;> rfl

end Idoms

end NativeBackend
