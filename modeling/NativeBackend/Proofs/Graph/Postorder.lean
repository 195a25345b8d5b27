import Mathlib.Data.List.Nodup
import NativeBackend.Graph.Dominators
import NativeBackend.Proofs.Graph.Search

namespace NativeBackend

variable {next : BlockId → List BlockId} {entry b c : BlockId} {seen left cs : List BlockId}
  {stack rest : List (BlockId × List BlockId)}

inductive Trail (next : BlockId → List BlockId) (entry : BlockId) : List (BlockId × List BlockId) → Prop where
  | nil : Trail next entry []
  | entry (cs : List BlockId) : Trail next entry [(entry, cs)]
  | found {p b : BlockId} {ps bs : List BlockId} {rest : List (BlockId × List BlockId)} :
      Trail next entry ((p, ps) :: rest) → b ∈ next p → Trail next entry ((b, bs) :: (p, ps) :: rest)

theorem Trail.top (h : Trail next entry ((b, cs) :: rest)) (cs' : List BlockId) :
    Trail next entry ((b, cs') :: rest) := by
  cases h with
  | entry => exact .entry _
  | found ht hb => exact .found ht hb

structure Trying (next : BlockId → List BlockId) (seen : List BlockId) (frame : BlockId × List BlockId) : Prop where
  seen_or : ∀ c ∈ next frame.1, c ∈ seen ∨ c ∈ frame.2
  subset : ∀ c ∈ frame.2, c ∈ next frame.1

namespace Trying

theorem start (next : BlockId → List BlockId) (seen : List BlockId) (b : BlockId) :
    Trying next seen (b, (next b).reverse) :=
  ⟨fun _ hc => .inr (List.mem_reverse.2 hc), fun _ hc => List.mem_reverse.1 hc⟩

theorem mono {frame : BlockId × List BlockId} (h : Trying next seen frame) (c : BlockId) :
    Trying next (c :: seen) frame :=
  ⟨fun d hd => (h.seen_or d hd).imp_left (List.mem_cons_of_mem _), h.subset⟩

theorem tail (h : Trying next seen (b, c :: cs)) (hc : c ∈ seen) : Trying next seen (b, cs) where
  seen_or d hd := by
    rcases h.seen_or d hd with hs | hs
    · exact .inl hs
    · rcases List.mem_cons.1 hs with rfl | hs
      · exact .inl hc
      · exact .inr hs
  subset d hd := h.subset d (List.mem_cons_of_mem _ hd)

end Trying

/-- What holds between two steps of a depth-first search. A block that was left has a predecessor that is left
later, or not yet. -/
structure Searching (next : BlockId → List BlockId) (entry : BlockId) (seen left : List BlockId)
    (stack : List (BlockId × List BlockId)) : Prop where
  trail : Trail next entry stack
  trying : ∀ frame ∈ stack, Trying next seen frame
  mem_seen : ∀ b, b ∈ seen ↔ b ∈ left ∨ b ∈ stack.map (·.1)
  nodup : (left ++ stack.map (·.1)).Nodup
  entry_seen : entry ∈ seen
  leads : ∀ b ∈ seen, Leads next [entry] b
  next_seen : ∀ b ∈ left, ∀ c ∈ next b, c ∈ seen
  parent : ∀ b ∈ left, b ≠ entry → ∃ p ∈ seen, b ∈ next p ∧ left.idxOf b < left.idxOf p

namespace Searching

theorem start (next : BlockId → List BlockId) (entry : BlockId) :
    Searching next entry [entry] [] [(entry, (next entry).reverse)] where
  trail := .entry _
  trying frame hframe := by
    rw [List.mem_singleton.1 hframe]
    exact .start ..
  mem_seen := by simp
  nodup := by simp
  entry_seen := List.mem_singleton_self _
  leads b hb := .start hb
  next_seen b hb := nomatch hb
  parent b hb := nomatch hb

theorem leave (h : Searching next entry seen left ((b, []) :: rest)) :
    Searching next entry seen (left ++ [b]) rest where
  trail := by
    cases h.trail with
    | entry => exact .nil
    | found ht _ => exact ht
  trying := (List.forall_mem_cons.1 h.trying).2
  mem_seen d := by
    rw [h.mem_seen]
    simp [or_assoc]
  nodup := by simpa using h.nodup
  entry_seen := h.entry_seen
  leads := h.leads
  next_seen d hd c hc := by
    rcases List.mem_append.1 hd with hd | hd
    · exact h.next_seen d hd c hc
    · rw [List.mem_singleton.1 hd] at hc
      exact ((h.trying _ List.mem_cons_self).seen_or c hc).resolve_right (fun hmem => nomatch hmem)
  parent d hd hne := by
    by_cases hdl : d ∈ left
    · obtain ⟨p, hp, hdp, hlt⟩ := h.parent d hdl hne
      refine ⟨p, hp, hdp, ?_⟩
      rw [List.idxOf_append_of_mem hdl]
      exact Nat.lt_of_lt_of_le hlt ((List.prefix_append left [b]).idxOf_le p)
    · have hdb : d = b := List.mem_singleton.1 ((List.mem_append.1 hd).resolve_left hdl)
      subst hdb
      cases h.trail with
      | entry => exact absurd rfl hne
      | @found p _ ps _ rest _ hdp =>
          refine ⟨p, (h.mem_seen p).2 (.inr (by simp)), hdp, ?_⟩
          have hnodup := h.nodup
          simp only [List.map_cons, List.nodup_append, List.nodup_cons, List.mem_cons] at hnodup
          have hpl : p ∉ left := fun hpl => hnodup.2.2 p hpl p (.inr (.inl rfl)) rfl
          have hdp : d ≠ p := fun heq => hnodup.2.1.1 (.inl heq)
          rw [List.idxOf_append_of_notMem hdl, List.idxOf_append_of_notMem hpl, List.idxOf_cons_self,
            List.idxOf_cons_ne _ hdp]
          omega

theorem skip (h : Searching next entry seen left ((b, c :: cs) :: rest)) (hc : c ∈ seen) :
    Searching next entry seen left ((b, cs) :: rest) where
  trail := h.trail.top cs
  trying := List.forall_mem_cons.2 ⟨(h.trying _ List.mem_cons_self).tail hc, (List.forall_mem_cons.1 h.trying).2⟩
  mem_seen := h.mem_seen
  nodup := h.nodup
  entry_seen := h.entry_seen
  leads := h.leads
  next_seen := h.next_seen
  parent := h.parent

theorem enter (h : Searching next entry seen left ((b, c :: cs) :: rest)) (hc : c ∉ seen) :
    Searching next entry (c :: seen) left ((c, (next c).reverse) :: (b, cs) :: rest) := by
  obtain ⟨htop, hrest⟩ := List.forall_mem_cons.1 h.trying
  have hbc : c ∈ next b := htop.subset c List.mem_cons_self
  refine
    { trail := .found (h.trail.top cs) hbc
      trying := ?_, mem_seen := fun d => ?_, nodup := ?_, leads := fun d hd => ?_, parent := fun d hd hne => ?_
      entry_seen := List.mem_cons_of_mem _ h.entry_seen
      next_seen := fun d hd e he => List.mem_cons_of_mem _ (h.next_seen d hd e he) }
  · refine List.forall_mem_cons.2 ⟨.start .., List.forall_mem_cons.2 ⟨?_, fun frame hf => (hrest frame hf).mono c⟩⟩
    exact (htop.mono c).tail List.mem_cons_self
  · rw [List.mem_cons, h.mem_seen]
    simp [or_left_comm]
  · have hnew : c ∉ left ++ b :: rest.map (·.1) := fun hmem => hc ((h.mem_seen c).2 (by simpa using hmem))
    exact List.perm_middle.nodup_iff.2 (List.nodup_cons.2 ⟨hnew, h.nodup⟩)
  · rcases List.mem_cons.1 hd with rfl | hd
    · exact .step (h.leads b ((h.mem_seen b).2 (.inr (by simp)))) hbc
    · exact h.leads d hd
  · obtain ⟨p, hp, hdp, hlt⟩ := h.parent d hd hne
    exact ⟨p, List.mem_cons_of_mem _ hp, hdp, hlt⟩

end Searching

namespace Graph

def Closed (g : Graph) : Prop := ∀ b, g.Reaches b → b < g.blocks.size

theorem WellFormed.closed {g : Graph} (h : g.WellFormed) : g.Closed := fun _ hb => hb.lt h

/-- The search ends if every block that the entry leads to exists. -/
theorem leave_eq_some {g : Graph} (hclosed : g.Closed) {seen left : List BlockId}
    {stack : List (BlockId × List BlockId)} (h : Searching g.successors g.entry seen left stack) :
    ∃ seen' order, g.leave seen left stack = some order ∧ Searching g.successors g.entry seen' order [] := by
  match stack, h with
  | [], h =>
      refine ⟨seen, left, ?_, h⟩
      rw [leave]
  | (b, []) :: rest, h =>
      rw [leave]
      exact leave_eq_some hclosed h.leave
  | (b, c :: cs) :: rest, h =>
      rw [leave]
      by_cases hc : seen.contains c
      · rw [if_pos hc]
        exact leave_eq_some hclosed (h.skip (by simpa using hc))
      · have hlt : c < g.blocks.size :=
          hclosed c (.step (h.leads b ((h.mem_seen b).2 (.inr (by simp))))
            ((h.trying _ List.mem_cons_self).subset c List.mem_cons_self))
        rw [if_neg hc]
        exact leave_eq_some hclosed (h.enter (by simpa using hc))
termination_by (unseenBelow g.blocks.size seen, (stack.map fun frame => frame.2.length + 1).sum)
decreasing_by
  · exact Prod.Lex.right _ (by simp)
  · exact Prod.Lex.right _ (by simp)
  · exact Prod.Lex.left _ _ (unseenBelow_cons_lt hlt (by simpa using hc))

/-- The blocks that the entry leads to, listed so that every other block comes before some predecessor. -/
structure Postorder (g : Graph) (order : List BlockId) : Prop where
  nodup : order.Nodup
  mem : ∀ b, b ∈ order ↔ g.Reaches b
  parent : ∀ b ∈ order, b ≠ g.entry → ∃ p ∈ order, b ∈ g.successors p ∧ order.idxOf b < order.idxOf p

theorem postorder_eq_some {g : Graph} (h : g.Closed) : ∃ order, g.postorder = some order ∧ g.Postorder order := by
  obtain ⟨seen, order, heq, hs⟩ := leave_eq_some h (.start g.successors g.entry)
  have hmem : ∀ b, b ∈ order ↔ b ∈ seen := fun b => by simp [hs.mem_seen]
  refine ⟨order, heq, by simpa using hs.nodup, fun b => ?_, fun b hb hne => ?_⟩
  · rw [hmem]
    constructor
    · exact hs.leads b
    · intro hb
      induction hb with
      | start hb => exact List.mem_singleton.1 hb ▸ hs.entry_seen
      | step _ hnext ih => exact hs.next_seen _ ((hmem _).2 ih) _ hnext
  · obtain ⟨p, hp, hbp, hlt⟩ := hs.parent b hb hne
    exact ⟨p, (hmem p).2 hp, hbp, hlt⟩

namespace Postorder

variable {g : Graph} {order : List BlockId} {a b : BlockId}

theorem entry_mem (h : g.Postorder order) : g.entry ∈ order := (h.mem _).2 (.start (List.mem_singleton_self _))

theorem idxOf_le_entry (h : g.Postorder order) (hb : b ∈ order) : order.idxOf b ≤ order.idxOf g.entry := by
  induction hk : order.length - order.idxOf b using Nat.strongRecOn generalizing b with
  | ind k ih =>
      by_cases hne : b = g.entry
      · exact hne ▸ Nat.le_refl _
      · obtain ⟨p, hp, -, hlt⟩ := h.parent b hb hne
        have hlt' := List.idxOf_lt_length_of_mem hp
        have := ih (order.length - order.idxOf p) (by omega) hp rfl
        omega

end Postorder

end Graph

end NativeBackend
