import NativeBackend.Proofs.Graph.Needs
import NativeBackend.Proofs.Steps

namespace NativeBackend

namespace Graph

variable {g : Graph}

theorem mem_foldl_modify (pairs : List (NodeId × Use)) (table : Array (List Use)) (n : NodeId) (u : Use) :
    u ∈ (pairs.foldl (fun table (n, u) => table.modify n (u :: ·)) table).getD n [] ↔
      u ∈ table.getD n [] ∨ n < table.size ∧ (n, u) ∈ pairs := by
  induction pairs generalizing table with
  | nil => simp
  | cons pair pairs ih =>
      obtain ⟨m, w⟩ := pair
      rw [List.foldl_cons, ih]
      simp only [Array.getD_eq_getD_getElem?, Array.getElem?_modify, Array.size_modify, List.mem_cons,
        Prod.mk.injEq]
      by_cases hm : m = n
      · subst hm
        by_cases hlt : m < table.size
        · simp only [hlt, true_and, Array.getElem?_eq_getElem, if_true, Option.map_some, Option.getD_some,
            List.mem_cons]
          rw [or_assoc, or_left_comm]
        · simp [hlt]
      · simp only [hm, if_false]
        have hne : n ≠ m := Ne.symm hm
        simp [hne]

theorem mem_useTable {reachable : List BlockId} {live : List NodeId} {n : NodeId} {u : Use} :
    u ∈ (g.useTable reachable live).getD n [] ↔
      n < g.nodes.size ∧ ∃ m ∈ live, (n, u) ∈ g.usesBy reachable m := by
  rw [useTable, mem_foldl_modify]
  have hnone : u ∉ (Array.replicate g.nodes.size ([] : List Use)).getD n [] := by
    rw [Array.getD_eq_getD_getElem?, Array.getElem?_replicate]
    split <;> exact List.not_mem_nil
  rw [Array.size_replicate, List.mem_flatMap]
  exact or_iff_right hnone

theorem mem_usesBy {reachable : List BlockId} {m n : NodeId} {u : Use} :
    (n, u) ∈ g.usesBy reachable m ↔
      (u = .node m ∧ n ∈ g.inputs m) ∨ ∃ b, u = .phiInput b ∧ (b, n) ∈ g.phiInputs reachable m := by
  simp only [usesBy, List.mem_append, List.mem_map, Prod.mk.injEq]
  constructor
  · rintro (⟨i, hi, rfl, rfl⟩ | ⟨⟨b, v⟩, hv, rfl, rfl⟩)
    · exact .inl ⟨rfl, hi⟩
    · exact .inr ⟨b, rfl, hv⟩
  · rintro (⟨rfl, hi⟩ | ⟨b, rfl, hv⟩)
    · exact .inl ⟨n, hi, rfl, rfl⟩
    · exact .inr ⟨(b, n), hv, rfl, rfl⟩

end Graph

namespace Schedule

variable {g : Graph} {s : Schedule}

/-- What a schedule knows before it is asked for a node. -/
structure Prepared (g : Graph) (s : Schedule) : Prop where
  reachable : s.reachable = g.reachable
  dominators : s.dominators.Reflects g
  mem_usesOf : ∀ n u, u ∈ s.usesOf n ↔ ∃ m, g.Needed m ∧ (n, u) ∈ g.usesBy g.reachable m
  placement : s.placement = g.nodes.map (·.pinned)

theorem start_prepared (h : g.WellFormed) (hs : start g = .ok s) : s.Prepared g := by
  obtain ⟨t, hcompute, ht⟩ := DominatorTree.compute_eq_some h.closed
  rw [start, hcompute] at hs
  obtain ⟨terminators, hterm, hs⟩ := Steps.except_bind_eq_ok.1 hs
  cases hs
  refine ⟨rfl, ht, fun n u => ?_, rfl⟩
  have hlive : ∀ n, n ∈ g.liveNodes g.reachable terminators ↔ g.Needed n := by
    refine fun n => Graph.mem_liveNodes h fun m => ?_
    rw [Steps.mem_of_mapM_eq_ok hterm]
    exact exists_congr fun b => and_congr_left' (Graph.mem_reachable h)
  simp only [usesOf, Graph.mem_useTable, hlive]
  refine ⟨fun hu => hu.2, fun hu => ⟨?_, hu⟩⟩
  obtain ⟨m, hm, hmu⟩ := hu
  rcases Graph.mem_usesBy.1 hmu with ⟨-, hin⟩ | ⟨b, -, hin⟩
  · exact (hm.input hin).lt h
  · exact (hm.phiInput hin).lt h

theorem exists_start_eq_ok (h : g.WellFormed) (hterm : ∀ c ∈ g.reachable, ∃ n, g.terminator c = .ok n) :
    ∃ s, start g = .ok s := by
  obtain ⟨t, hcompute, -⟩ := DominatorTree.compute_eq_some h.closed
  obtain ⟨terminators, hterminators⟩ := Steps.exists_mapM_eq_ok hterm
  rw [start, hcompute]
  exact ⟨_, Steps.except_bind_eq_ok.2 ⟨terminators, hterminators, rfl⟩⟩

end Schedule

end NativeBackend
