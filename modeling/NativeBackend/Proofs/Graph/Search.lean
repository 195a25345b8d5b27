import NativeBackend.Proofs.Graph.Built
import NativeBackend.Proofs.Graph.Flow

namespace NativeBackend

inductive Leads (next : Nat → List Nat) (start : List Nat) : Nat → Prop where
  | start {id : Nat} : id ∈ start → Leads next start id
  | step {id id' : Nat} : Leads next start id → id' ∈ next id → Leads next start id'

namespace Leads

variable {next : Nat → List Nat} {start start' : List Nat} {id : Nat}

theorem mono (h : Leads next start id) (hstart : ∀ i ∈ start, Leads next start' i) : Leads next start' id := by
  induction h with
  | start hmem => exact hstart _ hmem
  | step _ hnext ih => exact .step ih hnext

theorem lt {bound : Nat} (hstart : ∀ i ∈ start, i < bound)
    (hnext : ∀ i : Nat, i < bound → ∀ j ∈ next i, j < bound) (h : Leads next start id) : id < bound := by
  induction h with
  | start hmem => exact hstart _ hmem
  | step _ hmem ih => exact hnext _ ih _ hmem

end Leads

variable (next : Nat → List Nat) (bound : Nat)

theorem search_sound {seen stack : List Nat} {id : Nat} (h : id ∈ search next bound seen stack) :
    id ∈ seen ∨ Leads next stack id := by
  induction seen, stack using search.induct next bound with
  | case1 seen =>
      rw [search] at h
      exact .inl h
  | case2 seen i rest hseen ih =>
      rw [search, if_pos hseen] at h
      exact (ih h).imp_right fun hl => hl.mono fun j hj => .start (List.mem_cons_of_mem _ hj)
  | case3 seen i rest hseen hlt ih =>
      rw [search, if_neg hseen, if_pos hlt] at h
      have hi : Leads next (i :: rest) i := .start List.mem_cons_self
      rcases ih h with hmem | hl
      · rcases List.mem_cons.1 hmem with rfl | hmem
        · exact .inr hi
        · exact .inl hmem
      · refine .inr (hl.mono fun j hj => ?_)
        rcases List.mem_append.1 hj with hj | hj
        · exact .step hi hj
        · exact .start (List.mem_cons_of_mem _ hj)
  | case4 seen i rest hseen hlt ih =>
      rw [search, if_neg hseen, if_neg hlt] at h
      exact (ih h).imp_right fun hl => hl.mono fun j hj => .start (List.mem_cons_of_mem _ hj)

theorem search_complete {seen stack : List Nat}
    (hseen : ∀ i ∈ seen, ∀ j ∈ next i, j < bound → j ∈ seen ∨ j ∈ stack) :
    (∀ i ∈ seen, i ∈ search next bound seen stack) ∧
      (∀ i ∈ stack, i < bound → i ∈ search next bound seen stack) ∧
      ∀ i ∈ search next bound seen stack, ∀ j ∈ next i, j < bound → j ∈ search next bound seen stack := by
  induction seen, stack using search.induct next bound with
  | case1 seen =>
      rw [search]
      refine ⟨fun i hi => hi, by simp, fun i hi j hj hlt => ?_⟩
      exact (hseen i hi j hj hlt).resolve_right (fun h => nomatch h)
  | case2 seen i rest hi ih =>
      rw [search, if_pos hi]
      have hmem : i ∈ seen := by simpa using hi
      obtain ⟨hold, hstack, hclosed⟩ := ih fun k hk j hj hlt => by
        rcases hseen k hk j hj hlt with h | h
        · exact .inl h
        · rcases List.mem_cons.1 h with rfl | h
          · exact .inl hmem
          · exact .inr h
      refine ⟨hold, fun k hk hlt => ?_, hclosed⟩
      rcases List.mem_cons.1 hk with rfl | hk
      · exact hold _ hmem
      · exact hstack k hk hlt
  | case3 seen i rest hi hlt ih =>
      rw [search, if_neg hi, if_pos hlt]
      obtain ⟨hold, hstack, hclosed⟩ := ih fun k hk j hj hj' => by
        rcases List.mem_cons.1 hk with rfl | hk
        · exact .inr (List.mem_append_left _ hj)
        · rcases hseen k hk j hj hj' with h | h
          · exact .inl (List.mem_cons_of_mem _ h)
          · rcases List.mem_cons.1 h with rfl | h
            · exact .inl List.mem_cons_self
            · exact .inr (List.mem_append_right _ h)
      refine ⟨fun k hk => hold k (List.mem_cons_of_mem _ hk), fun k hk hk' => ?_, hclosed⟩
      rcases List.mem_cons.1 hk with rfl | hk
      · exact hold _ List.mem_cons_self
      · exact hstack k (List.mem_append_right _ hk) hk'
  | case4 seen i rest hi hlt ih =>
      rw [search, if_neg hi, if_neg hlt]
      obtain ⟨hold, hstack, hclosed⟩ := ih fun k hk j hj hj' => by
        rcases hseen k hk j hj hj' with h | h
        · exact .inl h
        · rcases List.mem_cons.1 h with rfl | h
          · exact absurd hj' hlt
          · exact .inr h
      refine ⟨hold, fun k hk hk' => ?_, hclosed⟩
      rcases List.mem_cons.1 hk with rfl | hk
      · exact absurd hk' hlt
      · exact hstack k hk hk'

variable {next bound}

/-- Where all ids are below the bound, a search finds what its start leads to. -/
theorem mem_reachableFrom {start : List Nat} (hstart : ∀ i ∈ start, i < bound)
    (hnext : ∀ i : Nat, i < bound → ∀ j ∈ next i, j < bound) {id : Nat} :
    id ∈ reachableFrom next bound start ↔ Leads next start id := by
  obtain ⟨-, hstack, hclosed⟩ := @search_complete next bound [] start
    fun i hi => nomatch hi
  simp only [reachableFrom, List.mem_filter, List.mem_range, List.contains_iff_mem]
  constructor
  · rintro ⟨-, hmem⟩
    exact (search_sound next bound hmem).resolve_left fun h => nomatch h
  · intro h
    refine ⟨h.lt hstart hnext, ?_⟩
    induction h with
    | start hmem => exact hstack _ hmem (hstart _ hmem)
    | step hl hmem ih => exact hclosed _ ih _ hmem (hnext _ (hl.lt hstart hnext) _ hmem)

namespace Graph

variable {g : Graph}

theorem successors_lt (h : g.WellFormed) (b : BlockId) : ∀ c ∈ g.successors b, c < g.blocks.size := by
  intro c hc
  rw [successors] at hc
  split at hc
  case h_2 => cases hc
  case h_1 t ht =>
    obtain ⟨n, -, hn⟩ := Option.bind_eq_some_iff.1 ht
    obtain ⟨x, hx, hk⟩ := Option.map_eq_some_iff.1 hn
    exact (h.node n x hx).targets t hk c hc

def Reaches (g : Graph) (b : BlockId) : Prop := Leads g.successors [g.entry] b

theorem mem_reachable (h : g.WellFormed) {b : BlockId} : b ∈ g.reachable ↔ g.Reaches b := by
  refine mem_reachableFrom ?_ fun i _ => successors_lt h i
  intro i hi
  rw [List.mem_singleton.1 hi]
  exact h.entry

theorem Reaches.lt (h : g.WellFormed) {b : BlockId} (hb : g.Reaches b) : b < g.blocks.size := by
  refine Leads.lt ?_ (fun i _ => successors_lt h i) hb
  intro i hi
  rw [List.mem_singleton.1 hi]
  exact h.entry

def flow (g : Graph) : Flow BlockId := ⟨g.entry, fun b c => c ∈ g.successors b⟩

def Dominates (g : Graph) (a b : BlockId) : Prop := g.flow.Dominates a b

theorem reaches_iff_path {b : BlockId} : g.Reaches b ↔ ∃ visited, g.flow.Path visited b := by
  constructor
  · intro h
    induction h with
    | start hmem =>
        rw [List.mem_singleton.1 hmem]
        exact ⟨_, .start⟩
    | step _ hmem ih =>
        obtain ⟨visited, hp⟩ := ih
        exact ⟨_, .step hp hmem⟩
  · rintro ⟨visited, hp⟩
    induction hp with
    | start => exact .start (List.mem_singleton_self _)
    | step _ hnext ih => exact .step ih hnext

theorem Dominates.reaches {a b : BlockId} (h : g.Dominates a b) (hb : g.Reaches b) : g.Reaches a :=
  reaches_iff_path.2 (Flow.Dominates.reachable h (reaches_iff_path.1 hb))

end Graph

end NativeBackend
