import Mathlib.Data.Set.Insert
import NativeBackend.Proofs.Graph.Needs

namespace NativeBackend

theorem inputs_of_effectDependency? {k : NodeKind} {d : NodeId} (hd : k.effectDependency? = some d) :
    ∃ rest, k.inputs = d :: rest := by
  unfold NodeKind.effectDependency? at hd
  split at hd <;> cases hd
  case h_2 type target args =>
    cases target with
    | direct => exact ⟨_, rfl⟩
    | indirect => exact ⟨_, rfl⟩
  all_goals exact ⟨_, rfl⟩

namespace Graph

def isEffect (g : Graph) (n : NodeId) : Bool := ((g.kind? n).bind (·.effectDependency?)).isSome

def effectsTo (g : Graph) (n : NodeId) : List NodeId :=
  match (g.kind? n).bind (·.effectDependency?) with
  | some d => if d < n then g.effectsTo d ++ [n] else [n]
  | none => []
termination_by n

def chain (g : Graph) (b : BlockId) : List NodeId :=
  match (g.terminator b).toOption.bind fun n => (g.kind? n).bind (·.dependency?) with
  | some d => g.effectsTo d
  | none => []

def endInputs (g : Graph) (b : BlockId) : List NodeId :=
  match g.terminator b with
  | .ok n => g.inputs n
  | .error _ => []

/-- `Visits g active known ns known'`: a search from nodes in order, which works off the inputs of a node
before the node is known, but knows a phi before what flows in, and never comes to an effect that it is
working on. -/
inductive Visits (g : Graph) : List NodeId → Set NodeId → List NodeId → Set NodeId → Prop where
  | nil {active : List NodeId} {known : Set NodeId} : Visits g active known [] known
  | known {active ns : List NodeId} {known known' : Set NodeId} {n : NodeId} : n ∈ known →
      Visits g active known ns known' → Visits g active known (n :: ns) known'
  | node {active ns : List NodeId} {known known' known'' : Set NodeId} {n : NodeId} : n ∉ known →
      g.phi? n = none → (g.isEffect n = true → n ∉ active) →
      Visits g (n :: active) known (g.inputs n) known' → Visits g active (insert n known') ns known'' →
      Visits g active known (n :: ns) known''
  | phi {active ns : List NodeId} {known known' known'' : Set NodeId} {n : NodeId} : n ∉ known →
      g.phi? n ≠ none →
      Visits g active (insert n known) ((g.phiInputs g.reachable n).map (·.2)) known' →
      Visits g active known' ns known'' → Visits g active known (n :: ns) known''

def visit (g : Graph) : Nat → List NodeId → List NodeId → List NodeId → Option (List NodeId)
  | 0, _, _, _ => none
  | _, _, known, [] => some known
  | fuel + 1, active, known, n :: ns =>
    if n ∈ known then g.visit fuel active known ns
    else if (g.phi? n).isSome then
      (g.visit fuel active (n :: known) ((g.phiInputs g.reachable n).map (·.2))).bind fun known' =>
        g.visit fuel active known' ns
    else if g.isEffect n && n ∈ active then none
    else (g.visit fuel (n :: active) known (g.inputs n)).bind fun known' => g.visit fuel active (n :: known') ns

def EffectsOnChains (g : Graph) : Prop :=
  ∀ n, g.Needed n → g.isEffect n = true → ∃ b, g.Reaches b ∧ n ∈ g.chain b

variable {g : Graph} {n m d : NodeId}

theorem isEffect_iff : g.isEffect n = true ↔ ∃ d, (g.kind? n).bind (·.effectDependency?) = some d :=
  Option.isSome_iff_exists

theorem exists_inputs_eq (hd : (g.kind? n).bind (·.effectDependency?) = some d) : ∃ rest, g.inputs n = d :: rest := by
  obtain ⟨k, hk, hd⟩ := Option.bind_eq_some_iff.1 hd
  obtain ⟨rest, hrest⟩ := inputs_of_effectDependency? hd
  exact ⟨rest, (inputs_of_kind hk).trans hrest⟩

theorem dependency_mem_inputs (hd : (g.kind? n).bind (·.effectDependency?) = some d) : d ∈ g.inputs n := by
  obtain ⟨rest, hrest⟩ := exists_inputs_eq hd
  exact hrest ▸ List.mem_cons_self

theorem dependency?_of_effectDependency? {k : NodeKind} (hd : k.effectDependency? = some d) :
    k.dependency? = some d := by
  cases k with
  | terminator t => cases hd
  | value | action => exact hd

theorem pinned?_effectDependency (h : g.WellFormed) (hd : (g.kind? n).bind (·.effectDependency?) = some d) :
    ∃ b, g.pinned? n = some b ∧ g.pinned? d = some b := by
  refine pinned?_dependency h ?_
  obtain ⟨k, hk, hd⟩ := Option.bind_eq_some_iff.1 hd
  rw [hk]
  exact dependency?_of_effectDependency? hd

theorem marker_or_effect (h : g.WellFormed) (hd : (g.kind? n).bind (·.effectDependency?) = some d) :
    (∃ b, g.kind? d = some (.action (.blockEntry b))) ∨ g.isEffect d = true := by
  obtain ⟨k, hk, hdep⟩ := Option.bind_eq_some_iff.1 hd
  obtain ⟨x, hx, rfl⟩ := Option.map_eq_some_iff.1 hk
  obtain ⟨y, hy, -, hchain⟩ := (h.node n x hx).dependency d (dependency?_of_effectDependency? hdep)
  rw [isEffect, kind?_of_getElem? hy]
  exact hchain.imp_left fun ⟨b, hb⟩ => ⟨b, congrArg some hb⟩

theorem effectsTo_of_dependency (h : g.WellFormed) (hd : (g.kind? n).bind (·.effectDependency?) = some d) :
    g.effectsTo n = g.effectsTo d ++ [n] := by
  rw [effectsTo, hd]
  exact if_pos (input_lt h (dependency_mem_inputs hd)).1

theorem mem_effectsTo (h : g.WellFormed) (hm : m ∈ g.effectsTo n) :
    ∃ d, (g.kind? n).bind (·.effectDependency?) = some d ∧ (m ∈ g.effectsTo d ∨ m = n) := by
  cases hd : (g.kind? n).bind (·.effectDependency?) with
  | none =>
      rw [effectsTo, hd] at hm
      cases hm
  | some d =>
      rw [effectsTo_of_dependency h hd] at hm
      exact ⟨d, rfl, (List.mem_append.1 hm).imp_right List.mem_singleton.1⟩

theorem effectsTo_induction (h : g.WellFormed) {P : NodeId → Prop} (hn : P n)
    (hstep : ∀ m d, P m → (g.kind? m).bind (·.effectDependency?) = some d → P d) :
    ∀ m ∈ g.effectsTo n, P m := by
  induction n using Nat.strongRecOn with
  | ind n ih =>
      intro m hm
      obtain ⟨d, hd, hm | rfl⟩ := mem_effectsTo h hm
      · exact ih d (input_lt h (dependency_mem_inputs hd)).1 (hstep n d hn hd) m hm
      · exact hn

theorem le_of_mem_effectsTo (h : g.WellFormed) (hm : m ∈ g.effectsTo n) : m ≤ n := by
  refine effectsTo_induction h (P := (· ≤ n)) (Nat.le_refl n) ?_ m hm
  intro k d hk hd
  exact Nat.le_trans (Nat.le_of_lt (input_lt h (dependency_mem_inputs hd)).1) hk

theorem isEffect_of_mem_effectsTo (h : g.WellFormed) (hm : m ∈ g.effectsTo n) : g.isEffect m = true := by
  induction n using Nat.strongRecOn with
  | ind n ih =>
      obtain ⟨d, hd, hm | rfl⟩ := mem_effectsTo h hm
      · exact ih d (input_lt h (dependency_mem_inputs hd)).1 hm
      · exact isEffect_iff.2 ⟨d, hd⟩

theorem nodup_effectsTo (h : g.WellFormed) : (g.effectsTo n).Nodup := by
  induction n using Nat.strongRecOn with
  | ind n ih =>
      cases hd : (g.kind? n).bind (·.effectDependency?) with
      | none =>
          rw [effectsTo, hd]
          exact List.nodup_nil
      | some d =>
          have hlt := (input_lt h (dependency_mem_inputs hd)).1
          rw [effectsTo_of_dependency h hd]
          refine List.nodup_append.2 ⟨ih d hlt, by simp, ?_⟩
          rintro m hm m' hm' rfl
          have := le_of_mem_effectsTo h hm
          rw [List.mem_singleton.1 hm'] at this
          exact absurd hlt (Nat.not_lt.2 this)

theorem effectsTo_prefix (h : g.WellFormed) (hm : m ∈ g.effectsTo n) : g.effectsTo m <+: g.effectsTo n := by
  induction n using Nat.strongRecOn with
  | ind n ih =>
      obtain ⟨d, hd, hm | rfl⟩ := mem_effectsTo h hm
      · rw [effectsTo_of_dependency h hd]
        exact (ih d (input_lt h (dependency_mem_inputs hd)).1 hm).trans (List.prefix_append _ _)
      · exact List.prefix_rfl

/-- The effect that comes next is the one whose dependency has come and which has not. -/
theorem prefix_snoc (h : g.WellFormed) {last : NodeId} {past : List NodeId} (hpast : past <+: g.effectsTo last)
    (hn : n ∈ g.effectsTo last) (hnew : n ∉ past)
    (hdep : ∀ d, (g.kind? n).bind (·.effectDependency?) = some d → g.isEffect d = true → d ∈ past) :
    past ++ [n] <+: g.effectsTo last := by
  obtain ⟨d, hd⟩ := isEffect_iff.1 (isEffect_of_mem_effectsTo h hn)
  have hto := effectsTo_prefix h hn
  have heq := effectsTo_of_dependency h hd
  have hself : n ∈ g.effectsTo n := heq ▸ List.mem_append_right _ (List.mem_singleton_self n)
  have hbefore : past <+: g.effectsTo d := by
    rcases List.prefix_or_prefix_of_prefix hpast hto with hle | hle
    · rw [heq, List.prefix_concat_iff] at hle
      refine hle.resolve_left fun hall => hnew ?_
      rw [hall, ← heq]
      exact hself
    · exact absurd (hle.subset hself) hnew
  have hpast : past = g.effectsTo d := by
    cases hdd : (g.kind? d).bind (·.effectDependency?) with
    | none =>
        rw [effectsTo, hdd] at hbefore ⊢
        exact List.prefix_nil.1 hbefore
    | some c =>
        have hmem := hdep d hd (isEffect_iff.2 ⟨c, hdd⟩)
        rw [effectsTo_of_dependency h hdd] at hbefore ⊢
        rcases List.prefix_concat_iff.1 hbefore with hall | hle
        · exact hall
        · have hle' := le_of_mem_effectsTo h (hle.subset hmem)
          exact absurd (input_lt h (dependency_mem_inputs hdd)).1 (Nat.not_lt.2 hle')
  rw [hpast, ← heq]
  exact hto

theorem chain_eq_effectsTo {b : BlockId} (hn : n ∈ g.chain b) : ∃ last, g.chain b = g.effectsTo last := by
  rw [chain] at hn ⊢
  split at hn
  · exact ⟨_, rfl⟩
  · cases hn

theorem nodup_chain (h : g.WellFormed) (b : BlockId) : (g.chain b).Nodup := by
  rw [chain]
  split
  · exact nodup_effectsTo h
  · exact List.nodup_nil

theorem dependency_mem_terminator (t : TerminatorNode) : t.dependency ∈ t.inputs := by
  cases t with
  | ret value => cases value <;> exact List.mem_cons_self
  | goto | branch | unreachable | throw => exact List.mem_cons_self

theorem of_mem_chain (h : g.WellFormed) {b : BlockId} (hb : g.Reaches b) (hm : m ∈ g.chain b) :
    g.Needed m ∧ g.pinned? m = some b ∧ g.isEffect m = true := by
  rw [chain] at hm
  split at hm
  case h_2 => cases hm
  case h_1 d hd =>
    obtain ⟨n, hn, hd⟩ := Option.bind_eq_some_iff.1 hd
    have hn : g.terminator b = .ok n := by
      cases hterm : g.terminator b with
      | error e =>
          rw [hterm] at hn
          cases hn
      | ok n' =>
          rw [hterm] at hn
          cases hn
          rfl
    obtain ⟨x, t, hx, ht, hpinned⟩ := terminator_eq_ok h hn
    have hk : g.kind? n = some (.terminator t) := ht ▸ kind?_of_getElem? hx
    have hneeded : g.Needed n := .terminator hb hn
    refine ⟨?_, ?_, isEffect_of_mem_effectsTo h hm⟩
    · refine effectsTo_induction h (P := g.Needed) (hneeded.input ?_) ?_ m hm
      · rw [hk] at hd
        cases hd
        rw [inputs_of_kind hk]
        exact dependency_mem_terminator t
      · intro k c hk hc
        exact hk.input (dependency_mem_inputs hc)
    · refine effectsTo_induction h (P := fun k => g.pinned? k = some b) ?_ ?_ m hm
      · obtain ⟨c, hc, hc'⟩ := pinned?_dependency h hd
        rw [pinned?_of_getElem? hx, hpinned] at hc
        exact hc'.trans hc.symm
      · intro k c hk hc
        obtain ⟨e, he, he'⟩ := pinned?_effectDependency h hc
        rw [he', ← he, hk]

namespace Visits

variable {active ns ns' : List NodeId} {known known' known'' : Set NodeId}

theorem append (hv : Visits g active known ns known') (hv' : Visits g active known' ns' known'') :
    Visits g active known (ns ++ ns') known'' := by
  induction hv with
  | nil => exact hv'
  | known hn _ ih => exact .known hn (ih hv')
  | node hn hphi hactive hin _ _ ih => exact .node hn hphi hactive hin (ih hv')
  | phi hn hphi hin _ _ ih => exact .phi hn hphi hin (ih hv')

theorem split (hv : Visits g active known (ns ++ ns') known'') :
    ∃ known', Visits g active known ns known' ∧ Visits g active known' ns' known'' := by
  induction ns generalizing known with
  | nil => exact ⟨known, .nil, hv⟩
  | cons n ns ih =>
      cases hv with
      | known hn hv =>
          obtain ⟨known', hv₁, hv₂⟩ := ih hv
          exact ⟨known', .known hn hv₁, hv₂⟩
      | node hn hphi hactive hin hv =>
          obtain ⟨known', hv₁, hv₂⟩ := ih hv
          exact ⟨known', .node hn hphi hactive hin hv₁, hv₂⟩
      | phi hn hphi hin hv =>
          obtain ⟨known', hv₁, hv₂⟩ := ih hv
          exact ⟨known', .phi hn hphi hin hv₁, hv₂⟩

theorem nil_iff : Visits g active known [] known' ↔ known' = known := by
  constructor
  · intro hv
    cases hv
    rfl
  · rintro rfl
    exact .nil

theorem known_iff (hn : n ∈ known) : Visits g active known (n :: ns) known' ↔ Visits g active known ns known' := by
  refine ⟨fun hv => ?_, .known hn⟩
  cases hv with
  | known _ hv => exact hv
  | node hnot | phi hnot => exact absurd hn hnot

theorem node_iff (hn : n ∉ known) (hphi : g.phi? n = none) : Visits g active known (n :: ns) known'' ↔
    (g.isEffect n = true → n ∉ active) ∧ ∃ known', Visits g (n :: active) known (g.inputs n) known' ∧
      Visits g active (insert n known') ns known'' := by
  constructor
  · intro hv
    cases hv with
    | known hmem => exact absurd hmem hn
    | node _ _ hactive hin hrest => exact ⟨hactive, _, hin, hrest⟩
    | phi _ hsome => exact absurd hphi hsome
  · rintro ⟨hactive, known', hin, hrest⟩
    exact .node hn hphi hactive hin hrest

theorem phi_iff (hn : n ∉ known) (hphi : g.phi? n ≠ none) : Visits g active known (n :: ns) known'' ↔
    ∃ known', Visits g active (insert n known) ((g.phiInputs g.reachable n).map (·.2)) known' ∧
      Visits g active known' ns known'' := by
  constructor
  · intro hv
    cases hv with
    | known hmem => exact absurd hmem hn
    | node _ hnone => exact absurd hnone hphi
    | phi _ _ hin hrest => exact ⟨_, hin, hrest⟩
  · rintro ⟨known', hin, hrest⟩
    exact .phi hn hphi hin hrest

theorem append_iff : Visits g active known (ns ++ ns') known'' ↔
    ∃ known', Visits g active known ns known' ∧ Visits g active known' ns' known'' := by
  refine ⟨split, ?_⟩
  rintro ⟨known', hv, hv'⟩
  exact hv.append hv'

theorem of_known_iff (hns : ∀ n ∈ ns, n ∈ known) : Visits g active known ns known' ↔ known' = known := by
  induction ns with
  | nil => exact nil_iff
  | cons n ns ih =>
      rw [known_iff (hns n List.mem_cons_self)]
      exact ih fun m hm => hns m (List.mem_cons_of_mem _ hm)

theorem leaf_iff (hn : n ∉ known) (hphi : g.phi? n = none) (heffect : g.isEffect n = false) (hin : g.inputs n = []) :
    Visits g active known (n :: ns) known' ↔ Visits g active (insert n known) ns known' := by
  rw [node_iff hn hphi, hin]
  simp [heffect, nil_iff]

end Visits

theorem visits_of_visit {fuel : Nat} {active known ns known' : List NodeId}
    (hv : g.visit fuel active known ns = some known') :
    g.Visits active {n | n ∈ known} ns {n | n ∈ known'} := by
  induction fuel generalizing active known ns known' with
  | zero => cases hv
  | succ fuel ih =>
      have hinsert : ∀ (n : NodeId) (known : List NodeId),
          insert n {m | m ∈ known} = {m | m ∈ n :: known} := by
        intro n known
        ext m
        exact List.mem_cons.symm
      cases ns with
      | nil =>
          cases hv
          exact .nil
      | cons n ns =>
          rw [visit] at hv
          split at hv
          case isTrue hn => exact .known hn (ih hv)
          case isFalse hn =>
            split at hv
            case isTrue hphi =>
              obtain ⟨known₁, hin, hrest⟩ := Option.bind_eq_some_iff.1 hv
              refine .phi hn (Option.isSome_iff_ne_none.1 hphi) ?_ (ih hrest)
              rw [hinsert]
              exact ih hin
            case isFalse hphi =>
              split at hv
              case isTrue => cases hv
              case isFalse hactive =>
                obtain ⟨known₁, hin, hrest⟩ := Option.bind_eq_some_iff.1 hv
                refine .node hn (Option.not_isSome_iff_eq_none.1 hphi) ?_ (ih hin) ?_
                · intro heffect ha
                  exact hactive (by simp [heffect, ha])
                · rw [hinsert]
                  exact ih hrest

theorem effectsOnChains_of_all (h : g.WellFormed)
    (hall : ((List.range g.nodes.size).all fun n =>
      !g.isEffect n || g.reachable.any fun b => (g.chain b).contains n) = true) : g.EffectsOnChains := by
  intro n hn heffect
  have hany := List.all_eq_true.1 hall n (List.mem_range.2 (hn.lt h))
  rw [heffect, Bool.not_true, Bool.false_or, List.any_eq_true] at hany
  obtain ⟨b, hb, hmem⟩ := hany
  exact ⟨b, (mem_reachable h).1 hb, List.contains_iff_mem.1 hmem⟩

end Graph

end NativeBackend
