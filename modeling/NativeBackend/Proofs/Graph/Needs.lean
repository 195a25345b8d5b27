import NativeBackend.Graph.Schedule
import NativeBackend.Proofs.Graph.Dominators

namespace NativeBackend

namespace Graph

/-- Nodes that the terminators of blocks that the entry leads to need, directly or not. -/
inductive Needed (g : Graph) : NodeId → Prop where
  | terminator {b : BlockId} {n : NodeId} : g.Reaches b → g.terminator b = .ok n → Needed g n
  | input {n i : NodeId} : Needed g n → i ∈ g.inputs n → Needed g i
  | phiInput {n v : NodeId} {b : BlockId} : Needed g n → (b, v) ∈ g.phiInputs g.reachable n → Needed g v

/-- Blocks that a node is used in: by a node pinned there, by a phi that takes it from there, or
through floating values. -/
inductive UsedIn (g : Graph) : NodeId → BlockId → Prop where
  | node {n u : NodeId} {b : BlockId} : g.pinned? u = some b → n ∈ g.inputs u → UsedIn g n b
  | phiInput {n u : NodeId} {p : PhiData} {b : BlockId} : g.phi? u = some p →
      p.incomingFrom? b = some n → UsedIn g n b
  | floating {n u : NodeId} {b : BlockId} : g.pinned? u = none → n ∈ g.inputs u → UsedIn g u b →
      UsedIn g n b

def PinnedDominateUses (g : Graph) : Prop :=
  ∀ n v b c, g.kind? n = some (.value v) → g.pinned? n = some b → g.UsedIn n c → g.Reaches c →
    g.Dominates b c

/-- All that a node needs is a value, but for the effect that comes before. -/
def Legal (g : Graph) (n : NodeId) : Prop :=
  ∀ m ∈ g.inputs n, g.isValue m = true ∨ (g.kind? n).bind (·.dependency?) = some m

/-- What lowering relies on: effects hang on effects, everything else on values, and pinned values
dominate the blocks that use them. -/
structure Usable (g : Graph) : Prop where
  legal : ∀ n, g.Needed n → g.Legal n
  phiInput : ∀ (n v : NodeId) (b : BlockId), g.Needed n → (b, v) ∈ g.phiInputs g.reachable n →
    g.isValue v = true
  pinned : ∀ (n : NodeId) (b c : BlockId), g.Needed n → g.isValue n = true → g.pinned? n = some b →
    g.UsedIn n c → g.Reaches c → g.Dominates b c

variable {g : Graph}

theorem isValue_iff {n : NodeId} : g.isValue n = true ↔ ∃ v, g.kind? n = some (.value v) := by
  rw [isValue]
  split
  case h_1 v hv => simp [hv]
  case h_2 h =>
    simp only [Bool.false_eq_true, false_iff, not_exists]
    exact h

theorem inputs_of_kind {n : NodeId} {k : NodeKind} (h : g.kind? n = some k) : g.inputs n = k.inputs := by
  rw [inputs, h]
  rfl

theorem exists_of_mem_inputs {n i : NodeId} (h : i ∈ g.inputs n) :
    ∃ x, g.nodes[n]? = some x ∧ i ∈ x.kind.inputs := by
  rw [inputs, kind?] at h
  cases hx : g.nodes[n]? with
  | none =>
      rw [hx] at h
      cases h
  | some x =>
      rw [hx] at h
      exact ⟨x, rfl, h⟩

theorem input_lt (h : g.WellFormed) {n i : Nat} (hi : i ∈ g.inputs n) : i < n ∧ n < g.nodes.size := by
  obtain ⟨x, hx, hmem⟩ := exists_of_mem_inputs hi
  exact ⟨(h.node n x hx).inputs i hmem, (Array.getElem?_eq_some_iff.1 hx).1⟩

theorem mem_phiInputs {reachable : List BlockId} {n v : NodeId} {b : BlockId} :
    (b, v) ∈ g.phiInputs reachable n ↔
      b ∈ reachable ∧ ∃ p, g.phi? n = some p ∧ p.incomingFrom? b = some v := by
  rw [phiInputs]
  cases g.phi? n with
  | none => simp
  | some p =>
      simp only [List.mem_filterMap, Option.map_eq_some_iff, Prod.mk.injEq, Option.some.injEq,
        exists_eq_left']
      constructor
      · rintro ⟨c, hc, w, hw, rfl, rfl⟩
        exact ⟨hc, hw⟩
      · rintro ⟨hb, hv⟩
        exact ⟨b, hb, v, hv, rfl, rfl⟩

theorem phi?_eq_some {n : NodeId} {p : PhiData} (h : g.phi? n = some p) :
    ∃ type t, g.kind? n = some (.value ⟨type, .phi t⟩) ∧ g.phis[t]? = some p := by
  rw [phi?] at h
  split at h
  case h_1 type t hk => exact ⟨type, t, hk, h⟩
  case h_2 => cases h

theorem phiInput_lt (h : g.WellFormed) {reachable : List BlockId} {n v : NodeId} {b : BlockId}
    (hv : (b, v) ∈ g.phiInputs reachable n) : v < g.nodes.size := by
  obtain ⟨-, p, hp, hin⟩ := mem_phiInputs.1 hv
  obtain ⟨type, t, -, ht⟩ := phi?_eq_some hp
  have hmem : (b, v) ∈ p.incoming := by
    have hlookup := List.lookup_eq_some_iff.1 hin
    obtain ⟨l₁, l₂, heq, -⟩ := hlookup
    rw [heq]
    exact List.mem_append_right _ List.mem_cons_self
  exact (h.incoming t p ht _ hmem).2

theorem terminator_eq_ok (h : g.WellFormed) {b : BlockId} {n : NodeId} (hn : g.terminator b = .ok n) :
    ∃ x t, g.nodes[n]? = some x ∧ x.kind = .terminator t ∧ x.pinned = some b := by
  rw [terminator] at hn
  split at hn
  case h_2 => cases hn
  case h_1 m hm =>
    cases hn
    obtain ⟨d, hd, ht⟩ := Option.bind_eq_some_iff.1 hm
    exact (h.block b d hd).terminator _ ht

theorem kind?_of_getElem? {n : NodeId} {x : Node} (h : g.nodes[n]? = some x) : g.kind? n = some x.kind := by
  rw [kind?, h]
  rfl

theorem pinned?_of_getElem? {n : NodeId} {x : Node} (h : g.nodes[n]? = some x) : g.pinned? n = x.pinned := by
  rw [pinned?, h]
  rfl

theorem pinned?_dependency (h : g.WellFormed) {n d : NodeId}
    (hd : (g.kind? n).bind (·.dependency?) = some d) : ∃ b, g.pinned? n = some b ∧ g.pinned? d = some b := by
  obtain ⟨k, hk, hdep⟩ := Option.bind_eq_some_iff.1 hd
  obtain ⟨x, hx, rfl⟩ := Option.map_eq_some_iff.1 hk
  obtain ⟨y, hy, hpinned, -⟩ := (h.node n x hx).dependency d hdep
  rw [pinned?_of_getElem? hx, pinned?_of_getElem? hy, hpinned]
  cases hb : x.pinned with
  | some b => exact ⟨b, rfl, rfl⟩
  | none =>
      obtain ⟨⟨type, op⟩, hv, hpure⟩ := (h.node n x hx).floats.1 hb
      rw [hv] at hdep
      cases op <;> simp_all [ValueOp.isPure, NodeKind.effectDependency?]

theorem reaches_of_pinned (h : g.WellFormed) (hall : g.reachable = List.range g.blocks.size) {n : NodeId} {b : BlockId}
    (hb : g.pinned? n = some b) : g.Reaches b := by
  obtain ⟨x, hx, hpin⟩ := Option.bind_eq_some_iff.1 hb
  exact (mem_reachable h).1 (hall ▸ List.mem_range.2 ((h.node n x hx).pinned b hpin))

theorem phi?_of_kind (h : g.WellFormed) {n : NodeId} {type : Ty} {table : PhiId}
    (hk : g.kind? n = some (.value ⟨type, .phi table⟩)) :
    ∃ p, g.phi? n = some p ∧ g.pinned? n = some p.block := by
  obtain ⟨node, hnode, hkind⟩ := Option.map_eq_some_iff.1 hk
  obtain ⟨p, hp, -, hpinned⟩ := (h.node n node hnode).phi type table hkind
  refine ⟨p, ?_, (pinned?_of_getElem? hnode).trans hpinned⟩
  rw [phi?, hk]
  exact hp

theorem Needed.lt (h : g.WellFormed) {n : NodeId} (hn : g.Needed n) : n < g.nodes.size := by
  cases hn with
  | terminator _ hn =>
      obtain ⟨x, t, hx, -⟩ := terminator_eq_ok h hn
      exact (Array.getElem?_eq_some_iff.1 hx).1
  | input _ hi =>
      obtain ⟨hlt, hlt'⟩ := input_lt h hi
      exact Nat.lt_trans hlt hlt'
  | phiInput _ hv => exact phiInput_lt h hv

theorem Needed.exists_use (h : g.WellFormed) {n : NodeId} (hn : g.Needed n) (hfloat : g.pinned? n = none) :
    (∃ u, g.Needed u ∧ n ∈ g.inputs u) ∨ ∃ c u, g.Needed u ∧ (c, n) ∈ g.phiInputs g.reachable u := by
  cases hn with
  | terminator _ hterm =>
      obtain ⟨x, t, hx, -, hp⟩ := terminator_eq_ok h hterm
      rw [pinned?_of_getElem? hx, hp] at hfloat
      cases hfloat
  | input hm hin => exact .inl ⟨_, hm, hin⟩
  | phiInput hm hin => exact .inr ⟨_, _, hm, hin⟩

theorem Usable.reaches (hu : g.Usable) (h : g.WellFormed) {n : NodeId} (hn : g.Needed n) :
    (∀ b, g.pinned? n = some b → g.Reaches b) ∧ (g.pinned? n = none → ∃ c, g.Reaches c ∧ g.UsedIn n c) := by
  have hused : ∀ i c, g.Needed i → g.isValue i = true → g.UsedIn i c → g.Reaches c →
      (∀ b, g.pinned? i = some b → g.Reaches b) ∧ (g.pinned? i = none → ∃ c, g.Reaches c ∧ g.UsedIn i c) := by
    intro i c hi hv huse hc
    exact ⟨fun b hb => (hu.pinned i b c hi hv hb huse hc).reaches hc, fun _ => ⟨c, hc, huse⟩⟩
  induction hn with
  | @terminator b n hb hn =>
      obtain ⟨x, t, hx, -, hpinned⟩ := terminator_eq_ok h hn
      rw [pinned?_of_getElem? hx, hpinned]
      refine ⟨?_, nofun⟩
      rintro _ ⟨⟩
      exact hb
  | @input n i hn hi ih =>
      rcases hu.legal n hn i hi with hv | hd
      · cases hpinned : g.pinned? n with
        | some b => exact hused i b (hn.input hi) hv (.node hpinned hi) (ih.1 b hpinned)
        | none =>
            obtain ⟨c, hc, huse⟩ := ih.2 hpinned
            exact hused i c (hn.input hi) hv (.floating hpinned hi huse) hc
      · obtain ⟨b, hb, hb'⟩ := pinned?_dependency h hd
        rw [hb']
        refine ⟨?_, nofun⟩
        rintro _ ⟨⟩
        exact ih.1 b hb
  | @phiInput n v b hn hv ih =>
      obtain ⟨hb, p, hp, hin⟩ := mem_phiInputs.1 hv
      exact hused v b (hn.phiInput hv) (hu.phiInput n v b hn hv) (.phiInput hp hin) ((mem_reachable h).1 hb)

theorem Usable.reaches_of_pinned (hu : g.Usable) (h : g.WellFormed) (n : NodeId) (b : BlockId) (hn : g.Needed n)
    (hb : g.pinned? n = some b) : g.Reaches b :=
  (hu.reaches h hn).1 b hb

def placesOperands (g : Graph) (place : NodeId → BlockId) : Bool :=
  match DominatorTree.compute g with
  | none => false
  | some t =>
    let dominates a b := !g.reachable.contains b || t.dominates a b == some true
    (List.range g.nodes.size).all fun n =>
      (g.pinned? n).all (· == place n) && (g.inputs n).all (fun i => dominates (place i) (place n)) &&
        ((g.phi? n).toList.flatMap (·.incoming)).all fun (b, v) => dominates (place v) b

theorem pinnedDominateUses_of_placesOperands (h : g.WellFormed) (place : NodeId → BlockId)
    (hplace : g.placesOperands place = true) : g.PinnedDominateUses := by
  obtain ⟨t, hcompute, ht⟩ := DominatorTree.compute_eq_some h.closed
  rw [placesOperands, hcompute] at hplace
  rw [List.all_eq_true] at hplace
  have hdom : ∀ {a b : BlockId}, (!g.reachable.contains b || t.dominates a b == some true) = true →
      g.Dominates a b := by
    intro a b hab visited hp
    have hb : g.Reaches b := reaches_iff_path.2 ⟨visited, hp⟩
    rw [List.contains_iff_mem.2 ((mem_reachable h).2 hb), Bool.not_true, Bool.false_or, beq_iff_eq] at hab
    obtain ⟨answer, hanswer, hiff⟩ := ht.dominates_eq_some hb a
    rw [hab] at hanswer
    cases hanswer
    exact hiff.1 rfl visited hp
  have hnode : ∀ {n : NodeId} {x : Node}, g.nodes[n]? = some x → _ := fun hx =>
    hplace _ (List.mem_range.2 (Array.getElem?_eq_some_iff.1 hx).1)
  simp only [Bool.and_eq_true, List.all_eq_true] at hnode
  have hpinned : ∀ {n b}, g.pinned? n = some b → place n = b := by
    intro n b hb
    obtain ⟨x, hx, -⟩ := Option.bind_eq_some_iff.1 hb
    have := (hnode hx).1.1
    rw [hb] at this
    simpa using (beq_iff_eq.1 this).symm
  have huse : ∀ {n c}, g.UsedIn n c → g.Dominates (place n) c := by
    intro n c hc
    induction hc with
    | @node n u b hu hin =>
        obtain ⟨x, hx, -⟩ := exists_of_mem_inputs hin
        exact hpinned hu ▸ hdom ((hnode hx).1.2 n hin)
    | @phiInput n u p b hp hin =>
        obtain ⟨type, t, hk, -⟩ := phi?_eq_some hp
        obtain ⟨x, hx, -⟩ := Option.map_eq_some_iff.1 hk
        refine hdom ((hnode hx).2 (b, n) ?_)
        obtain ⟨l₁, l₂, heq, -⟩ := List.lookup_eq_some_iff.1 hin
        simp [hp, heq]
    | @floating n u b _ hin _ ih =>
        obtain ⟨x, hx, -⟩ := exists_of_mem_inputs hin
        exact (hdom ((hnode hx).1.2 n hin)).trans ih
  intro n v b c _ hb hc _
  exact hpinned hb ▸ huse hc

theorem mem_liveNodes (h : g.WellFormed) {terminators : List NodeId}
    (hterm : ∀ n, n ∈ terminators ↔ ∃ b, g.Reaches b ∧ g.terminator b = .ok n) {n : NodeId} :
    n ∈ g.liveNodes g.reachable terminators ↔ g.Needed n := by
  rw [liveNodes, mem_reachableFrom]
  · constructor
    · intro hl
      induction hl with
      | start hmem =>
          obtain ⟨b, hb, hn⟩ := (hterm _).1 hmem
          exact .terminator hb hn
      | step _ hmem ih =>
          rcases List.mem_append.1 hmem with hmem | hmem
          · exact ih.input hmem
          · obtain ⟨⟨b, v⟩, hv, rfl⟩ := List.mem_map.1 hmem
            exact ih.phiInput hv
    · intro hn
      induction hn with
      | terminator hb hn => exact .start ((hterm _).2 ⟨_, hb, hn⟩)
      | input _ hi ih => exact .step ih (List.mem_append_left _ hi)
      | phiInput _ hv ih => exact .step ih (List.mem_append_right _ (List.mem_map_of_mem hv))
  · intro n hn
    obtain ⟨b, hb, hn⟩ := (hterm n).1 hn
    exact (Needed.terminator hb hn).lt h
  · intro n _ i hi
    rcases List.mem_append.1 hi with hi | hi
    · obtain ⟨hlt, hlt'⟩ := input_lt h hi
      exact Nat.lt_trans hlt hlt'
    · obtain ⟨⟨b, v⟩, hv, rfl⟩ := List.mem_map.1 hi
      exact phiInput_lt h hv

end Graph

end NativeBackend
