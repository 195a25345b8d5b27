import NativeBackend.Proofs.Graph.Uses

namespace NativeBackend

namespace Placement

variable {g : Graph} {p p' p'' : Placement} {n m : NodeId} {b c : BlockId}

theorem blockOf?_setIfInBounds (hn : n < p.size) (b : BlockId) (m : NodeId) :
    blockOf? (p.setIfInBounds n (some b)) m = if m = n then some b else p.blockOf? m :=
  Idoms.parent?_setIfInBounds hn b m

theorem blockOf?_setIfInBounds_ne_none (hn : n < p.size) (b : BlockId) :
    blockOf? (p.setIfInBounds n (some b)) n ≠ none := by
  rw [blockOf?_setIfInBounds hn, if_pos rfl]
  exact Option.some_ne_none b

/-- Pinned nodes are in their blocks, and all blocks exist. -/
structure Fits (g : Graph) (p : Placement) : Prop where
  size : p.size = g.nodes.size
  pinned : ∀ n b, g.pinned? n = some b → p.blockOf? n = some b
  lt : ∀ n b, p.blockOf? n = some b → b < g.blocks.size

theorem Fits.pinned?_eq_none (h : p.Fits g) (hn : p.blockOf? n = none) : g.pinned? n = none := by
  cases hp : g.pinned? n with
  | none => rfl
  | some b =>
      rw [h.pinned n b hp] at hn
      cases hn

theorem Fits.setIfInBounds (h : p.Fits g) (hfloat : g.pinned? n = none) (hb : b < g.blocks.size) :
    Fits g (p.setIfInBounds n (some b)) := by
  by_cases hn : n < p.size
  · refine ⟨by simpa using h.size, fun m c hc => ?_, fun m c hc => ?_⟩
    · rw [blockOf?_setIfInBounds hn, if_neg, h.pinned m c hc]
      rintro rfl
      rw [hfloat] at hc
      cases hc
    · rw [blockOf?_setIfInBounds hn] at hc
      split at hc
      · cases hc
        exact hb
      · exact h.lt m c hc
  · rwa [Array.setIfInBounds_eq_of_size_le (Nat.le_of_not_lt hn)]

theorem blockOf?_map_pinned (g : Graph) (n : NodeId) : blockOf? (g.nodes.map (·.pinned)) n = g.pinned? n := by
  rw [blockOf?, Array.getD_eq_getD_getElem?, Array.getElem?_map, Graph.pinned?]
  cases g.nodes[n]? <;> rfl

theorem fits_pinned (h : g.WellFormed) : Fits g (g.nodes.map (·.pinned)) := by
  refine ⟨Array.size_map, fun n b hb => (blockOf?_map_pinned g n).trans hb, fun n b hb => ?_⟩
  rw [blockOf?_map_pinned] at hb
  obtain ⟨x, hx, hb⟩ := Option.bind_eq_some_iff.1 hb
  exact (h.node n x hx).pinned b hb

def UseAt (g : Graph) (p : Placement) (n : NodeId) (c : BlockId) : Prop :=
  (∃ u, g.Needed u ∧ n ∈ g.inputs u ∧ p.blockOf? u = some c) ∨ ∃ u, g.Needed u ∧ (c, n) ∈ g.phiInputs g.reachable u

theorem useAt_congr (h : ∀ u, g.Needed u → n ∈ g.inputs u → p.blockOf? u = p'.blockOf? u) (c : BlockId) :
    p.UseAt g n c ↔ p'.UseAt g n c := by
  refine or_congr_left (exists_congr fun u => ⟨fun ⟨hu, hn, hc⟩ => ⟨hu, hn, ?_⟩, fun ⟨hu, hn, hc⟩ => ⟨hu, hn, ?_⟩⟩)
  · rw [← h u hu hn, hc]
  · rw [h u hu hn, hc]

/-- What is known of needed floating nodes is right: their users are known, and they are in the nearest block that
dominates all uses. -/
structure Consistent (g : Graph) (p : Placement) : Prop extends Fits g p where
  users : ∀ n b, g.Needed n → g.pinned? n = none → p.blockOf? n = some b →
    ∀ u, g.Needed u → n ∈ g.inputs u → p.blockOf? u ≠ none
  nearest : ∀ n b, g.Needed n → g.pinned? n = none → p.blockOf? n = some b → Nearest g.Dominates (p.UseAt g n) b

theorem consistent_pinned (h : g.WellFormed) : Consistent g (g.nodes.map (·.pinned)) := by
  refine ⟨fits_pinned h, fun n b _ hfloat hb => ?_, fun n b _ hfloat hb => ?_⟩
  all_goals
    rw [blockOf?_map_pinned, hfloat] at hb
    cases hb

/-- A block that a node may be put into: for a needed node, which its users come before, the nearest one that dominates
its uses. -/
structure Suits (g : Graph) (n : NodeId) (p : Placement) (b : BlockId) : Prop where
  lt : b < g.blocks.size
  unknown : g.Needed n → p.blockOf? n = none
  users : g.Needed n → ∀ u, g.Needed u → n ∈ g.inputs u → p.blockOf? u ≠ none
  nearest : g.Needed n → Nearest g.Dominates (p.UseAt g n) b

theorem Suits.of_not_needed (hb : b < g.blocks.size) (hn : ¬ g.Needed n) : p.Suits g n b :=
  ⟨hb, fun hn' => absurd hn' hn, fun hn' => absurd hn' hn, fun hn' => absurd hn' hn⟩

theorem Consistent.setIfInBounds (h : p.Consistent g) (hfloat : g.pinned? n = none) (hb : p.Suits g n b) :
    Consistent g (p.setIfInBounds n (some b)) := by
  by_cases hn : n < p.size
  case neg => rwa [Array.setIfInBounds_eq_of_size_le (Nat.le_of_not_lt hn)]
  have hset := blockOf?_setIfInBounds hn b
  have hsame : ∀ u, g.Needed u → p.blockOf? u ≠ none →
      p.blockOf? u = blockOf? (p.setIfInBounds n (some b)) u := by
    intro u hu hknown
    rw [hset, if_neg]
    rintro rfl
    exact hknown (hb.unknown hu)
  have husers : ∀ m c, g.Needed m → g.pinned? m = none → blockOf? (p.setIfInBounds n (some b)) m = some c →
      (∀ u, g.Needed u → m ∈ g.inputs u → p.blockOf? u ≠ none) ∧ Nearest g.Dominates (p.UseAt g m) c := by
    intro m c hm hfloat' hc
    rw [hset] at hc
    split at hc
    · rename_i heq
      cases hc
      subst heq
      exact ⟨hb.users hm, hb.nearest hm⟩
    · exact ⟨h.users m c hm hfloat' hc, h.nearest m c hm hfloat' hc⟩
  refine ⟨h.toFits.setIfInBounds hfloat hb.lt, fun m c hm hfloat' hc u hu hmu => ?_, fun m c hm hfloat' hc => ?_⟩
  · have hknown := (husers m c hm hfloat' hc).1 u hu hmu
    rwa [← hsame u hu hknown]
  · obtain ⟨hknown, hnear⟩ := husers m c hm hfloat' hc
    exact hnear.congr (useAt_congr fun u hu hmu => hsame u hu (hknown u hu hmu))

theorem Consistent.reaches (hp : p.Consistent g) (h : g.WellFormed)
    (hpinned : ∀ n b, g.Needed n → g.pinned? n = some b → g.Reaches b) (hn : g.Needed n)
    (hb : p.blockOf? n = some b) : g.Reaches b := by
  -- users come after their operands, so the induction goes from the last node downwards
  induction hk : g.nodes.size - n using Nat.strongRecOn generalizing n b with
  | ind k ih =>
      cases hfloat : g.pinned? n with
      | some c =>
          rw [hp.pinned n c hfloat] at hb
          cases hb
          exact hpinned n _ hn hfloat
      | none =>
          have hnear := hp.nearest n b hn hfloat hb
          rcases hn.exists_use h hfloat with ⟨u, hu, hin⟩ | ⟨c, u, hu, hin⟩
          · obtain ⟨c, hc⟩ := Option.ne_none_iff_exists'.1 (hp.users n b hn hfloat hb u hu hin)
            have hlt := Nat.sub_lt_sub_left (hn.lt h) (Graph.input_lt h hin).1
            exact (hnear.over_all c (.inl ⟨u, hu, hin, hc⟩)).reaches (ih _ (hk ▸ hlt) hu hc rfl)
          · have hc : g.Reaches c := (Graph.mem_reachable h).1 (Graph.mem_phiInputs.1 hin).1
            exact (hnear.over_all c (.inr ⟨u, hu, hin⟩)).reaches hc

/-- However they came about, two consistent placements agree on needed nodes. -/
theorem Consistent.agree (hp : p.Consistent g) (hp' : p'.Consistent g) (h : g.WellFormed)
    (hpinned : ∀ n b, g.Needed n → g.pinned? n = some b → g.Reaches b) (hn : g.Needed n)
    (hb : p.blockOf? n = some b) (hc : p'.blockOf? n = some c) : c = b := by
  induction hk : g.nodes.size - n using Nat.strongRecOn generalizing n b c with
  | ind k ih =>
      cases hfloat : g.pinned? n with
      | some d =>
          rw [hp.pinned n d hfloat] at hb
          rw [hp'.pinned n d hfloat] at hc
          cases hb
          cases hc
          rfl
      | none =>
          have hsame : ∀ u, g.Needed u → n ∈ g.inputs u → p.blockOf? u = p'.blockOf? u := by
            intro u hu hin
            obtain ⟨d, hd⟩ := Option.ne_none_iff_exists'.1 (hp.users n b hn hfloat hb u hu hin)
            obtain ⟨e, he⟩ := Option.ne_none_iff_exists'.1 (hp'.users n c hn hfloat hc u hu hin)
            have hlt := Nat.sub_lt_sub_left (hn.lt h) (Graph.input_lt h hin).1
            rw [hd, he, ih _ (hk ▸ hlt) hu hd he rfl]
          exact (hp.nearest n b hn hfloat hb).unique
            ((hp'.nearest n c hn hfloat hc).congr fun d => (useAt_congr hsame d).symm) (hp.reaches h hpinned hn hb)

def Later (g : Graph) (p p' : Placement) : Prop := ∀ n b, g.Needed n → p.blockOf? n = some b → p'.blockOf? n = some b

theorem Later.refl (g : Graph) (p : Placement) : Later g p p := fun _ _ _ hb => hb

theorem Later.trans (h : Later g p p') (h' : Later g p' p'') : Later g p p'' :=
  fun n b hn hb => h' n b hn (h n b hn hb)

theorem Later.ne_none (h : Later g p p') (hn : g.Needed n) (hknown : p.blockOf? n ≠ none) : p'.blockOf? n ≠ none := by
  obtain ⟨b, hb⟩ := Option.ne_none_iff_exists'.1 hknown
  simp [h n b hn hb]

theorem later_setIfInBounds (hn : n < p.size) (b : BlockId) (hplace : g.Needed n → p.blockOf? n = none) :
    Later g p (p.setIfInBounds n (some b)) := by
  intro m c hm hc
  rw [blockOf?_setIfInBounds hn, if_neg]
  · exact hc
  · rintro rfl
    rw [hplace hm] at hc
    cases hc

end Placement

namespace Schedule

variable {g : Graph} {s : Schedule} {p : Placement} {n u : NodeId} {b c : BlockId}

theorem mem_pendingUsers : u ∈ s.pendingUsers n p ↔ .node u ∈ s.usesOf n ∧ p.blockOf? u = none := by
  rw [pendingUsers, List.mem_filterMap]
  constructor
  · rintro ⟨w, hw, heq⟩
    cases w with
    | node m =>
        simp only [Option.ite_none_left_eq_some, Option.not_isSome_iff_eq_none, Option.some.injEq] at heq
        obtain ⟨hnone, rfl⟩ := heq
        exact ⟨hw, hnone⟩
    | phiInput b => cases heq
  · rintro ⟨hu, hnone⟩
    exact ⟨_, hu, by simp [hnone]⟩

section Prepared

variable (h : g.WellFormed) (hs : s.Prepared g)

include hs in
theorem node_mem_usesOf : .node u ∈ s.usesOf n ↔ g.Needed u ∧ n ∈ g.inputs u := by
  rw [hs.mem_usesOf]
  constructor
  · rintro ⟨m, hm, hmu⟩
    rcases Graph.mem_usesBy.1 hmu with ⟨heq, hin⟩ | ⟨b, heq, -⟩
    · cases heq
      exact ⟨hm, hin⟩
    · cases heq
  · rintro ⟨hu, hin⟩
    exact ⟨u, hu, Graph.mem_usesBy.2 (.inl ⟨rfl, hin⟩)⟩

include hs in
theorem mem_useBlock {c : BlockId} : (∃ u ∈ s.usesOf n, useBlock n p u = .ok c) ↔ p.UseAt g n c := by
  constructor
  · rintro ⟨w, hw, hc⟩
    obtain ⟨m, hm, hmw⟩ := (hs.mem_usesOf n w).1 hw
    rcases Graph.mem_usesBy.1 hmw with ⟨rfl, hin⟩ | ⟨b, rfl, hin⟩
    · rw [useBlock] at hc
      split at hc
      · rename_i d hd
        cases hc
        exact .inl ⟨m, hm, hin, hd⟩
      · cases hc
    · cases hc
      exact .inr ⟨m, hm, hin⟩
  · rintro (⟨u, hu, hin, hc⟩ | ⟨u, hu, hin⟩)
    · exact ⟨.node u, (node_mem_usesOf hs).2 ⟨hu, hin⟩, by rw [useBlock, hc]⟩
    · exact ⟨.phiInput c, (hs.mem_usesOf n _).2 ⟨u, hu, Graph.mem_usesBy.2 (.inr ⟨c, rfl, hin⟩)⟩, rfl⟩

/-- Whatever a request ends with, the placement is consistent. A block that it finds is as it should be. -/
structure Keeps (g : Graph) (Q : Placement → BlockId → Prop) (answer : Except Error BlockId × Placement) : Prop where
  consistent : answer.2.Consistent g
  found : ∀ b, answer.1 = .ok b → Q answer.2 b

variable {Q : Placement → BlockId → Prop}

theorem Keeps.ok (hp : p.Consistent g) (hb : Q p b) : Keeps g Q (.ok b, p) where
  consistent := hp
  found c hc := by
    cases hc
    exact hb

theorem Keeps.error (hp : p.Consistent g) (e : Error) : Keeps g Q (.error e, p) where
  consistent := hp
  found b hb := by cases hb

include h hs in
theorem suits_of_joinAll? (hp : p.Consistent g) (hnone : p.blockOf? n = none) (hpending : s.pendingUsers n p = [])
    {blocks : List BlockId} (hblocks : (s.usesOf n).mapM (useBlock n p) = .ok blocks)
    (hjoin : joinAll? s.dominators.commonDominator blocks = some (some b)) : p.Suits g n b := by
  have hmem : ∀ c, c ∈ blocks ↔ p.UseAt g n c := fun c => (Steps.mem_of_mapM_eq_ok hblocks).trans (mem_useBlock hs)
  have hlt : ∀ c ∈ blocks, c < g.blocks.size := by
    intro c hc
    rcases (hmem c).1 hc with ⟨u, -, -, hu⟩ | ⟨u, -, hin⟩
    · exact hp.lt u c hu
    · exact ((Graph.mem_reachable h).1 (Graph.mem_phiInputs.1 hin).1).lt h
  have hpair : ∀ {a a' c : BlockId}, a < g.blocks.size → a' < g.blocks.size →
      s.dominators.commonDominator a a' = some c →
        c < g.blocks.size ∧ Nearest g.Dominates (fun d => d = a ∨ d = a') c := by
    intro a a' c ha _ hc
    obtain ⟨rfl | hr, hnear⟩ := hs.dominators.nearest_of_commonDominator hc
    · exact ⟨ha, hnear⟩
    · exact ⟨hr.lt h, hnear⟩
  obtain ⟨hb, hnear⟩ := nearest_of_joinAll? (Flow.dominates_refl g.flow) Flow.Dominates.trans hpair hjoin hlt
  refine ⟨hb, fun _ => hnone, fun _ u hu hin hu' => ?_, fun _ => hnear.congr hmem⟩
  have hpend := mem_pendingUsers.2 ⟨(node_mem_usesOf hs).2 ⟨hu, hin⟩, hu'⟩
  rw [hpending] at hpend
  cases hpend

include h hs in
theorem not_needed_of_joinAll? (hfloat : g.pinned? n = none) {blocks : List BlockId}
    (hblocks : (s.usesOf n).mapM (useBlock n p) = .ok blocks)
    (hjoin : joinAll? s.dominators.commonDominator blocks = some none) : ¬ g.Needed n := by
  have huses : s.usesOf n = [] := by
    cases huses : s.usesOf n with
    | nil => rfl
    | cons u us =>
        rw [huses, List.mapM_cons] at hblocks
        obtain ⟨c, -, hblocks⟩ := Steps.except_bind_eq_ok.1 hblocks
        obtain ⟨cs, -, hblocks⟩ := Steps.except_bind_eq_ok.1 hblocks
        cases hblocks
        obtain ⟨d, -, hd⟩ := Option.map_eq_some_iff.1 hjoin
        cases hd
  intro hn
  rcases hn.exists_use h hfloat with ⟨u, hu, hin⟩ | ⟨c, u, hu, hin⟩
  · have hmem := (node_mem_usesOf hs).2 ⟨hu, hin⟩
    rw [huses] at hmem
    cases hmem
  · have hmem := (hs.mem_usesOf n _).2 ⟨u, hu, Graph.mem_usesBy.2 (.inr ⟨c, rfl, hin⟩)⟩
    rw [huses] at hmem
    cases hmem

include h hs in
/-- Queries keep a placement consistent, whatever they are answered. -/
theorem blockForNode_keeps (hp : p.Consistent g) {answer : Except Error BlockId × Placement}
    (heq : blockForNode g s n p = some answer) : Keeps g (fun p b => p.blockOf? n = some b) answer := by
  refine blockForNode.partial_correctness g s
    (fun n p answer => p.Consistent g → Keeps g (fun p b => p.blockOf? n = some b) answer)
    (fun _ p answer => p.Consistent g → answer.2.Consistent g)
    (fun n p answer => p.Consistent g → p.blockOf? n = none → s.pendingUsers n p = [] →
      Keeps g (fun p b => p.Suits g n b) answer)
    (fun _ best p answer => best < g.blocks.size → p.Consistent g → Keeps g (fun _ b => b < g.blocks.size) answer)
    ?_ ?_ ?_ ?_ n p answer heq hp
  · intro drain ihDrain n p answer heq hp
    split at heq
    case h_1 b hb =>
      cases heq
      exact .ok hp hb
    case h_2 =>
      obtain ⟨⟨r, p'⟩, hdrain, heq⟩ := Option.bind_eq_some_iff.1 heq
      have hp' := ihDrain _ _ _ hdrain hp
      cases r with
      | error e =>
          cases heq
          exact .error hp' e
      | ok _ =>
          simp only at heq
          split at heq
          case h_1 b hb =>
            cases heq
            exact .ok hp' hb
          case h_2 =>
            cases heq
            exact .error hp' _
  · intro drain place ihDrain ihPlace stack p answer heq hp
    split at heq
    case h_1 =>
      cases heq
      exact hp
    case h_2 n rest =>
      split at heq
      · exact ihDrain _ _ _ heq hp
      · rename_i hknown
        have hnone : p.blockOf? n = none := by simpa using hknown
        split at heq
        case h_1 hpending =>
          obtain ⟨⟨r, p'⟩, hplace, heq⟩ := Option.bind_eq_some_iff.1 heq
          have hplaced := ihPlace _ _ _ hplace hp hnone hpending
          cases r with
          | error e =>
              cases heq
              exact hplaced.consistent
          | ok b =>
              exact ihDrain _ _ _ heq
                (hplaced.consistent.setIfInBounds (hp.pinned?_eq_none hnone) (hplaced.found b rfl))
        case h_2 => exact ihDrain _ _ _ heq hp
  · intro placeEarly ihEarly n p answer heq hp hnone hpending
    split at heq
    case h_1 e _ =>
      cases heq
      exact .error hp e
    case h_2 blocks hblocks =>
      obtain ⟨found, hjoin, heq⟩ := Option.bind_eq_some_iff.1 heq
      cases found with
      | none =>
          have hearly := ihEarly _ _ _ _ heq h.entry hp
          have hunneeded := not_needed_of_joinAll? h hs (hp.pinned?_eq_none hnone) hblocks hjoin
          exact ⟨hearly.consistent, fun b hb => .of_not_needed (hearly.found b hb) hunneeded⟩
      | some b =>
          cases heq
          exact .ok hp (suits_of_joinAll? h hs hp hnone hpending hblocks hjoin)
  · intro blockForNode placeEarly ihQuery ihEarly inputs best p answer heq hbest hp
    split at heq
    case h_1 =>
      cases heq
      exact .ok hp hbest
    case h_2 i inputs =>
      obtain ⟨⟨r, p'⟩, hquery, heq⟩ := Option.bind_eq_some_iff.1 heq
      have hasked := ihQuery _ _ _ hquery hp
      cases r with
      | error e =>
          cases heq
          exact .error hasked.consistent e
      | ok b =>
          refine ihEarly _ _ _ _ heq ?_ hasked.consistent
          split
          · exact hasked.consistent.lt i b (hasked.found b rfl)
          · exact hbest

end Prepared

end Schedule

end NativeBackend
