import NativeBackend.Proofs.Graph.Answers

namespace NativeBackend

namespace Schedule

variable {g : Graph} {s : Schedule} {p p' : Placement} {n : NodeId}

/-- Where queries for some nodes of a graph, the latest first, lead to. -/
inductive Asked (g : Graph) (s : Schedule) : List NodeId → Placement → Prop where
  | start : Asked g s [] s.placement
  | query {earlier : List NodeId} {n : NodeId} {p p' : Placement} {answer : Except Error BlockId} :
      Asked g s earlier p → n < g.nodes.size → blockForNode g s n p = some (answer, p') → Asked g s (n :: earlier) p'

theorem Asked.consistent (h : g.WellFormed) (hs : s.Prepared g) {earlier : List NodeId} (hp : Asked g s earlier p) :
    p.Consistent g := by
  induction hp with
  | start => exact hs.placement ▸ Placement.consistent_pinned h
  | query _ _ heq ih => exact (blockForNode_keeps h hs ih heq).consistent

theorem consistent_foldl_asked (h : g.WellFormed) (hs : s.Prepared g) (ns : List NodeId) (hp : p.Consistent g) :
    (ns.foldl (asked g s) p).Consistent g := by
  induction ns generalizing p with
  | nil => exact hp
  | cons n ns ih =>
      refine ih ?_
      rw [asked]
      split
      · rename_i heq
        exact (blockForNode_keeps h hs hp heq).consistent
      · exact hp

theorem known_foldl_asked (h : g.WellFormed) (hs : s.Prepared g)
    (hpinned : ∀ n b, g.Needed n → g.pinned? n = some b → g.Reaches b) {ns : List NodeId}
    (hns : ∀ n ∈ ns, n < g.nodes.size) (hp : p.Consistent g) :
    p.Later g (ns.foldl (asked g s) p) ∧ ∀ n ∈ ns, g.Needed n → (ns.foldl (asked g s) p).blockOf? n ≠ none := by
  induction ns generalizing p with
  | nil => exact ⟨.refl g p, fun n hn => nomatch hn⟩
  | cons n ns ih =>
      obtain ⟨b, p', hquery, hp', hlater, hb⟩ := answers h hs hpinned (hns n List.mem_cons_self) p hp
      have hasked : asked g s p n = p' := by rw [asked, hquery]
      obtain ⟨hlater', hknown⟩ := ih (fun m hm => hns m (List.mem_cons_of_mem _ hm)) hp'
      rw [List.foldl_cons, hasked]
      refine ⟨hlater.trans hlater', List.forall_mem_cons.2 ⟨fun hn => ?_, hknown⟩⟩
      exact hlater'.ne_none hn (by simp [hb])

/-- Blocks that need a node: the places of its needed users, and those that it flows into a phi from. -/
def UseAt (g : Graph) (place : NodeId → BlockId) (n : NodeId) (c : BlockId) : Prop :=
  (∃ u, g.Needed u ∧ n ∈ g.inputs u ∧ place u = c) ∨ ∃ u, g.Needed u ∧ (c, n) ∈ g.phiInputs g.reachable u

structure Spec (g : Graph) (s : Schedule) : Prop where
  reachable : s.reachable = g.reachable
  entry : s.dominators.entry = g.entry
  consistent : s.placement.Consistent g
  known : (∀ n b, g.Needed n → g.pinned? n = some b → g.Reaches b) →
    ∀ n, g.Needed n → s.placement.blockOf? n ≠ none

theorem compute_spec (h : g.WellFormed) (hs : compute g = .ok s) : Spec g s := by
  obtain ⟨s₀, hstart, heq⟩ := Steps.except_bind_eq_ok.1 hs
  cases heq
  have hs₀ := start_prepared h hstart
  have hp : s₀.placement.Consistent g := hs₀.placement ▸ Placement.consistent_pinned h
  refine ⟨hs₀.reachable, hs₀.dominators.entry, consistent_foldl_asked h hs₀ _ hp, fun hpinned n hn => ?_⟩
  exact (known_foldl_asked h hs₀ hpinned (fun m hm => List.mem_range.1 hm) hp).2 n (List.mem_range.2 (hn.lt h)) hn

namespace Spec

theorem blockOf_eq {b : BlockId} (hb : s.placement.blockOf? n = some b) : s.blockOf n = b := by
  rw [Schedule.blockOf, hb]
  rfl

theorem blockOf_of_pinned (hs : Spec g s) {b : BlockId} (hb : g.pinned? n = some b) : s.blockOf n = b :=
  blockOf_eq (hs.consistent.pinned n b hb)

theorem blockOf_lt (hs : Spec g s) (h : g.WellFormed) (n : NodeId) : s.blockOf n < g.blocks.size := by
  rw [Schedule.blockOf, hs.entry]
  cases hb : s.placement.blockOf? n with
  | none => exact h.entry
  | some b => exact hs.consistent.lt n b hb

/-- A needed floating node is placed in the nearest common dominator of its uses. -/
theorem floating (hs : Spec g s) (hpinned : ∀ n b, g.Needed n → g.pinned? n = some b → g.Reaches b)
    (hn : g.Needed n) (hfloat : g.pinned? n = none) : Nearest g.Dominates (UseAt g s.blockOf n) (s.blockOf n) := by
  obtain ⟨b, hb⟩ := Option.ne_none_iff_exists'.1 (hs.known hpinned n hn)
  rw [blockOf_eq hb]
  refine (hs.consistent.nearest n b hn hfloat hb).congr fun c => or_congr_left (exists_congr fun u => ?_)
  refine and_congr_right fun hu => and_congr_right fun _ => ?_
  obtain ⟨d, hd⟩ := Option.ne_none_iff_exists'.1 (hs.known hpinned u hu)
  rw [hd, blockOf_eq hd, Option.some.injEq]

theorem reaches_blockOf (hs : Spec g s) (h : g.WellFormed) (hu : g.Usable) (hn : g.Needed n) :
    g.Reaches (s.blockOf n) := by
  have hpinned := hu.reaches_of_pinned h
  obtain ⟨b, hb⟩ := Option.ne_none_iff_exists'.1 (hs.known hpinned n hn)
  rw [blockOf_eq hb]
  exact hs.consistent.reaches h hpinned hn hb

theorem dominates_blockOf (hs : Spec g s) (h : g.WellFormed) (hu : g.Usable) {n : NodeId}
    (hn : g.Needed n) (hfloat : g.pinned? n = none) {a : BlockId}
    (ha : ∀ c, g.UsedIn n c → g.Reaches c → g.Dominates a c) : g.Dominates a (s.blockOf n) := by
  induction hk : g.nodes.size - n using Nat.strongRecOn generalizing n with
  | ind k ih =>
      refine (hs.floating (hu.reaches_of_pinned h) hn hfloat).of_over_all a ?_
      rintro c (⟨u, hneeded, hin, rfl⟩ | ⟨u, hneeded, hin⟩)
      · cases hp : g.pinned? u with
        | some b =>
            rw [hs.blockOf_of_pinned hp]
            exact ha b (.node hp hin) ((hu.reaches h hneeded).1 b hp)
        | none =>
            have hnu := (Graph.input_lt h hin).1
            have hlt := hn.lt h
            exact ih (g.nodes.size - u) (hk ▸ Nat.sub_lt_sub_left hlt hnu) hneeded hp
              (fun c hc hreach => ha c (.floating hp hin hc) hreach) rfl
      · obtain ⟨hmem, p, hphi, hp⟩ := Graph.mem_phiInputs.1 hin
        exact ha c (.phiInput hphi hp) ((Graph.mem_reachable h).1 hmem)

theorem operand_dominates (hs : Spec g s) (h : g.WellFormed) (hu : g.Usable) {n i : NodeId}
    (hn : g.Needed n) (hi : i ∈ g.inputs n) : g.Dominates (s.blockOf i) (s.blockOf n) := by
  have hneeded := hn.input hi
  cases hp : g.pinned? i with
  | none => exact (hs.floating (hu.reaches_of_pinned h) hneeded hp).over_all _ (.inl ⟨n, hn, hi, rfl⟩)
  | some a =>
      rw [hs.blockOf_of_pinned hp]
      rcases hu.legal n hn i hi with hv | hd
      · cases hq : g.pinned? n with
        | some b =>
            rw [hs.blockOf_of_pinned hq]
            exact hu.pinned i a b hneeded hv hp (.node hq hi) ((hu.reaches h hn).1 b hq)
        | none =>
            exact hs.dominates_blockOf h hu hn hq fun c hc hreach =>
              hu.pinned i a c hneeded hv hp (.floating hq hi hc) hreach
      · obtain ⟨b, hb, hb'⟩ := Graph.pinned?_dependency h hd
        rw [hb'] at hp
        cases hp
        rw [hs.blockOf_of_pinned hb]
        exact Flow.dominates_refl _ _

theorem phiInput_dominates (hs : Spec g s) (h : g.WellFormed) (hu : g.Usable) {n v : NodeId}
    {b : BlockId} (hn : g.Needed n) (hv : (b, v) ∈ g.phiInputs g.reachable n) :
    g.Dominates (s.blockOf v) b := by
  have hneeded := hn.phiInput hv
  obtain ⟨hmem, p, hphi, hin⟩ := Graph.mem_phiInputs.1 hv
  cases hp : g.pinned? v with
  | none => exact (hs.floating (hu.reaches_of_pinned h) hneeded hp).over_all _ (.inr ⟨n, hn, hv⟩)
  | some a =>
      rw [hs.blockOf_of_pinned hp]
      exact hu.pinned v a b hneeded (hu.phiInput n v b hn hv) hp (.phiInput hphi hin)
        ((Graph.mem_reachable h).1 hmem)

end Spec

/-- In a finished graph whose needed pinned nodes are in blocks that the entry leads to, every query is answered, and
each needed floating value has one place, whatever was asked for before: the nearest block that dominates all its uses
by needed nodes. The places of floating values go down from operands to users. -/
theorem blockForNode_nearest {m : Method} {b : Builder} (hb : Builder.Built m b) (hg : b.finish = .ok g)
    (hpinned : ∀ n c, g.Needed n → g.pinned? n = some c → g.Reaches c) :
    ∃ s, start g = .ok s ∧
      (∀ earlier p, Asked g s earlier p → ∀ n < g.nodes.size, ∃ c p', blockForNode g s n p = some (.ok c, p')) ∧
      ∃ place : NodeId → BlockId, (∀ n c, g.pinned? n = some c → place n = c) ∧
        ∀ n, g.Needed n → g.pinned? n = none →
          (∀ earlier p, Asked g s earlier p → ∃ p', blockForNode g s n p = some (.ok (place n), p')) ∧
          Nearest g.Dominates (UseAt g place n) (place n) ∧
          (∀ u, g.Needed u → n ∈ g.inputs u → g.pinned? u = none → g.Dominates (place n) (place u)) ∧
          ∀ i ∈ g.inputs n, g.pinned? i = none → g.Dominates (place i) (place n) := by
  have h := hb.wellFormed hg
  obtain ⟨s, hstart⟩ := exists_start_eq_ok h (Builder.finish_eq_ok hg).2
  have hs := start_prepared h hstart
  have hspec : Spec g { s with placement := (List.range g.nodes.size).foldl (asked g s) s.placement } :=
    compute_spec h (Steps.except_bind_eq_ok.2 ⟨s, hstart, rfl⟩)
  refine ⟨s, hstart, fun earlier p hp n hn => ?_, _, fun n c => hspec.blockOf_of_pinned, fun n hn hfloat => ?_⟩
  · obtain ⟨c, p', hquery, -⟩ := answers h hs hpinned hn p (hp.consistent h hs)
    exact ⟨c, p', hquery⟩
  · have hnear := fun n => hspec.floating hpinned (n := n)
    refine ⟨fun earlier p hp => ?_, hnear n hn hfloat, fun u hu hin _ => ?_, fun i hi hfloat' => ?_⟩
    · obtain ⟨c, p', hquery, hp', -, hc⟩ := answers h hs hpinned (hn.lt h) p (hp.consistent h hs)
      obtain ⟨d, hd⟩ := Option.ne_none_iff_exists'.1 (hspec.known hpinned n hn)
      have hcd : c = d := hspec.consistent.agree hp' h hpinned hn hd hc
      exact ⟨p', by rw [hquery, hcd, Spec.blockOf_eq hd]⟩
    · exact (hnear n hn hfloat).over_all _ (.inl ⟨u, hu, hin, rfl⟩)
    · exact (hnear i (hn.input hi) hfloat').over_all _ (.inl ⟨n, hn, hi, rfl⟩)

end Schedule

namespace Example

def firstAnswer? (g : Graph) (n : NodeId) : Option BlockId :=
  match Schedule.start g with
  | .error _ => none
  | .ok s =>
    match Schedule.blockForNode g s n s.placement with
    | some (.ok b, _) => some b
    | _ => none

theorem eq_of_firstAnswer? {g : Graph} {s : Schedule} {n : NodeId} {b c : BlockId} (hs : Schedule.start g = .ok s)
    (h : ∃ p', Schedule.blockForNode g s n s.placement = some (.ok b, p')) (hfirst : firstAnswer? g n = some c) :
    b = c := by
  obtain ⟨p', hp'⟩ := h
  rw [firstAnswer?, hs] at hfirst
  simp only [hp'] at hfirst
  exact Option.some.inj hfirst

theorem tangled_pinned (n : NodeId) (c : BlockId) (_ : tangled.graph.Needed n)
    (hc : tangled.graph.pinned? n = some c) : tangled.graph.Reaches c :=
  Graph.reaches_of_pinned (tangled_built.wellFormed tangled_finish) (by cbv) hc

theorem tangled_needed : tangled.graph.Needed 11 ∧ tangled.graph.Needed 12 := by
  have hends : tangled.graph.terminator 2 = .ok 14 := by cbv
  have hbranch : tangled.graph.inputs 14 = [2, 13] := by cbv
  have hcmp : tangled.graph.inputs 13 = [10, 5] := by cbv
  have hphi : tangled.graph.phiInputs tangled.graph.reachable 10 = [(0, 11), (1, 12)] := by cbv
  have h14 : tangled.graph.Needed 14 := .terminator (mem_reachable_tangled.2 (by decide)) hends
  have h13 : tangled.graph.Needed 13 := .input h14 (hbranch ▸ by decide)
  have h10 : tangled.graph.Needed 10 := .input h13 (hcmp ▸ by decide)
  exact ⟨.phiInput h10 (b := 0) (hphi ▸ by decide), .phiInput h10 (b := 1) (hphi ▸ by decide)⟩

theorem blockForNode_nearest_of_tangled :
    (∀ n c, tangled.graph.Needed n → tangled.graph.pinned? n = some c → tangled.graph.Reaches c) ∧
    ∃ s, Schedule.start tangled.graph = .ok s ∧ tangled.graph.Needed 11 ∧ tangled.graph.Needed 12 ∧
      ∀ earlier p, Schedule.Asked tangled.graph s earlier p →
        (∃ p', Schedule.blockForNode tangled.graph s 11 p = some (.ok 0, p')) ∧
          ∃ p', Schedule.blockForNode tangled.graph s 12 p = some (.ok 1, p') := by
  obtain ⟨hneeded, hneeded'⟩ := tangled_needed
  obtain ⟨s, hstart, -, place, -, hplace⟩ :=
    Schedule.blockForNode_nearest tangled_built tangled_finish tangled_pinned
  obtain ⟨hsum, -⟩ := hplace 11 hneeded (by cbv)
  obtain ⟨hproduct, -⟩ := hplace 12 hneeded' (by cbv)
  have hentry : place 11 = 0 := eq_of_firstAnswer? hstart (hsum [] _ .start) (by cbv)
  have hleft : place 12 = 1 := eq_of_firstAnswer? hstart (hproduct [] _ .start) (by cbv)
  rw [hentry] at hsum
  rw [hleft] at hproduct
  exact ⟨tangled_pinned, s, hstart, hneeded, hneeded', fun earlier p hp => ⟨hsum earlier p hp, hproduct earlier p hp⟩⟩

end Example

end NativeBackend
