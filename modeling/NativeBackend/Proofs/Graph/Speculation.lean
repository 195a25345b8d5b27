import NativeBackend.Proofs.Graph.Placement

namespace NativeBackend

namespace Graph

/-- Blocks that need a node: where needed nodes that use it are pinned, where it leaves for a needed phi, and what needs
floating values that use it. -/
inductive NeededIn (g : Graph) : NodeId → BlockId → Prop where
  | node {n u : NodeId} {b : BlockId} : g.Needed u → g.pinned? u = some b → n ∈ g.inputs u → NeededIn g n b
  | phiInput {n u : NodeId} {b : BlockId} : g.Needed u → (b, n) ∈ g.phiInputs g.reachable u → NeededIn g n b
  | floating {n u : NodeId} {b : BlockId} : g.Needed u → g.pinned? u = none → n ∈ g.inputs u → NeededIn g u b →
      NeededIn g n b

/-- Control has gone from the entry to a block that it does not leave. -/
def Completed (g : Graph) (visited : List BlockId) : Prop := ∃ b, g.flow.Path visited b ∧ g.successors b = []

/-- Control never goes through a block to an end without a block that needs a node. -/
def Anticipated (g : Graph) (n : NodeId) (b : BlockId) : Prop :=
  ∀ visited, g.Completed visited → b ∈ visited → ∃ c ∈ visited, g.NeededIn n c

variable {g : Graph} {n : NodeId} {b c d : BlockId} {visited : List BlockId}

theorem NeededIn.usedIn (h : g.NeededIn n b) : g.UsedIn n b := by
  induction h with
  | node _ hp hin => exact .node hp hin
  | phiInput _ hin =>
      obtain ⟨-, p, hphi, hfrom⟩ := mem_phiInputs.1 hin
      exact .phiInput hphi hfrom
  | floating _ hp hin _ ih => exact .floating hp hin ih

theorem NeededIn.anticipated (h : g.NeededIn n b) : g.Anticipated n b := fun _ _ hb => ⟨b, hb, h⟩

theorem Completed.mem_of_dominates (h : g.Completed visited) (hdb : g.Dominates d b) (hb : b ∈ visited) :
    d ∈ visited := by
  obtain ⟨c, hp, -⟩ := h
  obtain ⟨visited', hp', hsuffix⟩ := hp.cut hb
  exact hsuffix.subset (hdb visited' hp')

theorem Anticipated.of_dominates (h : g.Anticipated n d) (hdb : g.Dominates d b) : g.Anticipated n b :=
  fun visited hv hb => h visited hv (hv.mem_of_dominates hdb hb)

/-- Only the nearest dominator of the blocks that need a node matters for whether one of them is sure to come. -/
theorem anticipated_iff_of_nearest (h : Nearest g.Dominates (g.NeededIn n) c) :
    g.Anticipated n c ↔ ∃ d, (∀ u, g.NeededIn n u → g.Dominates d u) ∧ g.Anticipated n d := by
  constructor
  · exact fun hc => ⟨c, h.over_all, hc⟩
  · rintro ⟨d, hd, hanticipated⟩
    exact hanticipated.of_dominates (h.of_over_all d hd)

end Graph

theorem Placement.Consistent.nearest_neededIn {g : Graph} {p : Placement} {n : NodeId} {b : BlockId}
    (hp : p.Consistent g) (h : g.WellFormed) (hn : g.Needed n) (hfloat : g.pinned? n = none)
    (hb : p.blockOf? n = some b) : Nearest g.Dominates (g.NeededIn n) b := by
  induction hk : g.nodes.size - n using Nat.strongRecOn generalizing n b with
  | ind k ih =>
      have hnear := hp.nearest n b hn hfloat hb
      have huser : ∀ u c, g.Needed u → n ∈ g.inputs u → g.pinned? u = none → p.blockOf? u = some c →
          Nearest g.Dominates (g.NeededIn u) c := by
        intro u c hu hin hp hc
        have hlt := Nat.sub_lt_sub_left (hn.lt h) (Graph.input_lt h hin).1
        exact ih _ (hk ▸ hlt) hu hp hc rfl
      constructor
      · intro c hc
        cases hc with
        | node hu hpin hin => exact hnear.over_all c (.inl ⟨_, hu, hin, hp.pinned _ c hpin⟩)
        | phiInput hu hin => exact hnear.over_all c (.inr ⟨_, hu, hin⟩)
        | @floating _ u _ hu hpin hin huc =>
            obtain ⟨e, he⟩ := Option.ne_none_iff_exists'.1 (hp.users n b hn hfloat hb u hu hin)
            exact Flow.Dominates.trans (hnear.over_all e (.inl ⟨u, hu, hin, he⟩))
              ((huser u e hu hin hpin he).over_all c huc)
      · intro d hd
        refine hnear.of_over_all d ?_
        rintro c (⟨u, hu, hin, hc⟩ | ⟨u, hu, hin⟩)
        · cases hpin : g.pinned? u with
          | some e =>
              rw [hp.pinned u e hpin] at hc
              cases hc
              exact hd _ (.node hu hpin hin)
          | none => exact (huser u c hu hin hpin hc).of_over_all d fun e he => hd e (.floating hu hpin hin he)
        · exact hd c (.phiInput hu hin)

namespace Schedule

/-- A needed arithmetic operation goes to the nearest block that dominates all blocks that need it, and there is such a
block if needed pinned nodes are reachable. Control that comes through it is sure to come to one that needs the
operation exactly if that holds of some block that dominates all of those; one of them that dominates the others is
enough. -/
theorem blockForNode_anticipated_iff {m : Method} {builder : Builder} {g : Graph} (hb : Builder.Built m builder)
    (hg : builder.finish = .ok g) {s : Schedule} (hs : start g = .ok s) {n lhs rhs : NodeId} {type : Ty} {op : BinaryOp}
    (hkind : g.kind? n = some (.value ⟨type, .binary op lhs rhs⟩)) (hn : g.Needed n) {earlier : List NodeId}
    {p : Placement} (hp : Asked g s earlier p) :
    g.pinned? n = none ∧
      ((∀ n c, g.Needed n → g.pinned? n = some c → g.Reaches c) →
        ∃ c p', blockForNode g s n p = some (.ok c, p')) ∧
      ∀ c p', blockForNode g s n p = some (.ok c, p') →
        Nearest g.Dominates (g.NeededIn n) c ∧
        (g.Anticipated n c ↔ ∃ d, (∀ u, g.NeededIn n u → g.Dominates d u) ∧ g.Anticipated n d) ∧
        ∀ u, g.NeededIn n u → (∀ u', g.NeededIn n u' → g.Dominates u u') → g.Anticipated n c := by
  have h := hb.wellFormed hg
  have hs := start_prepared h hs
  have hfloat : g.pinned? n = none := by
    obtain ⟨x, hx, hxkind⟩ := Option.map_eq_some_iff.1 hkind
    rw [Graph.pinned?_of_getElem? hx]
    exact (h.node n x hx).floats.2 ⟨_, hxkind, rfl⟩
  have hconsistent := hp.consistent h hs
  refine ⟨hfloat, fun hpinned => ?_, fun c p' hquery => ?_⟩
  · obtain ⟨c, p', hquery, -⟩ := answers h hs hpinned (hn.lt h) p hconsistent
    exact ⟨c, p', hquery⟩
  · have hkeeps := blockForNode_keeps h hs hconsistent hquery
    have hnear := hkeeps.consistent.nearest_neededIn h hn hfloat (hkeeps.found c rfl)
    have hiff := Graph.anticipated_iff_of_nearest hnear
    exact ⟨hnear, hiff, fun u hu hall => hiff.2 ⟨u, hall, hu.anticipated⟩⟩

end Schedule

namespace Example

theorem exists_of_firstAnswer? {g : Graph} {n : NodeId} {c : BlockId} (h : firstAnswer? g n = some c) :
    ∃ s p', Schedule.start g = .ok s ∧ Schedule.blockForNode g s n s.placement = some (.ok c, p') := by
  rw [firstAnswer?] at h
  split at h
  · cases h
  · rename_i s hs
    split at h
    · rename_i b p' heq
      cases h
      exact ⟨s, p', hs, heq⟩
    · cases h

theorem path_entry {g : Graph} {b : BlockId} (h : g.entry = b) : g.flow.Path [b] b := h ▸ .start

theorem mem_of_usedIn {g : Graph} (ns : List NodeId) {bs : List BlockId} (hphis : g.phis = #[])
    (husers : ∀ u < g.nodes.size, ∀ n ∈ g.inputs u, n ∈ ns →
      (g.pinned? u).elim (decide (u ∈ ns)) (fun b => decide (b ∈ bs)) = true)
    {n : NodeId} {c : BlockId} (h : g.UsedIn n c) (hn : n ∈ ns) : c ∈ bs := by
  have huser : ∀ {n u : NodeId}, n ∈ g.inputs u → n ∈ ns →
      (g.pinned? u).elim (decide (u ∈ ns)) (fun b => decide (b ∈ bs)) = true := by
    intro n u hin hn
    obtain ⟨x, hx, -⟩ := Graph.exists_of_mem_inputs hin
    exact husers u (Array.getElem?_eq_some_iff.1 hx).1 n hin hn
  induction h with
  | node hpin hin =>
      have hb := huser hin hn
      rw [hpin] at hb
      exact of_decide_eq_true hb
  | phiInput hphi =>
      obtain ⟨_, t, -, ht⟩ := Graph.phi?_eq_some hphi
      rw [hphis] at ht
      cases ht
  | floating hpin hin _ ih =>
      have hu := huser hin hn
      rw [hpin] at hu
      exact ih (of_decide_eq_true hu)

def guarding : Builder :=
  let int : Ty := .integer .signed 4
  Request.applyAll (.start ⟨"zoo/Share", "guard", ⟨[.int, .int], .int⟩, { isStatic := true }, true⟩) [
    .newBlock "many", .newBlock "none", .parameter 0 int, .parameter 1 int, .intLiteral int 0, .cmp .gt 4 5,
    .ifThenElse 6 1 2,
    .begin 1, .binary .div 3 4, .neg 8, .returnValue 9,
    .begin 2, .returnValue 5]

theorem guarding_finish : guarding.finish = .ok guarding.graph := Builder.finish_of_matches (by cbv)

theorem blockForNode_anticipated_of_guarding :
    guarding.graph.Needed 8 ∧ ∃ s p', Schedule.start guarding.graph = .ok s ∧
      Schedule.blockForNode guarding.graph s 8 s.placement = some (.ok 1, p') ∧ guarding.graph.Anticipated 8 1 := by
  obtain ⟨s, p', hstart, hquery⟩ := exists_of_firstAnswer? (show firstAnswer? guarding.graph 8 = some 1 by cbv)
  have hpath : guarding.graph.flow.Path [1, 0] 1 :=
    .step (path_entry (by cbv)) (show 1 ∈ guarding.graph.successors 0 by decide +kernel)
  have hreturn : guarding.graph.Needed 10 :=
    .terminator (Graph.reaches_iff_path.2 ⟨_, hpath⟩) (show guarding.graph.terminator 1 = .ok 10 by cbv)
  have hneg : guarding.graph.Needed 9 := .input hreturn (by decide +kernel)
  have hneeded : guarding.graph.Needed 8 := .input hneg (by decide +kernel)
  have hin : guarding.graph.NeededIn 8 1 :=
    .floating hneg (by cbv) (by decide +kernel) (.node hreturn (by cbv) (by decide +kernel))
  have honly : ∀ c, guarding.graph.NeededIn 8 c → c = 1 := fun c hc => List.mem_singleton.1
    (mem_of_usedIn [8, 9] (by cbv) (by decide +kernel) hc.usedIn List.mem_cons_self)
  have hkind : guarding.graph.kind? 8 = some (.value ⟨.integer .signed 4, .binary .div 3 4⟩) := by cbv
  obtain ⟨-, -, hplace⟩ :=
    Schedule.blockForNode_anticipated_iff (.applyAll .start _) guarding_finish hstart hkind hneeded .start
  refine ⟨hneeded, s, p', hstart, hquery, (hplace 1 p' hquery).2.2 1 hin fun c hc => ?_⟩
  rw [honly c hc]
  exact Flow.dominates_refl _ _

def sharing : Builder :=
  let int : Ty := .integer .signed 4
  Request.applyAll (.start ⟨"zoo/Share", "share", ⟨[.int, .int], .int⟩, { isStatic := true }, true⟩) [
    .newBlock "many", .newBlock "few", .newBlock "owed", .newBlock "none",
    .parameter 0 int, .parameter 1 int, .intLiteral int 0, .cmp .gt 6 7, .ifThenElse 8 1 2,
    .begin 1, .binary .div 5 6, .returnValue 10,
    .begin 2, .cmp .lt 6 7, .ifThenElse 12 3 4,
    .begin 3, .binary .div 5 6, .returnValue 10,
    .begin 4, .returnValue 7]

theorem sharing_finish : sharing.finish = .ok sharing.graph := Builder.finish_of_matches (by cbv)

/-- The two divisions are one, above both branches, and control that takes neither goes through it. -/
theorem not_anticipated_of_sharing : ∃ m, Builder.Built m sharing ∧ sharing.finish = .ok sharing.graph ∧
    sharing.graph.kind? 10 = some (.value ⟨.integer .signed 4, .binary .div 5 6⟩) ∧
    sharing.graph.pinned? 10 = none ∧ sharing.graph.Needed 10 ∧ ∃ s p', Schedule.start sharing.graph = .ok s ∧
      Schedule.blockForNode sharing.graph s 10 s.placement = some (.ok 0, p') ∧
      ∃ visited, sharing.graph.Completed visited ∧ 0 ∈ visited ∧ ∀ c ∈ visited, ¬ sharing.graph.UsedIn 10 c := by
  obtain ⟨s, p', hstart, hquery⟩ := exists_of_firstAnswer? (show firstAnswer? sharing.graph 10 = some 0 by cbv)
  have hentry : sharing.graph.flow.Path [0] 0 := path_entry (by cbv)
  have hmany : sharing.graph.flow.Path [1, 0] 1 :=
    .step hentry (show 1 ∈ sharing.graph.successors 0 by decide +kernel)
  have hnone : sharing.graph.flow.Path [4, 2, 0] 4 :=
    .step (.step hentry (show 2 ∈ sharing.graph.successors 0 by decide +kernel))
      (show 4 ∈ sharing.graph.successors 2 by decide +kernel)
  have hreturn : sharing.graph.Needed 11 :=
    .terminator (Graph.reaches_iff_path.2 ⟨_, hmany⟩) (show sharing.graph.terminator 1 = .ok 11 by cbv)
  have hneeded : sharing.graph.Needed 10 := .input hreturn (by decide +kernel)
  refine ⟨_, .applyAll .start _, sharing_finish, by cbv, by cbv, hneeded, s, p', hstart, hquery, [4, 2, 0],
    ⟨4, hnone, by cbv⟩, by decide, fun c hc hused => ?_⟩
  have hneither : ∀ c ∈ [4, 2, 0], c ∉ [1, 3] := by decide
  exact hneither c hc (mem_of_usedIn [10] (by cbv) (by decide +kernel) hused List.mem_cons_self)

end Example

end NativeBackend
