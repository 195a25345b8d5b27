import Mathlib.Data.List.Count
import NativeBackend.Proofs.Lowering.Ssa

namespace NativeBackend

def Graph.Used (g : Graph) (n : NodeId) : Prop :=
  ∃ user, n ∈ g.inputs user ∨ ∃ b, (b, n) ∈ g.phiInputs g.reachable user

/-- Phis that are used have an input for each block that control comes from, and for no other. -/
def Graph.PhisMatch (g : Graph) : Prop :=
  ∀ n p, g.Used n → g.phi? n = some p →
    ∀ b, (p.incomingFrom? b).isSome = true ↔ g.Reaches b ∧ p.block ∈ g.successors b

def Graph.matchesPhis (g : Graph) : Bool :=
  g.phis.all fun p =>
    p.incoming.all (fun input => g.reachable.contains input.1 && (g.successors input.1).contains p.block) &&
      g.reachable.all fun b => !(g.successors b).contains p.block || (p.incomingFrom? b).isSome

theorem Graph.phisMatch_of_matchesPhis {g : Graph} (hg : g.WellFormed) (hmatches : g.matchesPhis = true) :
    g.PhisMatch := by
  intro n p _ hp b
  obtain ⟨type, table, -, htable⟩ := phi?_eq_some hp
  obtain ⟨hlt, rfl⟩ := Array.getElem?_eq_some_iff.1 htable
  obtain ⟨hin, hout⟩ := Bool.and_eq_true_iff.1 (Array.all_eq_true.1 hmatches table hlt)
  rw [← mem_reachable hg]
  constructor
  · intro hsome
    obtain ⟨v, hv⟩ := Option.isSome_iff_exists.1 hsome
    obtain ⟨before, after, hsplit, -⟩ := List.lookup_eq_some_iff.1 hv
    have hmem : (b, v) ∈ g.phis[table].incoming := hsplit ▸ List.mem_append_right _ List.mem_cons_self
    have hedge := List.all_eq_true.1 hin (b, v) hmem
    simpa using hedge
  · rintro ⟨hreach, hedge⟩
    have hentry := List.all_eq_true.1 hout b hreach
    simpa [hedge] using hentry

def BasicBlock.targets (block : BasicBlock) : List String := (block.terminator.map (·.labels)).getD []

def Function.edgesInto (f : Function) (label : String) : List String :=
  f.blocks.flatMap fun block => List.replicate (block.targets.count label) block.label

/-- A phi with one entry for each input of a phi of the graph: the label of the block and what stands for the
value that comes from there. -/
def Phi.Joins (g : Graph) (R : NodeId → Operand → Prop) (n : NodeId) (p : Phi) : Prop :=
  List.Forall₂ (fun entry input => entry.2 = blockLabel input.1 ∧ R input.2 entry.1) p.incoming
    (g.phiInputs g.reachable n)

/-- Operands of a function that stand for nodes: constants and parameters, what instructions of these nodes
give, and what phis of these nodes define. -/
def Function.Computes (f : Function) (g : Graph) (R : NodeId → Operand → Prop) : Prop :=
  ∀ n o, R n o → Lowering.Immediate g n o ∨ ∃ block ∈ f.blocks,
    (∃ i ∈ block.instructions, Lowering.Selects g R n i ∧ o = i.gives) ∨
    ∃ p ∈ block.phis, g.phi? n ≠ none ∧ p.Joins g R n ∧ o = .ofLocal p.result

def Graph.inputLabels (g : Graph) (n : NodeId) : List String :=
  (g.phiInputs g.reachable n).map fun input => blockLabel input.1

namespace Graph

variable {g : Graph} {n : NodeId} {p : PhiData}

theorem map_fst_phiInputs (hp : g.phi? n = some p) (reachable : List BlockId) :
    (g.phiInputs reachable n).map (·.1) = reachable.filter fun b => (p.incomingFrom? b).isSome := by
  rw [phiInputs, hp, List.map_filterMap, ← List.filterMap_eq_filter]
  refine List.filterMap_congr fun b _ => ?_
  cases h : p.incomingFrom? b <;> simp [Option.guard, h]

theorem inputLabels_eq (hp : g.phi? n = some p) :
    g.inputLabels n = (g.reachable.filter fun b => (p.incomingFrom? b).isSome).map blockLabel := by
  rw [← map_fst_phiInputs hp, List.map_map]
  rfl

theorem nodup_inputLabels (hp : g.phi? n = some p) : (g.inputLabels n).Nodup := by
  rw [inputLabels_eq hp]
  exact ((List.nodup_range.filter _).filter _).map fun _ _ => blockLabel_injective

theorem mem_inputLabels (hg : g.WellFormed) (hp : g.phi? n = some p) {label : String} :
    label ∈ g.inputLabels n ↔ ∃ b, g.Reaches b ∧ (p.incomingFrom? b).isSome = true ∧ blockLabel b = label := by
  simp only [inputLabels_eq hp, List.mem_map, List.mem_filter, mem_reachable hg, and_assoc]

end Graph

theorem Phi.Joins.labels {g : Graph} {R : NodeId → Operand → Prop} {n : NodeId} {p : Phi} (h : p.Joins g R n) :
    p.incoming.map (·.2) = g.inputLabels n := by
  rw [Graph.inputLabels, ← List.forall₂_eq_eq_eq, List.forall₂_map_left_iff, List.forall₂_map_right_iff]
  exact h.imp fun _ _ hentry => hentry.1

namespace Lowering

variable {x : LoweringInput} {h w : List Event} {ts : List Task} {bs : List BlockId} {n : NodeId} {e : Event}
  {pending : List (BlockId × NodeId)}

def Task.input? (n : NodeId) : Task → Option (BlockId × NodeId)
  | .need _ => none
  | .incoming m predecessor v => if m = n then some (predecessor, v) else none

def Carries (h : List Event) (entry : Operand × String) (input : BlockId × NodeId) : Prop :=
  entry.2 = blockLabel input.1 ∧ Bound h input.2 entry.1

/-- How far a phi has come: it is not there yet, or some of its inputs have flowed in and others are pending. -/
inductive Fills (x : LoweringInput) (n : NodeId) (h : List Event) (pending : List (BlockId × NodeId)) : Prop
  | waiting (hphi : ∀ l t, .phi n l t ∉ h) (hnone : h.filterMap (Event.contribution n) = []) (hpending : pending = [])
  | started {l : Local} {t : IrType} {inputs : List (BlockId × NodeId)} (hphi : .phi n l t ∈ h)
      (hinputs : x.graph.phiInputs x.schedule.reachable n = inputs ++ pending)
      (hfilled : List.Forall₂ (Carries h) (h.filterMap (Event.contribution n)) inputs)

namespace Fills

theorem carries_append {entry : Operand × String} {input : BlockId × NodeId} (hc : Carries h entry input)
    (w : List Event) : Carries (h ++ w) entry input := ⟨hc.1, hc.2.append w⟩

theorem silent (hf : Fills x n h pending) (hphi : ∀ l t, e ≠ .phi n l t) (he : e.contribution n = none) :
    Fills x n (h ++ [e]) pending := by
  have hsame : (h ++ [e]).filterMap (Event.contribution n) = h.filterMap (Event.contribution n) := by
    rw [List.filterMap_append, List.filterMap_cons_none he, List.filterMap_nil, List.append_nil]
  cases hf with
  | waiting hnot hnone hpending =>
      refine .waiting (fun l t hmem => ?_) (hsame.trans hnone) hpending
      rcases List.mem_append.1 hmem with hmem | hmem
      · exact hnot l t hmem
      · exact hphi l t (List.mem_singleton.1 hmem).symm
  | started hmem hinputs hfilled =>
      refine .started (List.mem_append_left _ hmem) hinputs ?_
      rw [hsame]
      exact hfilled.imp fun _ _ hc => carries_append hc [e]

theorem start (hf : Fills x n h pending) (hnot : ¬ Done h n) (l : Local) (t : IrType) :
    Fills x n (h ++ [.phi n l t]) (x.graph.phiInputs x.schedule.reachable n ++ pending) := by
  cases hf with
  | waiting hphi hnone hpending =>
      have hfilled : List.Forall₂ (Carries (h ++ [.phi n l t]))
          ((h ++ [Event.phi n l t]).filterMap (Event.contribution n)) [] := by
        rw [List.filterMap_append, hnone]
        exact .nil
      refine .started (List.mem_append_right _ (List.mem_singleton_self _)) ?_ hfilled
      rw [hpending, List.append_nil, List.nil_append]
  | started hphi => exact absurd (.inr ⟨_, _, hphi, rfl⟩) hnot

theorem incoming {predecessor : BlockId} {v : NodeId} {o : Operand} (hf : Fills x n h ((predecessor, v) :: pending))
    (hb : Bound h v o) : Fills x n (h ++ [.incoming n predecessor o]) pending := by
  cases hf with
  | waiting _ _ hpending => cases hpending
  | started hmem hinputs hfilled =>
      refine .started (List.mem_append_left _ hmem) (by rw [hinputs, List.append_cons]) ?_
      rw [List.filterMap_append]
      refine List.rel_append (hfilled.imp fun _ _ hc => carries_append hc _) ?_
      simp only [List.filterMap_cons, List.filterMap_nil, Event.contribution, if_true]
      exact .cons ⟨rfl, hb.append _⟩ .nil

end Fills

theorem filterMap_need (n : NodeId) (ns : List NodeId) : (ns.map Task.need).filterMap (Task.input? n) = [] := by
  rw [List.filterMap_map, List.filterMap_eq_nil_iff]
  exact fun _ _ => rfl

theorem filterMap_phiTasks (m n : NodeId) : (phiTasks x m).filterMap (Task.input? n) =
    if m = n then x.graph.phiInputs x.schedule.reachable n else [] := by
  rw [phiTasks, List.filterMap_map]
  split
  · rename_i heq
    subst heq
    exact (List.filterMap_congr fun _ _ => if_pos rfl).trans List.filterMap_some
  · rw [List.filterMap_eq_nil_iff]
    exact fun _ _ => if_neg ‹_›

theorem Emits.silent {m : NodeId} (he : Emits x h m e) (n : NodeId) :
    (∀ l t, e ≠ .phi n l t) ∧ e.contribution n = none := by
  cases he <;> exact ⟨nofun, rfl⟩

theorem Lowers.fills (hl : Lowers x h ts w) (hf : Fills x n h (ts.filterMap (Task.input? n) ++ pending)) :
    Fills x n (h ++ w) pending := by
  induction hl generalizing pending with
  | nil => simpa using hf
  | known _ _ ih => exact ih hf
  | entered _ _ _ ih | bound _ _ _ ih => simpa using ih (hf.silent nofun rfl)
  | emit _ _ he _ ih ih' =>
      have hmid := ih (by rwa [filterMap_need, List.nil_append])
      simpa using ih' (hmid.silent (he.silent n).1 (he.silent n).2)
  | late _ _ _ _ _ _ ih ih' =>
      simpa using ih' (ih (by rwa [filterMap_need, List.nil_append]))
  | @phi h w w' m table type t l ts hnot _ _ _ _ ih ih' =>
      have hmid : Fills x n (h ++ [.phi m l t] ++ w) (ts.filterMap (Task.input? n) ++ pending) := by
        refine ih ?_
        rw [filterMap_phiTasks]
        split
        · rename_i heq
          subst heq
          exact hf.start hnot l t
        · rename_i hne
          refine hf.silent (fun l' t' heq => hne ?_) rfl
          cases heq
          rfl
      simpa using ih' (by simpa using hmid)
  | @incoming h w w' m v predecessor o ts _ _ hb _ ih ih' =>
      have hmid : Fills x n (h ++ w) ((Task.incoming m predecessor v :: ts).filterMap (Task.input? n) ++ pending) :=
        ih hf
      have hnext : Fills x n (h ++ w ++ [.incoming m predecessor o]) (ts.filterMap (Task.input? n) ++ pending) := by
        by_cases hm : m = n
        · subst hm
          simp only [List.filterMap_cons, Task.input?, if_true, List.cons_append] at hmid
          exact hmid.incoming hb
        · simp only [List.filterMap_cons, Task.input?, if_neg hm] at hmid
          exact hmid.silent nofun (if_neg hm)
      simpa using ih' hnext

theorem LowersBlocks.fills (hl : LowersBlocks x h bs w) (hf : Fills x n h []) : Fills x n (h ++ w) [] := by
  induction hl with
  | nil => simpa using hf
  | ended _ _ _ hl _ _ ih =>
      have hmid : Fills x n _ [] := hl.fills (by rwa [filterMap_need])
      simpa using ih (hmid.silent nofun rfl)
  | thrown _ _ _ _ ih => simpa using ih (hf.silent nofun rfl)

theorem LowersBlocks.used (hreachable : x.schedule.reachable = x.graph.reachable) (hl : LowersBlocks x h bs w)
    {l : Local} {t : IrType} (hphi : .phi n l t ∈ w) : x.graph.Used n := by
  induction hl with
  | nil => cases hphi
  | @ended h w w' b bs m u u' _ _ hk hl _ _ ih =>
      rcases List.mem_append.1 hphi with hphi | hphi
      · refine hl.closed (fun m i _ hi => ⟨m, .inl hi⟩) (fun m v b _ hv => ?_) (fun task htask => ?_) _ hphi
        · rw [hreachable] at hv
          exact ⟨m, .inr ⟨b, hv⟩⟩
        · obtain ⟨i, hi, rfl⟩ := List.mem_map.1 htask
          refine ⟨m, .inl ?_⟩
          rw [Graph.inputs_of_kind hk]
          exact hi
      · exact ih ((List.mem_cons.1 hphi).resolve_left nofun)
  | thrown _ _ _ _ ih => exact ih ((List.mem_cons.1 hphi).resolve_left nofun)

namespace Lowered

variable {f : Function} {order : List BlockId} {l : Local} {t : IrType} {b c : BlockId} {p : Phi}

theorem joins (hl : Lowered x f order h) (hg : x.graph.WellFormed) (hphi : .phi n l t ∈ h) :
    Phi.Joins x.graph (Bound h) n ⟨l, t, h.filterMap (Event.contribution n)⟩ := by
  have hfills : Fills x n h [] := by
    simpa using hl.lowers.fills (.waiting nofun rfl rfl)
  cases hfills with
  | waiting hnot => exact absurd hphi (hnot l t)
  | started _ hinputs hfilled =>
      rw [List.append_nil, (hl.spec hg).reachable] at hinputs
      rw [Phi.Joins, hinputs]
      exact hfilled

theorem mem_phis_render : p ∈ (render x h b).phis ↔
    ∃ n l t, .phi n l t ∈ h ∧ x.schedule.blockOf n = b ∧ p = ⟨l, t, h.filterMap (Event.contribution n)⟩ := by
  constructor
  · intro hp
    obtain ⟨⟨n, l, t⟩, hphi, rfl⟩ := List.mem_map.1 hp
    obtain ⟨e, he, hat⟩ := List.mem_filterMap.1 hphi
    cases e with
    | phi =>
        obtain ⟨hb, heq⟩ := Option.ite_none_right_eq_some.1 hat
        cases heq
        exact ⟨n, l, t, he, hb, rfl⟩
    | _ => cases hat
  · rintro ⟨n, l, t, hphi, hb, rfl⟩
    exact List.mem_map.2 ⟨(n, l, t), List.mem_filterMap.2 ⟨_, hphi, if_pos hb⟩, rfl⟩

theorem phi?_of_mem (hl : Lowered x f order h) (hg : x.graph.WellFormed) (hphi : .phi n l t ∈ h) :
    ∃ data, x.graph.phi? n = some data ∧ x.schedule.blockOf n = data.block := by
  obtain ⟨before, -, hguard⟩ := hl.exists_guard hphi
  cases hguard with
  | phi _ hk =>
      obtain ⟨data, hdata, hpinned⟩ := Graph.phi?_of_kind hg hk
      exact ⟨data, hdata, (hl.spec hg).blockOf_of_pinned hpinned⟩
  | emit hem => cases hem

/-- What stands for a node comes from an instruction or a phi of the node, if it is not known at once. -/
theorem computes (hl : Lowered x f order h) (hg : x.graph.WellFormed) : f.Computes x.graph (Bound h) := by
  rintro n o ⟨e, he, hop⟩
  have hblock : ∀ b ∈ e.blocks x, render x h b ∈ f.blocks := fun b hb =>
    hl.render_mem ((hl.mem b).2 (.inr ⟨e, he, hb⟩))
  obtain ⟨before, hpre, hguard⟩ := hl.exists_guard he
  cases e with
  | bound m o' =>
      cases hop
      cases hguard with
      | bound _ ho => exact .inl ho
      | emit hem => cases hem
  | computed m i =>
      cases hop
      cases hguard with
      | emit hem =>
          cases hem with
          | value _ _ hi =>
              refine .inr ⟨_, hblock _ (List.mem_singleton_self _), .inl ⟨i, ?_, ?_, rfl⟩⟩
              · exact List.mem_filterMap.2 ⟨_, he, if_pos rfl⟩
              · exact hi.mono fun m o hb => hb.of_isPrefix hpre
  | phi m l t =>
      cases hop
      obtain ⟨data, hdata, -⟩ := hl.phi?_of_mem hg he
      exact .inr ⟨_, hblock _ (List.mem_singleton_self _), .inr ⟨_, mem_phis_render.2 ⟨_, _, _, he, rfl, rfl⟩,
        by simp [hdata], hl.joins hg he, rfl⟩⟩
  | entered | performed | incoming | terminated => cases hop

theorem edgesInto_eq (hl : Lowered x f order h) (label : String) : f.edgesInto label =
    order.flatMap fun c => List.replicate ((render x h c).targets.count label) (blockLabel c) := by
  rw [Function.edgesInto, hl.blocks, List.flatMap_map]
  rfl

theorem mem_edgesInto (hl : Lowered x f order h) {label : String} (hc : c ∈ order) :
    blockLabel c ∈ f.edgesInto label ↔ label ∈ (render x h c).targets := by
  rw [hl.edgesInto_eq, List.mem_flatMap, ← List.count_pos_iff]
  constructor
  · rintro ⟨d, -, hd⟩
    obtain ⟨hne, heq⟩ := List.mem_replicate.1 hd
    rw [blockLabel_injective heq]
    exact Nat.pos_of_ne_zero hne
  · intro hpos
    exact ⟨c, hc, List.mem_replicate.2 ⟨hpos.ne', rfl⟩⟩

theorem targets_render (hl : Lowered x f order h) (hg : x.graph.WellFormed) (hthrow : x.graph.NoThrow)
    (hc : x.graph.Reaches c) : (render x h c).targets = (x.graph.successors c).map blockLabel := by
  obtain ⟨-, t, ht, hlabels⟩ := hl.follows hg hthrow hc
  rw [BasicBlock.targets, ht, ← hlabels]
  rfl

theorem nodup_edgesInto_iff (hl : Lowered x f order h) (hg : x.graph.WellFormed) (hthrow : x.graph.NoThrow)
    (honly : ∀ label ∈ f.edgesInto (blockLabel b), ∃ c, x.graph.Reaches c ∧ label = blockLabel c) :
    (f.edgesInto (blockLabel b)).Nodup ↔ ∀ c, x.graph.Reaches c → (x.graph.successors c).count b ≤ 1 := by
  have hcount : ∀ c, x.graph.Reaches c →
      (render x h c).targets.count (blockLabel b) = (x.graph.successors c).count b := by
    intro c hc
    rw [hl.targets_render hg hthrow hc, List.count_map_of_injective _ _ fun _ _ => blockLabel_injective]
  have happart : order.Pairwise fun c d =>
      List.Disjoint (List.replicate ((render x h c).targets.count (blockLabel b)) (blockLabel c))
        (List.replicate ((render x h d).targets.count (blockLabel b)) (blockLabel d)) := by
    refine hl.nodup.imp fun {c d} hne label hc hd => hne (blockLabel_injective ?_)
    rw [← (List.mem_replicate.1 hc).2, (List.mem_replicate.1 hd).2]
  rw [hl.edgesInto_eq, List.nodup_flatMap]
  constructor
  · rintro ⟨hnodup, -⟩ c hc
    rw [← hcount c hc]
    exact List.nodup_replicate.1 (hnodup c (hl.mem_of_reaches hthrow hc))
  · refine fun hall => ⟨fun c hc => List.nodup_replicate.2 ?_, happart⟩
    by_cases hedge : blockLabel b ∈ (render x h c).targets
    · obtain ⟨d, hd, heq⟩ := honly _ ((hl.mem_edgesInto hc).2 hedge)
      cases blockLabel_injective heq
      exact hcount c hd ▸ hall c hd
    · rw [List.count_eq_zero_of_not_mem hedge]
      exact Nat.zero_le 1

/-- Inputs come one for each edge exactly if no block leads here twice and none leads here but those that the
entry leads to. -/
theorem perm_edgesInto_iff (hl : Lowered x f order h) (hg : x.graph.WellFormed) (hthrow : x.graph.NoThrow)
    {data : PhiData} (hdata : x.graph.phi? n = some data)
    (hinputs : ∀ c, (data.incomingFrom? c).isSome = true ↔ x.graph.Reaches c ∧ b ∈ x.graph.successors c) :
    (x.graph.inputLabels n).Perm (f.edgesInto (blockLabel b)) ↔
      (∀ c, x.graph.Reaches c → (x.graph.successors c).count b ≤ 1) ∧
        ∀ label ∈ f.edgesInto (blockLabel b), ∃ c, x.graph.Reaches c ∧ label = blockLabel c := by
  have hnodup := Graph.nodup_inputLabels hdata
  have hedge : ∀ c, x.graph.Reaches c → (blockLabel c ∈ f.edgesInto (blockLabel b) ↔ b ∈ x.graph.successors c) := by
    intro c hc
    rw [hl.mem_edgesInto (hl.mem_of_reaches hthrow hc), hl.targets_render hg hthrow hc,
      List.mem_map_of_injective fun _ _ => blockLabel_injective]
  constructor
  · intro hperm
    have honly : ∀ label ∈ f.edgesInto (blockLabel b), ∃ c, x.graph.Reaches c ∧ label = blockLabel c := by
      intro label hlabel
      obtain ⟨c, hc, -, heq⟩ := (Graph.mem_inputLabels hg hdata).1 (hperm.mem_iff.2 hlabel)
      exact ⟨c, hc, heq.symm⟩
    exact ⟨(hl.nodup_edgesInto_iff hg hthrow honly).1 (hperm.nodup hnodup), honly⟩
  · rintro ⟨hcount, honly⟩
    refine (List.perm_ext_iff_of_nodup hnodup ((hl.nodup_edgesInto_iff hg hthrow honly).2 hcount)).2 fun label => ?_
    rw [Graph.mem_inputLabels hg hdata]
    constructor
    · rintro ⟨c, hc, hinput, rfl⟩
      exact (hedge c hc).2 ((hinputs c).1 hinput).2
    · intro hlabel
      obtain ⟨c, hc, rfl⟩ := honly label hlabel
      exact ⟨c, hc, (hinputs c).2 ⟨hc, (hedge c hc).1 hlabel⟩, rfl⟩

end Lowered

end Lowering

/-- The phis of a lowered function have one entry for each block of the graph that an input comes from, and each
entry has what stands for the input. These entries are those of the edges into the block, one for each, exactly
if no block leads there with more than one edge and every block of the function that leads there is one that the
entry of the graph leads to. -/
theorem lowerMethod_phis {m : Method} {b : Builder} {g : Graph} {e e' : Emission} {f : Function}
    (hb : Builder.Built m b) (hg : b.finish = .ok g) (hthrow : g.NoThrow) (hmatch : g.PhisMatch)
    (hf : lowerMethod g e = .ok f e') :
    ∃ R, f.Computes g R ∧ ∀ block ∈ f.blocks, ∀ p ∈ block.phis, ∃ n data, g.phi? n = some data ∧
      block.label = blockLabel data.block ∧ R n (.ofLocal p.result) ∧ p.Joins g R n ∧
      ((p.incoming.map (·.2)).Perm (f.edgesInto block.label) ↔
        (∀ c, g.Reaches c → (g.successors c).count data.block ≤ 1) ∧
          ∀ label ∈ f.edgesInto block.label, ∃ c, g.Reaches c ∧ label = blockLabel c) := by
  have hwf := hb.wellFormed hg
  obtain ⟨s, order, h, hl⟩ := Lowering.lowerMethod_eq_ok hwf hf
  refine ⟨Lowering.Bound h, hl.computes hwf, fun block hblock p hp => ?_⟩
  obtain ⟨c, -, rfl⟩ := hl.exists_of_mem_blocks hblock
  obtain ⟨n, l, t, hphi, hc, rfl⟩ := Lowering.Lowered.mem_phis_render.1 hp
  obtain ⟨data, hdata, hat⟩ := hl.phi?_of_mem hwf hphi
  obtain rfl : c = data.block := hc.symm.trans hat
  have hjoins := hl.joins hwf hphi
  have hused := hl.lowers.used (hl.spec hwf).reachable hphi
  refine ⟨n, data, hdata, rfl, ⟨_, hphi, rfl⟩, hjoins, ?_⟩
  rw [hjoins.labels]
  exact hl.perm_edgesInto_iff hwf hthrow hdata (hmatch n data hused hdata)

theorem Function.mem_labels_of_mem_edgesInto {f : Function} {label target : String} (h : label ∈ f.edgesInto target) :
    label ∈ f.blocks.map (·.label) := by
  obtain ⟨block, hblock, hmem⟩ := List.mem_flatMap.1 h
  exact List.mem_map.2 ⟨block, hblock, (List.mem_replicate.1 hmem).2.symm⟩

namespace Example

theorem lowerMethod_phis_of_counting : ∃ f e, lowerMethod counting.graph output = .ok f e ∧
    counting.graph.NoThrow ∧ counting.graph.PhisMatch ∧ ∃ R, f.Computes counting.graph R ∧
      ∀ block ∈ f.blocks, ∀ p ∈ block.phis, (p.incoming.map (·.2)).Perm (f.edgesInto block.label) := by
  have hwf := counting_built.wellFormed counting_finish
  have hmatch : counting.graph.PhisMatch := Graph.phisMatch_of_matchesPhis hwf (by cbv)
  have hreachable : counting.graph.reachable = [0, 1, 2] := by cbv
  have honce : (counting.graph.reachable.all fun c => decide (counting.graph.successors c).Nodup) = true := by cbv
  obtain ⟨f, e, hf, hlabels⟩ := counting_lowers
  obtain ⟨R, hcomputes, hphis⟩ := lowerMethod_phis counting_built counting_finish counting_noThrow hmatch hf
  refine ⟨f, e, hf, counting_noThrow, hmatch, R, hcomputes, fun block hblock p hp => ?_⟩
  obtain ⟨n, data, -, -, -, -, hperm⟩ := hphis block hblock p hp
  refine hperm.2 ⟨fun c hc => ?_, fun label hlabel => ?_⟩
  · have hnodup := List.all_eq_true.1 honce c ((Graph.mem_reachable hwf).2 hc)
    exact List.nodup_iff_count_le_one.1 (of_decide_eq_true hnodup) _
  · have hmem := Function.mem_labels_of_mem_edgesInto hlabel
    rw [hlabels, show ["b0", "b1", "b2"] = [0, 1, 2].map blockLabel by decide, ← hreachable] at hmem
    obtain ⟨c, hc, rfl⟩ := List.mem_map.1 hmem
    exact ⟨c, (Graph.mem_reachable hwf).1 hc, rfl⟩

def chooser : Method := ⟨"zoo/Pick", "pick", ⟨[.boolean, .int], .int⟩, { isStatic := true }, true⟩

/-- A branch whose ways lead to the same block: `if (c) goto merge; else goto merge`. -/
def choosing : Builder := Request.applyAll (.start chooser) [.newBlock "merge",
  .parameter 0 .boolean, .parameter 1 int, .ifThenElse 2 1 1,
  .begin 1, .phi int, .addPhiInput 5 0 3, .returnValue 5]

theorem choosing_built : Builder.Built chooser choosing := .applyAll .start _

theorem choosing_finish : choosing.finish = .ok choosing.graph := Builder.finish_of_matches (by cbv)

/-- The phi has one entry, but two edges lead to its block. -/
theorem not_lowerMethod_phis_of_choosing : Builder.Built chooser choosing ∧ choosing.finish = .ok choosing.graph ∧
    choosing.graph.NoThrow ∧ choosing.graph.PhisMatch ∧ ∃ f e, lowerMethod choosing.graph output = .ok f e ∧
      ∃ block ∈ f.blocks, ∃ p ∈ block.phis, p.incoming = [(.ofLocal ⟨1⟩, "b0")] ∧
        f.edgesInto block.label = ["b0", "b0"] ∧ ¬ (p.incoming.map (·.2)).Perm (f.edgesInto block.label) := by
  have hwf := choosing_built.wellFormed choosing_finish
  have hblocks : (Steps.answer? (lowerMethod choosing.graph output)).map
      (fun f => f.blocks.map fun block => (block.label, block.phis.map (·.incoming), f.edgesInto block.label)) =
        some [("b0", [], []), ("b1", [[(.ofLocal ⟨1⟩, "b0")]], ["b0", "b0"])] := by cbv
  obtain ⟨f, e, hf, hblocks⟩ := Steps.map_answer?_eq_some.1 hblocks
  refine ⟨choosing_built, choosing_finish, Graph.noThrow_of_all (by cbv), Graph.phisMatch_of_matchesPhis hwf (by cbv),
    f, e, hf, ?_⟩
  have hmem : ("b1", [[(.ofLocal ⟨1⟩, "b0")]], ["b0", "b0"]) ∈
      f.blocks.map fun block => (block.label, block.phis.map (·.incoming), f.edgesInto block.label) := by
    rw [hblocks]
    exact List.mem_cons_of_mem _ List.mem_cons_self
  obtain ⟨block, hblock, heq⟩ := List.mem_map.1 hmem
  obtain ⟨-, hphis, hedges⟩ : _ ∧ block.phis.map (·.incoming) = _ ∧ f.edgesInto block.label = _ := by
    simpa only [Prod.mk.injEq] using heq
  obtain ⟨p, hp, hincoming⟩ := List.map_eq_singleton_iff.1 hphis
  refine ⟨block, hblock, p, hp ▸ List.mem_singleton_self p, hincoming, hedges, fun hperm => ?_⟩
  have hlength := hperm.length_eq
  rw [hincoming, hedges] at hlength
  cases hlength

end Example

end NativeBackend
