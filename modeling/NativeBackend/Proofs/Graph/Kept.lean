import Mathlib.Data.List.Induction
import NativeBackend.Proofs.Graph.Chain

namespace NativeBackend

namespace Graph

def effectsIn (g : Graph) (b : BlockId) : List NodeId :=
  (List.range g.nodes.size).filter fun n => g.isEffect n && g.pinned? n == some b

def endOf (g : Graph) (b : BlockId) : Option NodeId := g.blocks[b]?.bind (·.terminator)

/-- Dependencies lead from a node back to a first one by way of a list, of which the node is the last. -/
inductive Threads (g : Graph) (first : NodeId) : List NodeId → NodeId → Prop where
  | nil : Threads g first [] first
  | snoc {ns : List NodeId} {d n : NodeId} : Threads g first ns d → (g.kind? n).bind (·.dependency?) = some d →
      Threads g first (ns ++ [n]) n

theorem endOf_eq_some {g : Graph} {b : BlockId} {n : NodeId} : g.endOf b = some n ↔ g.terminator b = .ok n := by
  rw [terminator, endOf]
  cases g.blocks[b]?.bind (·.terminator) <;> simp

theorem chain_eq {g : Graph} {b : BlockId} {n d : NodeId} (hend : g.endOf b = some n)
    (hd : (g.kind? n).bind (·.dependency?) = some d) : g.chain b = g.effectsTo d := by
  rw [chain, endOf_eq_some.1 hend]
  simp only [Except.toOption, Option.bind_some, hd]

section

variable {g g' : Graph} (hnode : ∀ (n : NodeId) x, g.nodes[n]? = some x → g'.nodes[n]? = some x)

include hnode

theorem Threads.mono {first n : NodeId} {ns : List NodeId} (ht : g.Threads first ns n) : g'.Threads first ns n := by
  induction ht with
  | nil => exact .nil
  | snoc _ hd ih =>
      obtain ⟨k, hk, hd⟩ := Option.bind_eq_some_iff.1 hd
      obtain ⟨x, hx, rfl⟩ := Option.map_eq_some_iff.1 hk
      exact ih.snoc (by rw [kind?_of_getElem? (hnode _ x hx)]; exact hd)

theorem kind?_of_within {n : NodeId} (hn : n < g.nodes.size) : g'.kind? n = g.kind? n := by
  have hx := Array.getElem?_eq_getElem hn
  rw [kind?_of_getElem? hx, kind?_of_getElem? (hnode n _ hx)]

theorem pinned?_of_within {n : NodeId} (hn : n < g.nodes.size) : g'.pinned? n = g.pinned? n := by
  have hx := Array.getElem?_eq_getElem hn
  rw [pinned?_of_getElem? hx, pinned?_of_getElem? (hnode n _ hx)]

theorem effectsTo_of_within {n : NodeId} (hn : n < g.nodes.size) : g'.effectsTo n = g.effectsTo n := by
  induction n using Nat.strongRecOn with
  | ind n ih =>
      rw [effectsTo, effectsTo, kind?_of_within hnode hn]
      cases (g.kind? n).bind (·.effectDependency?) with
      | none => rfl
      | some d =>
          by_cases hlt : d < n
          · simp only [if_pos hlt, ih d hlt (Nat.lt_trans hlt hn)]
          · simp only [if_neg hlt]

end

theorem getElem?_of_push {g g' : Graph} {x : Node} (hnodes : g'.nodes = g.nodes.push x) (n : NodeId) (y : Node)
    (hy : g.nodes[n]? = some y) : g'.nodes[n]? = some y := by
  have hlt := (Array.getElem?_eq_some_iff.1 hy).1
  rw [hnodes, Array.getElem?_push, if_neg (by omega), hy]

theorem effectsIn_push {g g' : Graph} {x : Node} (hnodes : g'.nodes = g.nodes.push x) (b : BlockId) :
    g'.effectsIn b = g.effectsIn b ++
      if x.kind.effectDependency?.isSome && x.pinned == some b then [g.nodes.size] else [] := by
  have hnew : g'.nodes[g.nodes.size]? = some x := by rw [hnodes, Array.getElem?_push_size]
  rw [effectsIn, effectsIn, hnodes, Array.size_push, List.range_succ, List.filter_append]
  congr 1
  · refine List.filter_congr fun n hn => ?_
    have hlt := List.mem_range.1 hn
    rw [isEffect, isEffect, kind?_of_within (getElem?_of_push hnodes) hlt,
      pinned?_of_within (getElem?_of_push hnodes) hlt]
  · rw [List.filter_cons, List.filter_nil, isEffect, kind?_of_getElem? hnew, pinned?_of_getElem? hnew]
    rfl

end Graph

namespace Builder

structure Quiet (b b' : Builder) : Prop where
  nodes : b'.graph.nodes = b.graph.nodes ∨ ∃ x : Node, x.kind.dependency? = none ∧
    b'.graph.nodes = b.graph.nodes.push x
  current : b'.current = b.current
  lastEffect : b'.lastEffect = b.lastEffect

/-- What a request does to the chain of effects. -/
inductive Step (b : Builder) : Request → Builder → Prop where
  | quiet {r : Request} {b' : Builder} : Quiet b b' → b'.graph.blocks = b.graph.blocks → (∀ c, r ≠ .begin c) →
      Step b r b'
  | newBlock {label : String} {b' : Builder} {d : BlockData} : Quiet b b' →
      b'.graph.blocks = b.graph.blocks.push d → d.terminator = none → Step b (.newBlock label) b'
  | begin {c : BlockId} {d : BlockData} : b.graph.blocks[c]? = some d →
      Step b (.begin c) { b with current := c, lastEffect := d.entry }
  | effect {r : Request} {b' : Builder} {x : Node} : b.graph.endOf b.current = none →
      x.kind.effectDependency? = some b.lastEffect → x.pinned = some b.current →
      b'.graph.nodes = b.graph.nodes.push x → b'.graph.blocks = b.graph.blocks → b'.current = b.current →
      b'.lastEffect = b.graph.nodes.size → (∀ c, r ≠ .begin c) → Step b r b'
  | terminate {r : Request} {b' : Builder} {x : Node} {t : TerminatorNode} : b.graph.endOf b.current = none →
      x.kind = .terminator t → t.dependency = b.lastEffect → b'.graph.nodes = b.graph.nodes.push x →
      b'.graph.blocks = (b.graph.blocks.modify b.current fun d => { d with terminator := some b.graph.nodes.size }) →
      b'.current = b.current → (∀ c, r ≠ .begin c) → Step b r b'

section

variable {b b' : Builder}

theorem open_of_checkOpen (h : b.checkOpen.misplaced = none) :
    b.misplaced = none ∧ b.graph.endOf b.current = none := by
  rw [checkOpen] at h
  rw [Graph.endOf]
  split at h
  · cases hm : b.misplaced <;> rw [hm] at h <;> cases h
  · rename_i hnot
    refine ⟨h, ?_⟩
    cases hd : b.graph.blocks[b.current]? with
    | none => rfl
    | some d =>
        obtain ⟨label, entry, terminator⟩ := d
        cases terminator with
        | none => rfl
        | some n => exact absurd hd (hnot label entry n)

theorem Step.of_pure {r : Request} {type : Ty} {op : ValueOp} (hop : op.isPure = true) (hr : ∀ c, r ≠ .begin c)
    (hnone : (b.value type op).2.misplaced = none) : b.misplaced = none ∧ Step b r (b.value type op).2 := by
  rw [value, if_pos hop] at hnone ⊢
  cases hinterned : b.interned? ⟨type, op⟩ with
  | some n =>
      rw [hinterned] at hnone
      exact ⟨hnone, .quiet ⟨.inl rfl, rfl, rfl⟩ rfl hr⟩
  | none =>
      rw [hinterned] at hnone
      refine ⟨hnone, .quiet ⟨.inr ⟨_, ?_, rfl⟩, rfl, rfl⟩ rfl hr⟩
      cases op <;> first | rfl | cases hop

theorem value_of_pinned (b : Builder) (type : Ty) {op : ValueOp} (hop : op.isPure = false) :
    b.value type op = b.checkOpen.push (.value ⟨type, op⟩) (some b.current) := by
  rw [value, if_neg (by rw [hop]; decide)]

theorem Step.of_effect {r : Request} {type : Ty} {op : ValueOp} (hop : op.isPure = false)
    (hdependency : (NodeKind.value ⟨type, op⟩).effectDependency? = some b.lastEffect) (hr : ∀ c, r ≠ .begin c)
    (hnone : (b.effect type op).2.misplaced = none) : b.misplaced = none ∧ Step b r (b.effect type op).2 := by
  obtain ⟨misplaced, hopen⟩ := b.checkOpen_eq
  rw [Builder.effect, value_of_pinned b type hop] at hnone ⊢
  obtain ⟨hm, hend⟩ := open_of_checkOpen hnone
  refine ⟨hm, .effect (x := ⟨b.info, some b.current, .value ⟨type, op⟩⟩) hend hdependency rfl ?_ ?_ ?_ ?_ hr⟩
  all_goals
    rw [hopen]
    rfl

theorem Step.of_action {r : Request} {a : ActionNode}
    (hdependency : (NodeKind.action a).effectDependency? = some b.lastEffect) (hr : ∀ c, r ≠ .begin c)
    (hnone : (b.action a).2.misplaced = none) : b.misplaced = none ∧ Step b r (b.action a).2 := by
  obtain ⟨misplaced, hopen⟩ := b.checkOpen_eq
  rw [Builder.action] at hnone ⊢
  obtain ⟨hm, hend⟩ := open_of_checkOpen hnone
  refine ⟨hm, .effect (x := ⟨b.info, some b.current, .action a⟩) hend hdependency rfl ?_ ?_ ?_ ?_ hr⟩
  all_goals
    rw [hopen]
    rfl

theorem Step.of_terminate {r : Request} {t : TerminatorNode} (hdependency : t.dependency = b.lastEffect)
    (hr : ∀ c, r ≠ .begin c) (hnone : (b.terminate t).2.misplaced = none) :
    b.misplaced = none ∧ Step b r (b.terminate t).2 := by
  obtain ⟨misplaced, hopen⟩ := b.checkOpen_eq
  rw [Builder.terminate] at hnone ⊢
  obtain ⟨hm, hend⟩ := open_of_checkOpen hnone
  refine ⟨hm, .terminate (x := ⟨b.info, some b.current, .terminator t⟩) hend rfl hdependency ?_ ?_ ?_ hr⟩
  all_goals
    rw [hopen]
    rfl

/-- Each request does one of few things to the chain, unless it is noted as misplaced. -/
theorem Step.of_apply {r : Request} (hknown : r.Known b) (hb : r.apply b = .ok b') (hnone : b'.misplaced = none) :
    b.misplaced = none ∧ Step b r b' := by
  by_cases hbegin : ∃ c, r = .begin c
  · obtain ⟨c, rfl⟩ := hbegin
    cases hb
    have hc : c < b.graph.blocks.size := hknown.2 c (by simp [Request.blocks])
    have hd := Array.getElem?_eq_getElem hc
    rw [Builder.begin, hd] at hnone ⊢
    exact ⟨hnone, .begin hd⟩
  have hr : ∀ c, r ≠ .begin c := fun c h => hbegin ⟨c, h⟩
  cases r <;> simp only [Request.apply, Except.ok.injEq] at hb
  case addPhiInput n pred value =>
    rw [Builder.addPhiInput] at hb
    split at hb
    · cases hb
      exact ⟨hnone, .quiet ⟨.inl rfl, rfl, rfl⟩ rfl hr⟩
    · cases hb
  all_goals subst hb
  case newBlock label =>
    exact ⟨hnone, .newBlock (d := ⟨label, b.graph.nodes.size, none⟩) ⟨.inr ⟨_, rfl, rfl⟩, rfl, rfl⟩ rfl rfl⟩
  case begin c => exact absurd ⟨c, rfl⟩ hbegin
  case setLocation | setCallSite => exact ⟨hnone, .quiet ⟨.inl rfl, rfl, rfl⟩ rfl hr⟩
  case boolLiteral | intLiteral | floatLiteral | nullLiteral | parameter | pointerLiteral | binary | neg | cmp |
      conversion | select | virtualLookup | interfaceLookup =>
    exact Step.of_pure rfl hr hnone
  case phi type =>
    obtain ⟨misplaced, hopen⟩ := b.checkOpen_eq
    rw [Builder.phi, value_of_pinned b type rfl] at hnone ⊢
    refine ⟨(open_of_checkOpen hnone).1,
      .quiet ⟨.inr ⟨⟨b.info, some b.current, .value ⟨type, .phi b.graph.phis.size⟩⟩, rfl, ?_⟩, ?_, ?_⟩ ?_ hr⟩
    all_goals
      rw [hopen]
      rfl
  case catchValue =>
    obtain ⟨misplaced, hopen⟩ := b.checkOpen_eq
    rw [Builder.catchValue, value_of_pinned b _ rfl] at hnone ⊢
    refine ⟨(open_of_checkOpen hnone).1,
      .quiet ⟨.inr ⟨⟨b.info, some b.current, .value ⟨.reference, .catchException⟩⟩, rfl, ?_⟩, ?_, ?_⟩ ?_ hr⟩
    all_goals
      rw [hopen]
      rfl
  case load | call | callIndirect => exact Step.of_effect rfl rfl hr hnone
  case store | monitorEnter | monitorExit => exact Step.of_action rfl hr hnone
  case goto | ifThenElse | returnValue | returnVoid | unreachable | throw =>
    exact Step.of_terminate rfl hr hnone

theorem Quiet.node (hq : Quiet b b') (n : NodeId) (x : Node) (hx : b.graph.nodes[n]? = some x) :
    b'.graph.nodes[n]? = some x := by
  rcases hq.nodes with hnodes | ⟨y, -, hnodes⟩
  · rw [hnodes, hx]
  · exact Graph.getElem?_of_push hnodes n x hx

theorem effectDependency?_of_dependency? {k : NodeKind} (hk : k.dependency? = none) :
    k.effectDependency? = none := by
  cases k with
  | terminator t => cases hk
  | value | action => exact hk

theorem Quiet.effectsIn (hq : Quiet b b') (c : BlockId) : b'.graph.effectsIn c = b.graph.effectsIn c := by
  rcases hq.nodes with hnodes | ⟨x, hx, hnodes⟩
  · rw [Graph.effectsIn, Graph.effectsIn, hnodes]
    refine List.filter_congr fun n _ => ?_
    rw [Graph.isEffect, Graph.isEffect, Graph.kind?, Graph.kind?, Graph.pinned?, Graph.pinned?, hnodes]
  · rw [Graph.effectsIn_push hnodes, effectDependency?_of_dependency? hx]
    exact List.append_nil _

end

/-- Dependencies lead from an effect of a block back to its entry, by way of the effects made in the block but the
first ones, which were lost. -/
def Reached (g : Graph) (c : BlockId) (lost : List NodeId) (last : NodeId) : Prop :=
  ∃ d, g.blocks[c]? = some d ∧ g.Threads d.entry (g.effectsTo last) last ∧ g.effectsIn c = lost ++ g.effectsTo last

theorem Reached.mono {g g' : Graph} {c : BlockId} {lost : List NodeId} {last : NodeId} (hr : Reached g c lost last)
    (hnode : ∀ (n : NodeId) x, g.nodes[n]? = some x → g'.nodes[n]? = some x) (hlast : last < g.nodes.size)
    (hentry : ∀ d, g.blocks[c]? = some d → ∃ d', g'.blocks[c]? = some d' ∧ d'.entry = d.entry)
    (heffects : g'.effectsIn c = g.effectsIn c) : Reached g' c lost last := by
  obtain ⟨d, hd, hthreads, hall⟩ := hr
  obtain ⟨d', hd', heq⟩ := hentry d hd
  refine ⟨d', hd', ?_⟩
  rw [Graph.effectsTo_of_within hnode hlast, heffects, heq]
  exact ⟨hthreads.mono hnode, hall⟩

/-- What is kept of the effects of each block, next to those that were lost. -/
structure Kept (b : Builder) (lost : BlockId → List NodeId) : Prop where
  current : b.graph.endOf b.current = none → Reached b.graph b.current (lost b.current) b.lastEffect
  ended : ∀ c n, b.graph.endOf c = some n →
    ∃ d, (b.graph.kind? n).bind (·.dependency?) = some d ∧ Reached b.graph c (lost c) d
  prefixes : ∀ c, lost c <+: b.graph.effectsIn c

section

variable {b b' : Builder} {lost lost' : BlockId → List NodeId}

theorem lt_of_dependency {g : Graph} (h : g.WellFormed) {n d : NodeId}
    (hd : (g.kind? n).bind (·.dependency?) = some d) : d < g.nodes.size := by
  obtain ⟨k, hk, hdep⟩ := Option.bind_eq_some_iff.1 hd
  obtain ⟨x, hx, rfl⟩ := Option.map_eq_some_iff.1 hk
  obtain ⟨y, hy, -⟩ := (h.node n x hx).dependency d hdep
  exact (Array.getElem?_eq_some_iff.1 hy).1

theorem Sound.lastEffect_lt (hs : b.Sound) : b.lastEffect < b.graph.nodes.size := by
  obtain ⟨x, hx, -⟩ := hs.lastEffect
  exact (Array.getElem?_eq_some_iff.1 hx).1

theorem Kept.ended_mono (hk : Kept b lost) (hs : b.Sound)
    (hnode : ∀ (n : NodeId) x, b.graph.nodes[n]? = some x → b'.graph.nodes[n]? = some x) {c : BlockId} {n : NodeId}
    (hend : b.graph.endOf c = some n)
    (hentry : ∀ d, b.graph.blocks[c]? = some d → ∃ d', b'.graph.blocks[c]? = some d' ∧ d'.entry = d.entry)
    (heffects : b'.graph.effectsIn c = b.graph.effectsIn c) :
    ∃ d, (b'.graph.kind? n).bind (·.dependency?) = some d ∧ Reached b'.graph c (lost c) d := by
  obtain ⟨d, hd, hr⟩ := hk.ended c n hend
  obtain ⟨x, t, hx, -⟩ := Graph.terminator_eq_ok hs.graph (Graph.endOf_eq_some.1 hend)
  refine ⟨d, ?_, hr.mono hnode (lt_of_dependency hs.graph hd) hentry heffects⟩
  rw [Graph.kind?_of_within hnode (Array.getElem?_eq_some_iff.1 hx).1]
  exact hd

theorem Kept.quiet (hk : Kept b lost) (hs : b.Sound) (hq : Quiet b b')
    (hentry : ∀ (c : BlockId) d, b.graph.blocks[c]? = some d → b'.graph.blocks[c]? = some d)
    (hend : ∀ c, b'.graph.endOf c = b.graph.endOf c) : Kept b' lost := by
  refine ⟨fun hopen => ?_, fun c n hn => ?_, fun c => ?_⟩
  · rw [hq.current, hend] at hopen
    rw [hq.current, hq.lastEffect]
    exact (hk.current hopen).mono hq.node hs.lastEffect_lt (fun d hd => ⟨d, hentry _ d hd, rfl⟩) (hq.effectsIn _)
  · exact hk.ended_mono hs hq.node ((hend c).symm.trans hn) (fun d hd => ⟨d, hentry c d hd, rfl⟩) (hq.effectsIn c)
  · rw [hq.effectsIn]
    exact hk.prefixes c

/-- What a block that is open loses by a request: its effects so far, when it is begun. -/
def losesBy (b : Builder) (lost : BlockId → List NodeId) (r : Request) (c : BlockId) : List NodeId :=
  match r with
  | .begin c' => if c' = c ∧ b.graph.endOf c = none then b.graph.effectsIn c else lost c
  | _ => lost c

theorem losesBy_begin {c : BlockId} (hopen : b.graph.endOf c = none) :
    losesBy b lost (.begin c) c = b.graph.effectsIn c := if_pos ⟨rfl, hopen⟩

theorem losesBy_of_not {r : Request} {c : BlockId} (hr : ¬ (r = .begin c ∧ b.graph.endOf c = none)) :
    losesBy b lost r c = lost c := by
  cases r with
  | «begin» c' =>
      refine if_neg ?_
      rintro ⟨rfl, hopen⟩
      exact hr ⟨rfl, hopen⟩
  | _ => rfl

theorem losesBy_of_ne {r : Request} (hr : ∀ c, r ≠ .begin c) : losesBy b lost r = lost :=
  funext fun c => losesBy_of_not fun h => hr c h.1

/-- A block that is begun again starts over: what it had so far is lost. -/
theorem Kept.begin (hk : Kept b lost) (hs : b.Sound) {c : BlockId} {d : BlockData} (hd : b.graph.blocks[c]? = some d) :
    Kept { b with current := c, lastEffect := d.entry } (losesBy b lost (.begin c)) := by
  refine ⟨fun hopen => ⟨d, hd, ?_⟩, fun c' n hn => ?_, fun c' => ?_⟩
  · obtain ⟨x, hx, hmarker⟩ := (hs.graph.block c d hd).entry
    have hnil : b.graph.effectsTo d.entry = [] := by
      rw [Graph.effectsTo, Graph.kind?_of_getElem? hx, hmarker]
      rfl
    dsimp only at hopen ⊢
    rw [hnil, losesBy_begin hopen, List.append_nil]
    exact ⟨.nil, rfl⟩
  · have hlost : losesBy b lost (.begin c) c' = lost c' :=
      losesBy_of_not fun h => by cases h.2.symm.trans hn
    rw [hlost]
    exact @Kept.ended_mono b { b with current := c, lastEffect := d.entry } lost hk hs (fun _ _ hx => hx) c' n hn
      (fun d hd => ⟨d, hd, rfl⟩) rfl
  · rw [losesBy]
    split
    · exact List.prefix_rfl
    · exact hk.prefixes c'

theorem Kept.effect (hk : Kept b lost) (hs : b.Sound) {x : Node} (hopen : b.graph.endOf b.current = none)
    (hdep : x.kind.effectDependency? = some b.lastEffect) (hpinned : x.pinned = some b.current)
    (hnodes : b'.graph.nodes = b.graph.nodes.push x) (hblocks : b'.graph.blocks = b.graph.blocks)
    (hcurrent : b'.current = b.current) (hlast : b'.lastEffect = b.graph.nodes.size) : Kept b' lost := by
  have hnode := Graph.getElem?_of_push hnodes
  have hend : ∀ c, b'.graph.endOf c = b.graph.endOf c := fun c => by rw [Graph.endOf, Graph.endOf, hblocks]
  have heffects := Graph.effectsIn_push hnodes
  simp only [hdep, hpinned, Option.isSome_some, Bool.true_and, beq_iff_eq, Option.some.injEq] at heffects
  refine ⟨fun _ => ?_, fun c n hn => ?_, fun c => ?_⟩
  · obtain ⟨d, hd, hthreads, hall⟩ := hk.current hopen
    have hkind := Graph.kind?_of_getElem? (g := b'.graph) (n := b.graph.nodes.size)
      (by rw [hnodes, Array.getElem?_push_size])
    have hto : b'.graph.effectsTo b.graph.nodes.size = b.graph.effectsTo b.lastEffect ++ [b.graph.nodes.size] := by
      rw [Graph.effectsTo, hkind, Option.bind_some, hdep, ← Graph.effectsTo_of_within hnode hs.lastEffect_lt]
      exact if_pos hs.lastEffect_lt
    rw [hcurrent, hlast]
    refine ⟨d, hblocks ▸ hd, ?_, ?_⟩
    · rw [hto]
      refine (hthreads.mono hnode).snoc ?_
      rw [hkind]
      exact Graph.dependency?_of_effectDependency? hdep
    · rw [hto, heffects, if_pos rfl, hall, List.append_assoc]
  · rw [hend] at hn
    have hother : b.current ≠ c := by
      rintro rfl
      cases hopen.symm.trans hn
    refine hk.ended_mono hs hnode hn (fun d hd => ⟨d, hblocks ▸ hd, rfl⟩) ?_
    rw [heffects, if_neg hother, List.append_nil]
  · rw [heffects]
    exact (hk.prefixes c).trans (List.prefix_append _ _)

theorem Kept.terminate (hk : Kept b lost) (hs : b.Sound) {x : Node} {t : TerminatorNode}
    (hopen : b.graph.endOf b.current = none) (hkind : x.kind = .terminator t) (hdep : t.dependency = b.lastEffect)
    (hnodes : b'.graph.nodes = b.graph.nodes.push x)
    (hblocks : b'.graph.blocks =
      b.graph.blocks.modify b.current fun d => { d with terminator := some b.graph.nodes.size })
    (hcurrent : b'.current = b.current) : Kept b' lost := by
  have hnode := Graph.getElem?_of_push hnodes
  have heffects : ∀ c, b'.graph.effectsIn c = b.graph.effectsIn c := fun c => by
    rw [Graph.effectsIn_push hnodes, hkind]
    exact List.append_nil _
  have hentry : ∀ (c : BlockId) d, b.graph.blocks[c]? = some d →
      ∃ d', b'.graph.blocks[c]? = some d' ∧ d'.entry = d.entry := by
    intro c d hd
    rw [hblocks, Array.getElem?_modify, hd]
    split
    · exact ⟨_, rfl, rfl⟩
    · exact ⟨d, rfl, rfl⟩
  have hlast : b'.graph.endOf b.current = some b.graph.nodes.size := by
    rw [Graph.endOf, hblocks, Array.getElem?_modify, if_pos rfl, Array.getElem?_eq_getElem hs.current]
    rfl
  refine ⟨fun hnone => ?_, fun c n hn => ?_, fun c => ?_⟩
  · rw [hcurrent, hlast] at hnone
    cases hnone
  · by_cases hc : b.current = c
    · subst hc
      cases hlast.symm.trans hn
      refine ⟨b.lastEffect, ?_, (hk.current hopen).mono hnode hs.lastEffect_lt (hentry _) (heffects _)⟩
      rw [Graph.kind?_of_getElem? (by rw [hnodes, Array.getElem?_push_size]), hkind, ← hdep]
      rfl
    · rw [Graph.endOf, hblocks, Array.getElem?_modify, if_neg hc] at hn
      exact hk.ended_mono hs hnode hn (hentry c) (heffects c)
  · rw [heffects]
    exact hk.prefixes c

theorem Kept.step (hk : Kept b lost) (hs : b.Sound) {r : Request} (hstep : Step b r b') :
    Kept b' (losesBy b lost r) := by
  cases hstep with
  | quiet hq hblocks hr =>
      rw [losesBy_of_ne hr]
      refine hk.quiet hs hq (fun c d hd => hblocks ▸ hd) fun c => ?_
      rw [Graph.endOf, Graph.endOf, hblocks]
  | newBlock hq hblocks hd =>
      refine hk.quiet hs hq (fun c d hd => ?_) fun c => ?_
      · have hlt := (Array.getElem?_eq_some_iff.1 hd).1
        rw [hblocks, Array.getElem?_push, if_neg (by omega), hd]
      · rw [Graph.endOf, Graph.endOf, hblocks, Array.getElem?_push]
        split
        · rename_i hc
          rw [hc, Array.getElem?_size]
          exact hd
        · rfl
  | «begin» hd => exact hk.begin hs hd
  | effect hopen hdep hpinned hnodes hblocks hcurrent hlast hr =>
      rw [losesBy_of_ne hr]
      exact hk.effect hs hopen hdep hpinned hnodes hblocks hcurrent hlast
  | terminate hopen hkind hdep hnodes hblocks hcurrent hr =>
      rw [losesBy_of_ne hr]
      exact hk.terminate hs hopen hkind hdep hnodes hblocks hcurrent

end

def perform (b : Builder) (r : Request) : Builder := (r.apply b).toOption.getD b

def built (m : Method) (rs : List Request) : Builder := rs.foldl perform (start m)

def AllKnown (b : Builder) : List Request → Prop
  | [] => True
  | r :: rs => r.Known b ∧ AllKnown (b.perform r) rs

instance decidableAllKnown (b : Builder) : (rs : List Request) → Decidable (AllKnown b rs)
  | [] => inferInstanceAs (Decidable True)
  | r :: rs =>
    have := decidableAllKnown (b.perform r) rs
    inferInstanceAs (Decidable (r.Known b ∧ AllKnown (b.perform r) rs))

def Reopens (m : Method) (rs : List Request) (c : BlockId) : Prop :=
  ∃ before after, rs = before ++ .begin c :: after ∧ (built m before).graph.endOf c = none ∧
    (built m before).graph.effectsIn c ≠ []

theorem allKnown_concat {b : Builder} {rs : List Request} {r : Request} :
    AllKnown b (rs ++ [r]) ↔ AllKnown b rs ∧ r.Known (rs.foldl perform b) := by
  induction rs generalizing b with
  | nil => simp [AllKnown]
  | cons r' rs ih => rw [List.cons_append, AllKnown, AllKnown, ih, and_assoc, List.foldl_cons]

theorem built_concat (m : Method) (rs : List Request) (r : Request) :
    built m (rs ++ [r]) = (built m rs).perform r := by
  rw [built, built, List.foldl_append]
  rfl

theorem concat_eq_append_cons {rs before after : List Request} {r r' : Request}
    (h : rs ++ [r] = before ++ r' :: after) :
    (after = [] ∧ rs = before ∧ r = r') ∨ ∃ rest, after = rest ++ [r] ∧ rs = before ++ r' :: rest := by
  rcases List.eq_nil_or_concat after with rfl | ⟨rest, x, rfl⟩
  · obtain ⟨rfl, hr⟩ := List.append_inj' h rfl
    exact .inl ⟨rfl, rfl, List.singleton_inj.1 hr⟩
  · rw [List.concat_eq_append, ← List.cons_append, ← List.append_assoc] at h
    obtain ⟨rfl, hr⟩ := List.append_inj' h rfl
    exact .inr ⟨rest, by rw [List.concat_eq_append, List.singleton_inj.1 hr], rfl⟩

theorem reopens_concat {m : Method} {rs : List Request} {r : Request} {c : BlockId} :
    Reopens m (rs ++ [r]) c ↔ Reopens m rs c ∨
      (r = .begin c ∧ (built m rs).graph.endOf c = none ∧ (built m rs).graph.effectsIn c ≠ []) := by
  constructor
  · rintro ⟨before, after, heq, hopen, hsome⟩
    rcases concat_eq_append_cons heq with ⟨rfl, rfl, rfl⟩ | ⟨rest, rfl, rfl⟩
    · exact .inr ⟨rfl, hopen, hsome⟩
    · exact .inl ⟨before, rest, rfl, hopen, hsome⟩
  · rintro (⟨before, after, rfl, hopen, hsome⟩ | ⟨rfl, hopen, hsome⟩)
    · exact ⟨before, after ++ [r], by rw [List.append_assoc, List.cons_append], hopen, hsome⟩
    · exact ⟨rs, [], rfl, hopen, hsome⟩

theorem perform_sound {b : Builder} (hs : b.Sound) {r : Request} (hr : r.Known b) : (b.perform r).Sound := by
  rw [perform]
  cases hb : r.apply b with
  | ok b' => exact hs.apply hr hb
  | error e => exact hs

theorem built_sound {m : Method} {rs : List Request} (hknown : AllKnown (start m) rs) : (built m rs).Sound := by
  induction rs using List.reverseRecOn with
  | nil => exact start_sound m
  | append_singleton rs r ih =>
      obtain ⟨hbefore, hr⟩ := allKnown_concat.1 hknown
      rw [built_concat]
      exact perform_sound (ih hbefore) hr

theorem kept_start (m : Method) : Kept (start m) fun _ => [] := by
  have hmarker : (start m).graph.kind? 0 = some (.action (.blockEntry 0)) := rfl
  have hnil : (start m).graph.effectsTo 0 = [] := by
    rw [Graph.effectsTo, hmarker]
    rfl
  refine ⟨fun _ => ⟨⟨"entry", 0, none⟩, rfl, ?_, ?_⟩, fun c n hn => ?_, fun c => List.nil_prefix⟩
  · rw [show (start m).lastEffect = 0 from rfl, hnil]
    exact .nil
  · rw [show (start m).lastEffect = 0 from rfl, hnil]
    rfl
  · cases c with
    | zero => cases hn
    | succ c => cases hn

theorem Step.of_perform {b : Builder} {r : Request} (hr : r.Known b) (hnone : (b.perform r).misplaced = none) :
    b.misplaced = none ∧ Step b r (b.perform r) := by
  rw [perform] at hnone ⊢
  cases hb : r.apply b with
  | ok b' =>
      rw [hb] at hnone
      exact Step.of_apply hr hb hnone
  | error e =>
      rw [hb] at hnone
      refine ⟨hnone, .quiet ⟨.inl rfl, rfl, rfl⟩ rfl ?_⟩
      rintro c rfl
      cases hb

/-- What blocks lose in a run: a block loses something when it is reopened, and what it loses it had when it was
begun last. -/
theorem exists_kept {m : Method} {rs : List Request} (hknown : AllKnown (start m) rs)
    (hnone : (built m rs).misplaced = none) :
    ∃ lost, Kept (built m rs) lost ∧ (∀ c, lost c ≠ [] ↔ Reopens m rs c) ∧
      ∀ c before after, rs = before ++ .begin c :: after → (built m before).graph.endOf c = none →
        .begin c ∉ after → lost c = (built m before).graph.effectsIn c := by
  induction rs using List.reverseRecOn with
  | nil =>
      refine ⟨fun _ => [], kept_start m, fun c => ?_, fun c before after heq => ?_⟩
      · refine iff_of_false (fun h => h rfl) ?_
        rintro ⟨before, after, heq, -⟩
        simp at heq
      · simp at heq
  | append_singleton rs r ih =>
      obtain ⟨hbefore, hr⟩ := allKnown_concat.1 hknown
      rw [built_concat] at hnone ⊢
      obtain ⟨hnone, hstep⟩ := Step.of_perform hr hnone
      obtain ⟨lost, hk, hreopens, hlost⟩ := ih hbefore hnone
      refine ⟨losesBy (built m rs) lost r, hk.step (built_sound hbefore) hstep, fun c => ?_,
        fun c before after heq hopen hafter => ?_⟩
      · rw [reopens_concat, ← hreopens c]
        by_cases hbegin : r = .begin c ∧ (built m rs).graph.endOf c = none
        · obtain ⟨rfl, hopen⟩ := hbegin
          rw [losesBy_begin hopen]
          refine ⟨fun h => .inr ⟨rfl, hopen, h⟩, ?_⟩
          rintro (h | ⟨-, -, h⟩)
          · exact fun hnil => h (List.prefix_nil.1 (hnil ▸ hk.prefixes c))
          · exact h
        · rw [losesBy_of_not hbegin]
          exact (or_iff_left fun h => hbegin ⟨h.1, h.2.1⟩).symm
      · rcases concat_eq_append_cons heq with ⟨-, rfl, rfl⟩ | ⟨rest, rfl, rfl⟩
        · exact losesBy_begin hopen
        · rw [List.mem_append, List.mem_singleton, not_or] at hafter
          rw [losesBy_of_not fun h => hafter.2 h.1.symm]
          exact hlost c before rest rfl hopen hafter.1

/-- A block that is part of a finished graph has its effects in the order in which they were made: those from where it
was begun last. It has all of them unless it was begun again, still open, after an effect was made in it. -/
theorem finish_keeps_effects {m : Method} {rs : List Request} {g : Graph} (hknown : AllKnown (start m) rs)
    (hg : (built m rs).finish = .ok g) {c : BlockId} (hc : c ∈ g.reachable) :
    ∃ n d, g.terminator c = .ok n ∧ g.blocks[c]? = some d ∧ g.kind? d.entry = some (.action (.blockEntry c)) ∧
      g.Threads d.entry (g.chain c ++ [n]) n ∧ g.chain c <:+ g.effectsIn c ∧
      (g.chain c = g.effectsIn c ↔ ¬ Reopens m rs c) ∧
      ∀ before after, rs = before ++ .begin c :: after → (built m before).graph.endOf c = none →
        .begin c ∉ after → g.effectsIn c = (built m before).graph.effectsIn c ++ g.chain c := by
  have hnone : (built m rs).misplaced = none := by
    rw [finish] at hg
    split at hg
    · cases hg
    · assumption
  obtain ⟨rfl, hends⟩ := finish_eq_ok hg
  obtain ⟨lost, hk, hreopens, hlost⟩ := exists_kept hknown hnone
  obtain ⟨n, hn⟩ := hends c hc
  have hend := Graph.endOf_eq_some.2 hn
  obtain ⟨last, hlast, d, hd, hthreads, hall⟩ := hk.ended c n hend
  obtain ⟨x, hx, hmarker⟩ := ((built_sound hknown).graph.block c d hd).entry
  rw [← Graph.chain_eq hend hlast] at hthreads hall
  refine ⟨n, d, hn, hd, ?_, hthreads.snoc hlast, ⟨lost c, hall.symm⟩, ?_, fun before after heq hopen hafter => ?_⟩
  · rw [Graph.kind?_of_getElem? hx, hmarker]
  · rw [← hreopens c, not_ne_iff, hall, List.self_eq_append_left]
  · rw [← hlost c before after heq hopen hafter, hall]

end Builder

namespace Example

def swapper : Method :=
  ⟨"zoo/Cell", "swap", ⟨[.object "zoo/Cell", .object "zoo/Cell"], .void⟩, { isStatic := true }, true⟩

def inOrder : List Request := [.newBlock "exit", .parameter 0 .reference, .parameter 1 .reference,
  .store 2 3 .plain, .goto 1, .begin 1, .store 3 2 .plain, .load 2 .reference .plain, .returnVoid]

def inTurns : List Request := [.newBlock "exit", .parameter 0 .reference, .parameter 1 .reference,
  .store 2 3 .plain, .begin 1, .returnVoid, .begin 0, .goto 1]

theorem finish_keeps_effects_in_order : ∃ g, (Builder.built swapper inOrder).finish = .ok g ∧ 1 ∈ g.reachable ∧
    g.chain 1 = [6, 7] ∧ g.effectsIn 1 = [6, 7] ∧ ¬ Builder.Reopens swapper inOrder 1 := by
  have hfinish : (Builder.built swapper inOrder).finish = .ok _ := Builder.finish_of_matches (by cbv)
  have hblocks : (Builder.built swapper inOrder).graph.reachable = [0, 1] := by cbv
  have hreach : 1 ∈ (Builder.built swapper inOrder).graph.reachable := by
    rw [hblocks]
    decide
  have hchain : (Builder.built swapper inOrder).graph.chain 1 = [6, 7] := by cbv
  have heffects : (Builder.built swapper inOrder).graph.effectsIn 1 = [6, 7] := by cbv
  obtain ⟨n, d, -, -, -, -, -, hall, -⟩ := Builder.finish_keeps_effects (by decide +kernel) hfinish hreach
  exact ⟨_, hfinish, hreach, hchain, heffects, hall.1 (hchain.trans heffects.symm)⟩

/-- The store is no effect of its block any more, and nothing is wrong with the graph. -/
theorem not_finish_keeps_effects_in_turns : ∃ g, Builder.AllKnown (.start swapper) inTurns ∧
    (Builder.built swapper inTurns).finish = .ok g ∧ 0 ∈ g.reachable ∧ g.isEffect 4 = true ∧
    g.pinned? 4 = some 0 ∧ g.chain 0 = [] := by
  have hfinish : (Builder.built swapper inTurns).finish = .ok _ := Builder.finish_of_matches (by cbv)
  have hblocks : (Builder.built swapper inTurns).graph.reachable = [0, 1] := by cbv
  refine ⟨_, by decide +kernel, hfinish, ?_, by cbv, by cbv, by cbv⟩
  rw [hblocks]
  decide

end Example

end NativeBackend
