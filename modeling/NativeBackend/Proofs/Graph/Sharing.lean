import NativeBackend.Proofs.Graph.Equality
import NativeBackend.Proofs.Graph.Kept

namespace NativeBackend

theorem pairwise_lt_snoc {l : List Nat} {d n : Nat} (h : (l ++ [d]).Pairwise (· < ·)) (hlt : d < n) :
    (l ++ [d] ++ [n]).Pairwise (· < ·) := by
  refine List.pairwise_append.2 ⟨h, List.pairwise_singleton _ _, fun m hm n' hn' => ?_⟩
  rw [List.mem_singleton.1 hn']
  rcases List.mem_append.1 hm with hm | hm
  · exact ((List.pairwise_append.1 h).2.2 m hm d (List.mem_singleton_self d)).trans hlt
  · rwa [List.mem_singleton.1 hm]

namespace Graph

def entryOf? (g : Graph) (c : BlockId) : Option NodeId := g.blocks[c]?.map (·.entry)

/-- There is one node for a pure value, and one entry marker for a block. -/
structure Distinct (g : Graph) : Prop where
  pure : ∀ n n' v v', g.kind? n = some (.value v) → g.kind? n' = some (.value v') → v.op.isPure = true →
    v'.op.isPure = true → (v == v') = true → n = n'
  marker : ∀ n c, g.kind? n = some (.action (.blockEntry c)) → g.entryOf? c = some n

/-- Another graph goes on from a graph: there is at most one more node, which is no pure value that was there before,
and which is the entry marker of its block if it is a marker at all. -/
structure Grows (g g' : Graph) : Prop where
  entry : ∀ c n, g.entryOf? c = some n → g'.entryOf? c = some n
  nodes : g'.nodes = g.nodes ∨ ∃ x : Node, g'.nodes = g.nodes.push x ∧
    (∀ v, x.kind = .value v → v.op.isPure = true →
      ∀ n w, g.kind? n = some (.value w) → w.op.isPure = true → (w == v) = false) ∧
    ∀ c, x.kind = .action (.blockEntry c) → g'.entryOf? c = some g.nodes.size

variable {g g' : Graph}

theorem kind?_push {x : Node} (hnodes : g'.nodes = g.nodes.push x) {n : NodeId} {k : NodeKind}
    (hk : g'.kind? n = some k) : g.kind? n = some k ∨ n = g.nodes.size ∧ k = x.kind := by
  obtain ⟨y, hy, rfl⟩ := Option.map_eq_some_iff.1 hk
  rw [hnodes, Array.getElem?_push] at hy
  split at hy
  · rename_i hn
    exact .inr ⟨hn, congrArg Node.kind (Option.some.inj hy).symm⟩
  · exact .inl (kind?_of_getElem? hy)

theorem Distinct.grows (h : g.Distinct) (hg : g.Grows g') : g'.Distinct := by
  rcases hg.nodes with hnodes | ⟨x, hnodes, hpure, hmarker⟩
  · have hkind : ∀ n, g'.kind? n = g.kind? n := fun n => by rw [kind?, kind?, hnodes]
    exact ⟨fun n n' v v' hv hv' => h.pure n n' v v' (hkind n ▸ hv) (hkind n' ▸ hv'),
      fun n c hn => hg.entry c n (h.marker n c (hkind n ▸ hn))⟩
  · refine ⟨fun n n' v v' hv hv' hp hp' heq => ?_, fun n c hn => ?_⟩
    · rcases kind?_push hnodes hv with hv | ⟨rfl, hx⟩ <;> rcases kind?_push hnodes hv' with hv' | ⟨rfl, hx'⟩
      · exact h.pure n n' v v' hv hv' hp hp' heq
      · rw [hpure v' hx'.symm hp' n v hv hp] at heq
        cases heq
      · rw [BEq.comm, hpure v hx.symm hp n' v' hv' hp'] at heq
        cases heq
      · rfl
    · rcases kind?_push hnodes hn with hn | ⟨rfl, hx⟩
      · exact hg.entry c n (h.marker n c hn)
      · exact hmarker c hx.symm

theorem Grows.of_eq (hnodes : g'.nodes = g.nodes) (hblocks : g'.blocks = g.blocks) : g.Grows g' :=
  ⟨fun c n hn => by rwa [entryOf?, hblocks], .inl hnodes⟩

theorem Grows.of_pinned {x : Node} (hnodes : g'.nodes = g.nodes.push x)
    (hvalue : ∀ v, x.kind = .value v → v.op.isPure = false) (hmarker : ∀ c, x.kind ≠ .action (.blockEntry c))
    (hentry : ∀ c, g'.entryOf? c = g.entryOf? c) : g.Grows g' := by
  refine ⟨fun c n hn => (hentry c).trans hn, .inr ⟨x, hnodes, fun v hv hp => ?_, fun c hc => absurd hc (hmarker c)⟩⟩
  rw [hvalue v hv] at hp
  cases hp

theorem dependency_lt (h : g.WellFormed) {n d : NodeId} (hd : (g.kind? n).bind (·.dependency?) = some d) : d < n := by
  obtain ⟨k, hk, hdep⟩ := Option.bind_eq_some_iff.1 hd
  refine (input_lt h (i := d) ?_).1
  cases k with
  | terminator t =>
      cases hdep
      rw [inputs_of_kind hk]
      exact dependency_mem_terminator t
  | value | action => exact dependency_mem_inputs (Option.bind_eq_some_iff.2 ⟨_, hk, hdep⟩)

/-- Dependencies lead from a node back to the entry marker of its block, always to an older node, by way of effects
that are pinned to the block. -/
def Anchored (g : Graph) (n : NodeId) : Prop :=
  ∃ c data ns, g.pinned? n = some c ∧ g.blocks[c]? = some data ∧
    g.kind? data.entry = some (.action (.blockEntry c)) ∧ g.Threads data.entry (ns ++ [n]) n ∧
    (data.entry :: (ns ++ [n])).Pairwise (· < ·) ∧ ∀ m ∈ ns, g.isEffect m = true ∧ g.pinned? m = some c

theorem anchored_of_dependency (h : g.WellFormed) (hdistinct : g.Distinct) {n d : NodeId}
    (hd : (g.kind? n).bind (·.dependency?) = some d) : g.Anchored n := by
  induction n using Nat.strongRecOn generalizing d with
  | ind n ih =>
      obtain ⟨c, hn, hdc⟩ := pinned?_dependency h hd
      have hlt := dependency_lt h hd
      obtain ⟨k, hk, hdep⟩ := Option.bind_eq_some_iff.1 hd
      obtain ⟨x, hx, rfl⟩ := Option.map_eq_some_iff.1 hk
      obtain ⟨y, hy, -, ⟨c', hmarker⟩ | heffect⟩ := (h.node n x hx).dependency d hdep
      · have hc := (h.node d y hy).marker c' hmarker
        rw [← pinned?_of_getElem? hy, hdc, Option.some.injEq] at hc
        subst hc
        have hkind := (kind?_of_getElem? hy).trans (congrArg some hmarker)
        obtain ⟨data, hdata, rfl⟩ := Option.map_eq_some_iff.1 (hdistinct.marker d c hkind)
        exact ⟨c, data, [], hn, hdata, hkind, Threads.nil.snoc hd, List.pairwise_pair.2 hlt, by simp⟩
      · have heffect : g.isEffect d = true := by rwa [isEffect, kind?_of_getElem? hy]
        obtain ⟨e, he⟩ := isEffect_iff.1 heffect
        have hstep : (g.kind? d).bind (·.dependency?) = some e := by
          obtain ⟨k, hk, he⟩ := Option.bind_eq_some_iff.1 he
          rw [hk]
          exact dependency?_of_effectDependency? he
        obtain ⟨c', data, ns, hc', hdata, hkind, hthreads, hsorted, hns⟩ := ih d hlt hstep
        cases hc'.symm.trans hdc
        refine ⟨c, data, ns ++ [d], hn, hdata, hkind, hthreads.snoc hd,
          pairwise_lt_snoc (l := data.entry :: ns) hsorted hlt, fun m hm => ?_⟩
        rcases List.mem_append.1 hm with hm | hm
        · exact hns m hm
        · rw [List.mem_singleton.1 hm]
          exact ⟨heffect, hdc⟩

end Graph

namespace Request

def value? (b : Builder) : Request → Option ValueNode
  | boolLiteral value => some ⟨.boolean, .literal (.bool value)⟩
  | intLiteral type value => some ⟨type, .literal (.int value)⟩
  | floatLiteral type bits => some ⟨type, .literal (.float bits)⟩
  | nullLiteral => some ⟨.reference, .literal .null⟩
  | parameter index type => some ⟨type, .parameter index⟩
  | binary op lhs rhs => some ⟨b.typeOf lhs, .binary op lhs rhs⟩
  | neg input => some ⟨b.typeOf input, .neg input⟩
  | cmp op lhs rhs => some ⟨.boolean, .cmp op lhs rhs⟩
  | conversion op input type => some ⟨type, .conversion op input⟩
  | select cond ifTrue ifFalse => some ⟨b.typeOf ifTrue, .select cond ifTrue ifFalse⟩
  | pointerLiteral pointer => some ⟨.pointer pointer.pointee, .pointerLiteral pointer⟩
  | phi type => some ⟨type, .phi b.graph.phis.size⟩
  | load pointer type mode => some ⟨type, .load pointer mode b.lastEffect⟩
  | call method args => some ⟨method.functionType.returns, .call (.direct method) args b.lastEffect⟩
  | callIndirect pointer signature args =>
    some ⟨signature.returns, .call (.indirect pointer signature) args b.lastEffect⟩
  | virtualLookup receiver method owner =>
    some ⟨.pointer (.function method.functionType), .virtualLookup receiver method owner⟩
  | interfaceLookup receiver method interface =>
    some ⟨.pointer (.function method.functionType), .interfaceLookup receiver method interface⟩
  | catchValue => some ⟨.reference, .catchException⟩
  | _ => none

def answer? (b : Builder) : Request → Option (NodeId × Builder)
  | boolLiteral value => some (b.boolLiteral value)
  | intLiteral type value => some (b.intLiteral type value)
  | floatLiteral type bits => some (b.floatLiteral type bits)
  | nullLiteral => some b.nullLiteral
  | parameter index type => some (b.parameter index type)
  | binary op lhs rhs => some (b.binary op lhs rhs)
  | neg input => some (b.neg input)
  | cmp op lhs rhs => some (b.cmp op lhs rhs)
  | conversion op input type => some (b.conversion op input type)
  | select cond ifTrue ifFalse => some (b.select cond ifTrue ifFalse)
  | pointerLiteral pointer => some (b.pointerLiteral pointer)
  | phi type => some (b.phi type)
  | load pointer type mode => some (b.load pointer type mode)
  | call method args => some (b.call method args)
  | callIndirect pointer signature args => some (b.callIndirect pointer signature args)
  | virtualLookup receiver method owner => some (b.virtualLookup receiver method owner)
  | interfaceLookup receiver method interface => some (b.interfaceLookup receiver method interface)
  | catchValue => some b.catchValue
  | _ => none

end Request

namespace Builder

variable {b b' : Builder}

theorem interned?_eq_none {v : ValueNode} (h : b.interned? v = none) {n : NodeId} {w : ValueNode}
    (hn : b.graph.kind? n = some (.value w)) (hw : w.op.isPure = true) : (w == v) = false := by
  obtain ⟨x, hx, hk⟩ := Option.map_eq_some_iff.1 hn
  have hnot := Array.findIdx?_eq_none_iff.1 h x (Array.mem_of_getElem? hx)
  rw [hk] at hnot
  simpa [hw] using hnot

theorem interned?_eq_some {v : ValueNode} {n : NodeId} (h : b.interned? v = some n) :
    ∃ w, b.graph.kind? n = some (.value w) ∧ (w == v) = true := by
  obtain ⟨hlt, hn, -⟩ := Array.findIdx?_eq_some_iff_getElem.1 h
  have hx := Graph.kind?_of_getElem? (Array.getElem?_eq_getElem hlt)
  split at hn
  · rename_i w hk
    exact ⟨w, by rw [hx, hk], (Bool.and_eq_true_iff.1 hn).2⟩
  · cases hn

theorem value_grows (b : Builder) (type : Ty) (op : ValueOp) : b.graph.Grows (b.value type op).2.graph := by
  cases hop : op.isPure with
  | false =>
      rw [value_of_pinned b type hop, push, checkOpen_graph]
      refine .of_pinned rfl (fun v hv => ?_) (by rintro c ⟨⟩) fun _ => rfl
      cases hv
      exact hop
  | true =>
      rw [value, if_pos hop]
      cases hinterned : b.interned? ⟨type, op⟩ with
      | some n => exact .of_eq rfl rfl
      | none =>
          refine ⟨fun _ _ hn => hn, .inr ⟨_, rfl, fun v hv _ n w hn hw => ?_, by rintro c ⟨⟩⟩⟩
          cases hv
          exact interned?_eq_none hinterned hn hw

theorem effect_grows (b : Builder) (type : Ty) (op : ValueOp) : b.graph.Grows (b.effect type op).2.graph :=
  value_grows b type op

theorem phi_grows (b : Builder) (type : Ty) : b.graph.Grows (b.phi type).2.graph :=
  have hvalue := value_grows b type (.phi b.graph.phis.size)
  ⟨hvalue.entry, hvalue.nodes⟩

theorem action_grows (b : Builder) {a : ActionNode} (ha : ∀ c, a ≠ .blockEntry c) :
    b.graph.Grows (b.action a).2.graph := by
  rw [action, push, checkOpen_graph]
  refine .of_pinned rfl (by rintro v ⟨⟩) (fun c hc => ?_) fun _ => rfl
  cases hc
  exact ha c rfl

theorem terminate_grows (b : Builder) (t : TerminatorNode) : b.graph.Grows (b.terminate t).2.graph := by
  rw [terminate, push, checkOpen_graph, checkOpen_current]
  refine .of_pinned rfl (by rintro v ⟨⟩) (by rintro c ⟨⟩) fun c => ?_
  rw [Graph.entryOf?, Graph.entryOf?, Array.getElem?_modify]
  split
  · rw [Option.map_map]
    rfl
  · rfl

theorem newBlock_grows (b : Builder) (label : String) : b.graph.Grows (b.newBlock label).2.graph := by
  refine ⟨fun c n hn => ?_, .inr ⟨_, rfl, by rintro v ⟨⟩, fun c hc => ?_⟩⟩
  · obtain ⟨d, hd, rfl⟩ := Option.map_eq_some_iff.1 hn
    have hlt := (Array.getElem?_eq_some_iff.1 hd).1
    change Option.map _ (b.graph.blocks.push _)[c]? = _
    rw [Array.getElem?_push, if_neg (by omega), hd]
    rfl
  · cases hc
    change Option.map _ (b.graph.blocks.push _)[b.graph.blocks.size]? = _
    rw [Array.getElem?_push_size]
    rfl

theorem begin_graph (b : Builder) (c : BlockId) : (b.begin c).graph = b.graph := by
  rw [Builder.begin]
  split <;> rfl

theorem apply_grows {r : Request} (hb : r.apply b = .ok b') : b.graph.Grows b'.graph := by
  cases r <;> simp only [Request.apply, Except.ok.injEq] at hb
  case addPhiInput n pred value =>
    rw [addPhiInput] at hb
    split at hb
    · cases hb
      exact .of_eq rfl rfl
    · cases hb
  all_goals subst hb
  case newBlock label => exact newBlock_grows b label
  case begin c => exact .of_eq (congrArg Graph.nodes (begin_graph b c)) (congrArg Graph.blocks (begin_graph b c))
  case setLocation | setCallSite => exact .of_eq rfl rfl
  case phi type => exact phi_grows b type
  case boolLiteral | intLiteral | floatLiteral | nullLiteral | parameter | binary | neg | cmp | conversion | select |
      pointerLiteral | virtualLookup | interfaceLookup | catchValue =>
    exact value_grows b _ _
  case load | call | callIndirect => exact effect_grows b _ _
  case store | monitorEnter | monitorExit => exact action_grows b (by rintro c ⟨⟩)
  case goto | ifThenElse | returnValue | returnVoid | unreachable | throw => exact terminate_grows b _

theorem built_distinct (m : Method) (rs : List Request) : (built m rs).graph.Distinct := by
  induction rs using List.reverseRecOn with
  | nil =>
      change (begin (newBlock ⟨{ method := m }, 0, 0, {}, none⟩ "entry").2 0).graph.Distinct
      rw [begin_graph]
      refine Graph.Distinct.grows ⟨fun n n' v v' hv => ?_, fun n c hn => ?_⟩ (newBlock_grows _ _)
      · cases hv
      · cases hn
  | append_singleton rs r ih =>
      rw [built_concat, perform]
      cases hb : r.apply (built m rs) with
      | ok b' => exact ih.grows (apply_grows hb)
      | error e => exact ih

/-- A node for a value is one for an equal value; it is new, and for the value itself, unless the value is pure. -/
theorem value_spec (b : Builder) (type : Ty) (op : ValueOp) :
    ∃ w, (b.value type op).2.graph.kind? (b.value type op).1 = some (.value w) ∧ (w == ⟨type, op⟩) = true ∧
      (op.isPure = false → (b.value type op).1 = b.graph.nodes.size ∧ w = ⟨type, op⟩) := by
  have hpush : ∀ (b : Builder) c, (b.push (.value ⟨type, op⟩) c).2.graph.kind? b.graph.nodes.size =
      some (.value ⟨type, op⟩) := fun b c => by
    rw [Graph.kind?, push, Array.getElem?_push_size]
    rfl
  cases hop : op.isPure with
  | false =>
      rw [value_of_pinned b type hop]
      refine ⟨_, hpush b.checkOpen _, BEq.refl _, fun _ => ⟨?_, rfl⟩⟩
      rw [push, checkOpen_graph]
  | true =>
      rw [value, if_pos hop]
      cases hinterned : b.interned? ⟨type, op⟩ with
      | some n =>
          obtain ⟨w, hw, heq⟩ := interned?_eq_some hinterned
          exact ⟨w, hw, heq, by rintro ⟨⟩⟩
      | none => exact ⟨_, hpush b _, BEq.refl _, by rintro ⟨⟩⟩

theorem answer_of_value {r : Request} {v : ValueNode} (hv : r.value? b = some v) :
    ∃ n b' w, r.answer? b = some (n, b') ∧ r.apply b = .ok b' ∧ b'.graph.kind? n = some (.value w) ∧
      (w == v) = true ∧ (v.op.isPure = false → n = b.graph.nodes.size ∧ w = v) := by
  obtain ⟨w, hw⟩ := value_spec b v.type v.op
  cases r <;> cases hv <;> exact ⟨_, _, w, rfl, rfl, hw⟩

end Builder

end NativeBackend
