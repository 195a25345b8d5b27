import NativeBackend.Graph.Builder

namespace NativeBackend

def NodeKind.dependency? : NodeKind → Option NodeId
  | .terminator t => some t.dependency
  | k => k.effectDependency?

@[simp]
theorem NodeKind.dependency?_value (v : ValueNode) :
    (NodeKind.value v).dependency? = (NodeKind.value v).effectDependency? := rfl

@[simp]
theorem NodeKind.dependency?_action (a : ActionNode) :
    (NodeKind.action a).dependency? = (NodeKind.action a).effectDependency? := rfl

/-- Entry markers and effects, which the effects of a block hang on. -/
def NodeKind.OnChain (k : NodeKind) : Prop :=
  (∃ b, k = .action (.blockEntry b)) ∨ k.effectDependency?.isSome = true

structure Node.Fits (g : Graph) (n : NodeId) (x : Node) : Prop where
  inputs : ∀ i ∈ x.kind.inputs, i < n
  pinned : ∀ b, x.pinned = some b → b < g.blocks.size
  floats : x.pinned = none ↔ ∃ v, x.kind = .value v ∧ v.op.isPure = true
  marker : ∀ b, x.kind = .action (.blockEntry b) → x.pinned = some b
  dependency : ∀ d, x.kind.dependency? = some d →
    ∃ y, g.nodes[d]? = some y ∧ y.pinned = x.pinned ∧ y.kind.OnChain
  phi : ∀ type t, x.kind = .value ⟨type, .phi t⟩ → ∃ p, g.phis[t]? = some p ∧ p.node = n ∧
    x.pinned = some p.block
  targets : ∀ t, x.kind = .terminator t → ∀ b ∈ t.successors, b < g.blocks.size

structure BlockData.Fits (g : Graph) (b : BlockId) (d : BlockData) : Prop where
  entry : ∃ x, g.nodes[d.entry]? = some x ∧ x.kind = .action (.blockEntry b)
  terminator : ∀ n, d.terminator = some n → ∃ x t, g.nodes[n]? = some x ∧ x.kind = .terminator t ∧
    x.pinned = some b

namespace Graph

/-- Operands come before their users, effects stay in their block, and handles are in range. -/
structure WellFormed (g : Graph) : Prop where
  entry : g.entry < g.blocks.size
  node : ∀ (n : NodeId) (x : Node), g.nodes[n]? = some x → x.Fits g n
  block : ∀ (b : BlockId) (d : BlockData), g.blocks[b]? = some d → d.Fits g b
  incoming : ∀ (t : PhiId) (p : PhiData), g.phis[t]? = some p →
    ∀ e ∈ p.incoming, e.1 < g.blocks.size ∧ e.2 < g.nodes.size

/-- A later stage of a graph: nodes stay, blocks and phis stay but for what is filled in. -/
structure Within (g g' : Graph) : Prop where
  node : ∀ (n : NodeId) (x : Node), g.nodes[n]? = some x → g'.nodes[n]? = some x
  blocks : g.blocks.size ≤ g'.blocks.size
  phi : ∀ (t : PhiId) (p : PhiData), g.phis[t]? = some p →
    ∃ p', g'.phis[t]? = some p' ∧ p'.node = p.node ∧ p'.block = p.block

theorem Within.size_le {g g' : Graph} (h : g.Within g') : g.nodes.size ≤ g'.nodes.size := by
  by_cases hzero : g.nodes.size = 0
  · omega
  · have hlast := h.node (g.nodes.size - 1) _ (Array.getElem?_eq_getElem (by omega))
    have := (Array.getElem?_eq_some_iff.1 hlast).1
    omega

theorem Within.fits_node {g g' : Graph} (h : g.Within g') {n : NodeId} {x : Node} (hx : x.Fits g n) :
    x.Fits g' n where
  inputs := hx.inputs
  pinned b hb := Nat.lt_of_lt_of_le (hx.pinned b hb) h.blocks
  floats := hx.floats
  marker := hx.marker
  dependency d hd := by
    obtain ⟨y, hy, hpinned, hchain⟩ := hx.dependency d hd
    exact ⟨y, h.node d y hy, hpinned, hchain⟩
  phi type t ht := by
    obtain ⟨p, hp, hnode, hblock⟩ := hx.phi type t ht
    obtain ⟨p', hp', hnode', hblock'⟩ := h.phi t p hp
    exact ⟨p', hp', hnode'.trans hnode, hblock.trans (congrArg some hblock'.symm)⟩
  targets t ht b hb := Nat.lt_of_lt_of_le (hx.targets t ht b hb) h.blocks

theorem Within.fits_block {g g' : Graph} (h : g.Within g') {b : BlockId} {d : BlockData}
    (hd : d.Fits g b) : d.Fits g' b where
  entry := by
    obtain ⟨x, hx, hk⟩ := hd.entry
    exact ⟨x, h.node _ x hx, hk⟩
  terminator n hn := by
    obtain ⟨x, t, hx, hk, hpinned⟩ := hd.terminator n hn
    exact ⟨x, t, h.node _ x hx, hk, hpinned⟩

theorem Within.wellFormed {g g' : Graph} (hw : g.Within g') (hentry : g'.entry < g'.blocks.size)
    (hnode : ∀ (n : NodeId) (x : Node), g'.nodes[n]? = some x → g.nodes[n]? = none → x.Fits g' n)
    (hblocks : ∀ (b : BlockId) (d : BlockData), g'.blocks[b]? = some d → d.Fits g' b)
    (hphis : ∀ (t : PhiId) (p : PhiData), g'.phis[t]? = some p →
      ∀ e ∈ p.incoming, e.1 < g'.blocks.size ∧ e.2 < g'.nodes.size)
    (h : ∀ (n : NodeId) (x : Node), g.nodes[n]? = some x → x.Fits g n) : g'.WellFormed where
  entry := hentry
  node n x hx := by
    cases hn : g.nodes[n]? with
    | none => exact hnode n x hx hn
    | some y =>
        have hy := hw.node n y hn
        rw [hx] at hy
        cases hy
        exact hw.fits_node (h n x hn)
  block := hblocks
  incoming := hphis

theorem WellFormed.incoming_within {g g' : Graph} (h : g.WellFormed) (hw : g.Within g') {t : PhiId}
    {p : PhiData} (hp : g.phis[t]? = some p) :
    ∀ e ∈ p.incoming, e.1 < g'.blocks.size ∧ e.2 < g'.nodes.size := by
  intro e he
  obtain ⟨hb, hn⟩ := h.incoming t p hp e he
  exact ⟨Nat.lt_of_lt_of_le hb hw.blocks, Nat.lt_of_lt_of_le hn hw.size_le⟩

theorem within_push (g : Graph) (x : Node) (blocks : Array BlockData) (phis : Array PhiData)
    (hblocks : g.blocks.size ≤ blocks.size)
    (hphis : ∀ (t : PhiId) (p : PhiData), g.phis[t]? = some p → phis[t]? = some p) :
    g.Within { g with nodes := g.nodes.push x, blocks := blocks, phis := phis } where
  node n y hy := by
    have hlt := (Array.getElem?_eq_some_iff.1 hy).1
    rw [Array.getElem?_push, if_neg (by omega), hy]
  blocks := hblocks
  phi t p hp := ⟨p, hphis t p hp, rfl, rfl⟩

theorem eq_of_getElem?_push {nodes : Array Node} {x y : Node} {n : NodeId}
    (hy : (nodes.push x)[n]? = some y) (hn : nodes[n]? = none) : n = nodes.size ∧ y = x := by
  rw [Array.getElem?_push] at hy
  split at hy
  · rename_i heq
    exact ⟨heq, (Option.some.inj hy).symm⟩
  · rw [hn] at hy
    cases hy

theorem WellFormed.push {g : Graph} (h : g.WellFormed) {x : Node} (hx : x.Fits g g.nodes.size) :
    ({ g with nodes := g.nodes.push x } : Graph).WellFormed := by
  have hw := within_push g x g.blocks g.phis (Nat.le_refl _) (fun _ _ hp => hp)
  refine hw.wellFormed h.entry ?_ (fun b d hd => hw.fits_block (h.block b d hd))
    (fun t p hp => h.incoming_within hw hp) h.node
  intro n y hy hn
  obtain ⟨rfl, rfl⟩ := eq_of_getElem?_push hy hn
  exact hw.fits_node hx

end Graph

namespace Builder

/-- Invariant of a graph under construction. -/
structure Sound (b : Builder) : Prop where
  graph : b.graph.WellFormed
  current : b.current < b.graph.blocks.size
  lastEffect : ∃ x, b.graph.nodes[b.lastEffect]? = some x ∧ x.pinned = some b.current ∧ x.kind.OnChain

theorem checkOpen_eq (b : Builder) : ∃ misplaced, b.checkOpen = { b with misplaced := misplaced } := by
  rw [checkOpen]
  split <;> exact ⟨_, rfl⟩

variable {b : Builder}

/-- Where a request leaves the graph is all that counts for the invariant. -/
theorem Sound.of_eq {b' : Builder} (h : b.Sound) (hgraph : b'.graph = b.graph)
    (hcurrent : b'.current = b.current) (hlast : b'.lastEffect = b.lastEffect) : b'.Sound := by
  refine ⟨?_, ?_, ?_⟩
  · rw [hgraph]
    exact h.graph
  · rw [hgraph, hcurrent]
    exact h.current
  · rw [hgraph, hcurrent, hlast]
    exact h.lastEffect

theorem Sound.checkOpen (h : b.Sound) : b.checkOpen.Sound := by
  obtain ⟨misplaced, hopen⟩ := b.checkOpen_eq
  rw [hopen]
  exact h.of_eq rfl rfl rfl

@[simp]
theorem checkOpen_graph (b : Builder) : b.checkOpen.graph = b.graph := by
  obtain ⟨misplaced, hopen⟩ := b.checkOpen_eq
  rw [hopen]

@[simp]
theorem checkOpen_current (b : Builder) : b.checkOpen.current = b.current := by
  obtain ⟨misplaced, hopen⟩ := b.checkOpen_eq
  rw [hopen]

@[simp]
theorem checkOpen_info (b : Builder) : b.checkOpen.info = b.info := by
  obtain ⟨misplaced, hopen⟩ := b.checkOpen_eq
  rw [hopen]

theorem Sound.push (h : b.Sound) {k : NodeKind} {pinned : Option BlockId}
    (hx : (⟨b.info, pinned, k⟩ : Node).Fits b.graph b.graph.nodes.size) : (b.push k pinned).2.Sound := by
  obtain ⟨x, hlast, hx'⟩ := h.lastEffect
  have hw := b.graph.within_push ⟨b.info, pinned, k⟩ b.graph.blocks b.graph.phis (Nat.le_refl _)
    (fun _ _ hp => hp)
  exact ⟨h.graph.push hx, h.current, x, hw.node _ _ hlast, hx'⟩

theorem Sound.fits (h : b.Sound) {k : NodeKind} (hinputs : ∀ i ∈ k.inputs, i < b.graph.nodes.size)
    (hpure : ∀ v, k = .value v → v.op.isPure = false) (hmarker : ∀ c, k ≠ .action (.blockEntry c))
    (hdependency : ∀ d, k.dependency? = some d → d = b.lastEffect)
    (hphi : ∀ type t, k ≠ .value ⟨type, .phi t⟩)
    (htargets : ∀ t, k = .terminator t → ∀ c ∈ t.successors, c < b.graph.blocks.size) :
    (⟨b.info, some b.current, k⟩ : Node).Fits b.graph b.graph.nodes.size where
  inputs := hinputs
  pinned c hc := by
    cases hc
    exact h.current
  floats := by
    constructor
    · rintro ⟨⟩
    · rintro ⟨v, hv, hvp⟩
      rw [hpure v hv] at hvp
      cases hvp
  marker c hc := absurd hc (hmarker c)
  dependency d hd := by
    rw [hdependency d hd]
    exact h.lastEffect
  phi type t ht := absurd ht (hphi type t)
  targets := htargets

theorem Sound.value_of_pure (h : b.Sound) (type : Ty) {op : ValueOp} (hop : op.isPure = true)
    (hinputs : ∀ i ∈ op.inputs, i < b.graph.nodes.size) : (b.value type op).2.Sound := by
  rw [value, if_pos hop]
  cases b.interned? ⟨type, op⟩ with
  | some n => exact h
  | none =>
      refine h.push ⟨hinputs, ?_, ?_, ?_, ?_, ?_, ?_⟩
      · rintro c ⟨⟩
      · exact ⟨fun _ => ⟨_, rfl, hop⟩, fun _ => rfl⟩
      · rintro c ⟨⟩
      · intro d hd
        cases op <;> simp_all [ValueOp.isPure, NodeKind.effectDependency?]
      · rintro type' t ⟨⟩
        cases hop
      · rintro t ⟨⟩

theorem Sound.value_of_pinned (h : b.Sound) (type : Ty) {op : ValueOp} (hop : op.isPure = false)
    (hinputs : ∀ i ∈ op.inputs, i < b.graph.nodes.size) (hphi : ∀ t, op ≠ .phi t)
    (hdependency : ∀ d, (NodeKind.value ⟨type, op⟩).effectDependency? = some d → d = b.lastEffect) :
    (b.value type op).2.Sound := by
  have hx := h.fits (k := .value ⟨type, op⟩) hinputs (fun v hv => by cases hv; exact hop)
    (fun c hc => nomatch hc) hdependency (fun type' t ht => by cases ht; exact hphi t rfl)
    (fun t ht => nomatch ht)
  rw [value, if_neg (by simp [hop])]
  exact h.checkOpen.push (by simpa using hx)

theorem Sound.lastEffect_push {k : NodeKind} (h : (b.checkOpen.push k (some b.current)).2.Sound)
    (hk : k.OnChain) :
    Sound { (b.checkOpen.push k (some b.current)).2 with lastEffect := b.graph.nodes.size } := by
  refine ⟨h.graph, h.current, ⟨b.checkOpen.info, some b.current, k⟩, ?_, ?_, hk⟩
  · simp [Builder.push]
  · simp [Builder.push]

theorem Sound.effect (h : b.Sound) (type : Ty) {op : ValueOp} (hop : op.isPure = false)
    (hinputs : ∀ i ∈ op.inputs, i < b.graph.nodes.size) (hphi : ∀ t, op ≠ .phi t)
    (hdependency : (NodeKind.value ⟨type, op⟩).effectDependency? = some b.lastEffect) :
    (b.effect type op).2.Sound := by
  have hvalue := h.value_of_pinned type hop hinputs hphi fun d hd => by
    rw [hdependency] at hd
    exact (Option.some.inj hd).symm
  rw [value, if_neg (by simp [hop])] at hvalue
  have hlast := Sound.lastEffect_push hvalue (.inr (by rw [hdependency]; rfl))
  simpa [Builder.effect, value, hop, Builder.push] using hlast

theorem Sound.action (h : b.Sound) {a : ActionNode} (hinputs : ∀ i ∈ a.inputs, i < b.graph.nodes.size)
    (hdependency : (NodeKind.action a).effectDependency? = some b.lastEffect) :
    (b.action a).2.Sound := by
  have hmarker : ∀ c, NodeKind.action a ≠ .action (.blockEntry c) := by
    rintro c ⟨⟩
    cases hdependency
  have hx := h.fits (k := .action a) hinputs (fun v hv => nomatch hv) hmarker
    (fun d hd => by
      rw [NodeKind.dependency?_action, hdependency] at hd
      exact (Option.some.inj hd).symm)
    (fun _ _ hv => nomatch hv) (fun t ht => nomatch ht)
  have hpush : (b.checkOpen.push (.action a) (some b.current)).2.Sound := h.checkOpen.push (by simpa using hx)
  have hlast := Sound.lastEffect_push hpush (.inr (by rw [hdependency]; rfl))
  simpa [Builder.action, Builder.push] using hlast

theorem Sound.terminate (h : b.Sound) {t : TerminatorNode} (hinputs : ∀ i ∈ t.inputs, i < b.graph.nodes.size)
    (hdependency : t.dependency = b.lastEffect) (htargets : ∀ c ∈ t.successors, c < b.graph.blocks.size) :
    (b.terminate t).2.Sound := by
  have hx := h.fits (k := .terminator t) hinputs (fun v hv => nomatch hv) (fun c hc => nomatch hc)
    (fun d hd => by
      cases hd
      exact hdependency)
    (fun _ _ hv => nomatch hv) (fun t' ht => by cases ht; exact htargets)
  obtain ⟨misplaced, hopen⟩ := b.checkOpen_eq
  obtain ⟨y, hy, hlast⟩ := h.lastEffect
  simp only [Builder.terminate, hopen, Builder.push]
  have hw := b.graph.within_push ⟨b.info, some b.current, .terminator t⟩
    (b.graph.blocks.modify b.current fun d => { d with terminator := some b.graph.nodes.size }) b.graph.phis
    (by simp) (fun _ _ hp => hp)
  refine ⟨hw.wellFormed (by simpa using h.graph.entry) ?_ ?_
    (fun t' p hp => h.graph.incoming_within hw hp) h.graph.node, by simpa using h.current, y, hw.node _ _ hy, hlast⟩
  · intro n z hz hn
    obtain ⟨rfl, rfl⟩ := Graph.eq_of_getElem?_push hz hn
    exact hw.fits_node hx
  · intro c d hd
    rw [Array.getElem?_modify] at hd
    split at hd
    · rename_i hc
      subst hc
      obtain ⟨d', hd', rfl⟩ := Option.map_eq_some_iff.1 hd
      refine ⟨(hw.fits_block (h.graph.block _ _ hd')).entry, ?_⟩
      rintro n ⟨⟩
      exact ⟨_, t, Array.getElem?_push_size, rfl, rfl⟩
    · exact hw.fits_block (h.graph.block c d hd)

theorem newBlock_wellFormed (hentry : b.graph.entry ≤ b.graph.blocks.size)
    (hnode : ∀ (n : NodeId) (x : Node), b.graph.nodes[n]? = some x → x.Fits b.graph n)
    (hblock : ∀ (c : BlockId) (d : BlockData), b.graph.blocks[c]? = some d → d.Fits b.graph c)
    (hincoming : ∀ (t : PhiId) (p : PhiData), b.graph.phis[t]? = some p →
      ∀ e ∈ p.incoming, e.1 < b.graph.blocks.size ∧ e.2 < b.graph.nodes.size) (label : String) :
    (b.newBlock label).2.graph.WellFormed := by
  simp only [newBlock, push]
  have hw := b.graph.within_push ⟨b.info, some b.graph.blocks.size, .action (.blockEntry b.graph.blocks.size)⟩
    (b.graph.blocks.push ⟨label, b.graph.nodes.size, none⟩) b.graph.phis (by simp) (fun _ _ hp => hp)
  refine hw.wellFormed ?_ ?_ ?_ ?_ hnode
  · simpa using Nat.lt_succ_of_le hentry
  · intro n x hx hn
    obtain ⟨rfl, rfl⟩ := Graph.eq_of_getElem?_push hx hn
    refine ⟨by rintro i ⟨⟩, ?_, ?_, ?_, by rintro d ⟨⟩, by rintro _ _ ⟨⟩, by rintro t ⟨⟩⟩
    · rintro c ⟨⟩
      simp
    · constructor
      · rintro ⟨⟩
      · rintro ⟨v, ⟨⟩, _⟩
    · rintro c ⟨⟩
      rfl
  · intro c d hd
    rw [Array.getElem?_push] at hd
    split at hd
    · rename_i hc
      subst hc
      cases hd
      exact ⟨⟨_, Array.getElem?_push_size, rfl⟩, fun n hn => nomatch hn⟩
    · exact hw.fits_block (hblock c d hd)
  · intro t p hp e he
    obtain ⟨hb, hn⟩ := hincoming t p hp e he
    simp only [Array.size_push]
    exact ⟨Nat.lt_succ_of_lt hb, Nat.lt_succ_of_lt hn⟩

theorem Sound.newBlock (h : b.Sound) (label : String) : (b.newBlock label).2.Sound := by
  obtain ⟨x, hx, hlast⟩ := h.lastEffect
  refine ⟨newBlock_wellFormed (Nat.le_of_lt h.graph.entry) h.graph.node h.graph.block h.graph.incoming label,
    ?_, x, ?_, hlast⟩
  · simp only [Builder.newBlock, Builder.push, Array.size_push]
    exact Nat.lt_succ_of_lt h.current
  · have hlt := (Array.getElem?_eq_some_iff.1 hx).1
    simp only [Builder.newBlock, Builder.push]
    rw [Array.getElem?_push, if_neg (by omega), hx]

theorem begin_sound (h : b.graph.WellFormed) {c : BlockId} (hc : c < b.graph.blocks.size) :
    (b.begin c).Sound := by
  have hd := Array.getElem?_eq_getElem hc
  obtain ⟨x, hx, hk⟩ := (h.block c _ hd).entry
  rw [begin, hd]
  exact ⟨h, hc, x, hx, (h.node _ x hx).marker c hk, .inl ⟨c, hk⟩⟩

theorem start_sound (m : Method) : (start m).Sound := by
  have hnew : (newBlock ⟨{ method := m }, 0, 0, {}, none⟩ "entry").2.graph.WellFormed := by
    refine newBlock_wellFormed (Nat.le_refl _) ?_ ?_ ?_ "entry"
    all_goals
      intro n x hx
      cases hx
  exact begin_sound hnew (c := 0) (by simp [newBlock, push])

theorem Sound.phi (h : b.Sound) (type : Ty) : (b.phi type).2.Sound := by
  obtain ⟨misplaced, hopen⟩ := b.checkOpen_eq
  obtain ⟨y, hy, hlast⟩ := h.lastEffect
  have heq : (b.phi type).2 = { b with
      misplaced := misplaced
      graph.nodes := b.graph.nodes.push ⟨b.info, some b.current, .value ⟨type, .phi b.graph.phis.size⟩⟩
      graph.phis := b.graph.phis.push ⟨b.graph.nodes.size, b.current, []⟩ } := by
    simp [Builder.phi, value, ValueOp.isPure, hopen, Builder.push]
  rw [heq]
  have hw := b.graph.within_push ⟨b.info, some b.current, .value ⟨type, .phi b.graph.phis.size⟩⟩
    b.graph.blocks (b.graph.phis.push ⟨b.graph.nodes.size, b.current, []⟩) (Nat.le_refl _) (by
      intro t p hp
      have hlt := (Array.getElem?_eq_some_iff.1 hp).1
      rw [Array.getElem?_push, if_neg (by omega), hp])
  refine ⟨hw.wellFormed h.graph.entry ?_ (fun c d hd => hw.fits_block (h.graph.block c d hd)) ?_ h.graph.node,
    h.current, y, hw.node _ _ hy, hlast⟩
  · intro n x hx hn
    obtain ⟨rfl, rfl⟩ := Graph.eq_of_getElem?_push hx hn
    refine ⟨by rintro i ⟨⟩, ?_, ?_, by rintro c ⟨⟩, by rintro d ⟨⟩, ?_, by rintro t ⟨⟩⟩
    · rintro c ⟨⟩
      exact h.current
    · constructor
      · rintro ⟨⟩
      · rintro ⟨v, ⟨⟩, hv⟩
        cases hv
    · rintro type' t ⟨⟩
      exact ⟨_, Array.getElem?_push_size, rfl, rfl⟩
  · intro t p hp e he
    dsimp only at hp
    rw [Array.getElem?_push] at hp
    split at hp
    · cases hp
      cases he
    · exact h.graph.incoming_within hw hp e he

theorem Sound.addPhiInput (h : b.Sound) {n value : NodeId} {pred : BlockId} {b' : Builder}
    (hpred : pred < b.graph.blocks.size) (hvalue : value < b.graph.nodes.size)
    (hadd : b.addPhiInput n pred value = .ok b') : b'.Sound := by
  obtain ⟨y, hy, hlast⟩ := h.lastEffect
  rw [Builder.addPhiInput] at hadd
  split at hadd
  case h_2 => cases hadd
  case h_1 type table hk =>
    cases hadd
    have hw : b.graph.Within { b.graph with phis := b.graph.phis.modify table (·.addIncoming pred value) } := by
      refine ⟨fun _ _ hx => hx, Nat.le_refl _, ?_⟩
      intro t p hp
      by_cases ht : table = t
      · subst ht
        exact ⟨p.addIncoming pred value, by simp [Array.getElem?_modify, hp], rfl, rfl⟩
      · exact ⟨p, by simp [Array.getElem?_modify, ht, hp], rfl, rfl⟩
    refine ⟨hw.wellFormed h.graph.entry ?_ (fun c d hd => hw.fits_block (h.graph.block c d hd)) ?_ h.graph.node,
      h.current, y, hy, hlast⟩
    · intro n x hx hn
      rw [hn] at hx
      cases hx
    · intro t p hp e he
      dsimp only at hp ⊢
      rw [Array.getElem?_modify] at hp
      split at hp
      · obtain ⟨q, hq, rfl⟩ := Option.map_eq_some_iff.1 hp
        rcases List.mem_cons.1 he with rfl | he
        · exact ⟨hpred, hvalue⟩
        · exact h.graph.incoming t q hq e (List.mem_filter.1 he |>.1)
      · exact h.graph.incoming t p hp e he

end Builder

inductive Request where
  | newBlock (label : String)
  | begin (block : BlockId)
  | setLocation (line bci : Int)
  | setCallSite (callSite : Option NodeId)
  | boolLiteral (value : Bool)
  | intLiteral (type : Ty) (value : Int)
  | floatLiteral (type : Ty) (bits : UInt64)
  | nullLiteral
  | parameter (index : Nat) (type : Ty)
  | binary (op : BinaryOp) (lhs rhs : NodeId)
  | neg (input : NodeId)
  | cmp (op : CmpOp) (lhs rhs : NodeId)
  | conversion (op : ConversionOp) (input : NodeId) (type : Ty)
  | select (cond ifTrue ifFalse : NodeId)
  | pointerLiteral (pointer : Pointer)
  | phi (type : Ty)
  | addPhiInput (phi : NodeId) (predecessor : BlockId) (value : NodeId)
  | load (pointer : NodeId) (type : Ty) (mode : ReadMode)
  | store (pointer value : NodeId) (mode : WriteMode)
  | monitorEnter (object : NodeId)
  | monitorExit (object : NodeId)
  | call (method : Method) (args : List NodeId)
  | callIndirect (pointer : NodeId) (signature : FunctionType) (args : List NodeId)
  | virtualLookup (receiver : NodeId) (method : Method) (owner : ClassDef)
  | interfaceLookup (receiver : NodeId) (method : Method) (interface : ClassDef)
  | catchValue
  | goto (target : BlockId)
  | ifThenElse (cond : NodeId) (ifTrue ifFalse : BlockId)
  | returnValue (value : NodeId)
  | returnVoid
  | unreachable
  | throw (value : NodeId) (handler : Option BlockId)

namespace Request

def nodes : Request → List NodeId
  | binary _ lhs rhs | cmp _ lhs rhs => [lhs, rhs]
  | neg input | conversion _ input _ => [input]
  | select cond ifTrue ifFalse => [cond, ifTrue, ifFalse]
  | addPhiInput node _ value => [node, value]
  | load pointer _ _ => [pointer]
  | store pointer value _ => [pointer, value]
  | monitorEnter object | monitorExit object => [object]
  | call _ args => args
  | callIndirect pointer _ args => pointer :: args
  | virtualLookup receiver _ _ | interfaceLookup receiver _ _ => [receiver]
  | ifThenElse cond _ _ => [cond]
  | returnValue value | throw value _ => [value]
  | _ => []

def blocks : Request → List BlockId
  | begin block => [block]
  | addPhiInput _ predecessor _ => [predecessor]
  | goto target => [target]
  | ifThenElse _ ifTrue ifFalse => [ifTrue, ifFalse]
  | throw _ handler => handler.toList
  | _ => []

def Known (r : Request) (b : Builder) : Prop :=
  (∀ n ∈ r.nodes, n < b.graph.nodes.size) ∧ ∀ c ∈ r.blocks, c < b.graph.blocks.size

instance (r : Request) (b : Builder) : Decidable (r.Known b) := inferInstanceAs (Decidable (_ ∧ _))

def apply (b : Builder) : Request → Except Error Builder
  | newBlock label => .ok (b.newBlock label).2
  | begin block => .ok (b.begin block)
  | setLocation line bci => .ok (b.setLocation line bci)
  | setCallSite callSite => .ok (b.setCallSite callSite)
  | boolLiteral value => .ok (b.boolLiteral value).2
  | intLiteral type value => .ok (b.intLiteral type value).2
  | floatLiteral type bits => .ok (b.floatLiteral type bits).2
  | nullLiteral => .ok b.nullLiteral.2
  | parameter index type => .ok (b.parameter index type).2
  | binary op lhs rhs => .ok (b.binary op lhs rhs).2
  | neg input => .ok (b.neg input).2
  | cmp op lhs rhs => .ok (b.cmp op lhs rhs).2
  | conversion op input type => .ok (b.conversion op input type).2
  | select cond ifTrue ifFalse => .ok (b.select cond ifTrue ifFalse).2
  | pointerLiteral pointer => .ok (b.pointerLiteral pointer).2
  | phi type => .ok (b.phi type).2
  | addPhiInput node predecessor value => b.addPhiInput node predecessor value
  | load pointer type mode => .ok (b.load pointer type mode).2
  | store pointer value mode => .ok (b.store pointer value mode).2
  | monitorEnter object => .ok (b.monitorEnter object).2
  | monitorExit object => .ok (b.monitorExit object).2
  | call method args => .ok (b.call method args).2
  | callIndirect pointer signature args => .ok (b.callIndirect pointer signature args).2
  | virtualLookup receiver method owner => .ok (b.virtualLookup receiver method owner).2
  | interfaceLookup receiver method interface => .ok (b.interfaceLookup receiver method interface).2
  | catchValue => .ok b.catchValue.2
  | goto target => .ok (b.goto target).2
  | ifThenElse cond ifTrue ifFalse => .ok (b.ifThenElse cond ifTrue ifFalse).2
  | returnValue value => .ok (b.returnValue value).2
  | returnVoid => .ok b.returnVoid.2
  | unreachable => .ok b.unreachable.2
  | throw value handler => .ok (b.throw value handler).2

def applyAll (b : Builder) : List Request → Builder
  | [] => b
  | r :: rs =>
    if r.Known b then
      match r.apply b with
      | .ok b' => applyAll b' rs
      | .error _ => b
    else b

end Request

namespace Builder

inductive Built (m : Method) : Builder → Prop where
  | start : Built m (start m)
  | step {b b' : Builder} {r : Request} : Built m b → r.Known b → r.apply b = .ok b' → Built m b'

theorem Built.applyAll {m : Method} {b : Builder} (h : Built m b) (rs : List Request) :
    Built m (Request.applyAll b rs) := by
  induction rs generalizing b with
  | nil => exact h
  | cons r rs ih =>
      rw [Request.applyAll]
      split
      case isTrue hr =>
        split
        case h_1 c hc => exact ih (h.step hr hc)
        case h_2 => exact h
      case isFalse => exact h

theorem Sound.apply {b b' : Builder} (h : b.Sound) {r : Request} (hr : r.Known b) (hb : r.apply b = .ok b') :
    b'.Sound := by
  obtain ⟨hnodes, hblocks⟩ := hr
  obtain ⟨x, hlast, _⟩ := h.lastEffect
  have hlast := (Array.getElem?_eq_some_iff.1 hlast).1
  cases r <;> simp only [Request.apply, Except.ok.injEq] at hb
  case addPhiInput n pred value =>
    simp only [Request.nodes, Request.blocks, List.mem_cons, List.not_mem_nil, or_false, forall_eq_or_imp,
      forall_eq] at hnodes hblocks
    exact h.addPhiInput hblocks hnodes.2 hb
  all_goals subst hb
  case newBlock label => exact h.newBlock label
  case begin c => exact begin_sound h.graph (hblocks c (by simp [Request.blocks]))
  case setLocation | setCallSite => exact h.of_eq rfl rfl rfl
  case boolLiteral | intLiteral | floatLiteral | nullLiteral | parameter | pointerLiteral =>
    exact h.value_of_pure _ rfl (fun i hi => nomatch hi)
  case binary | neg | cmp | conversion | select | virtualLookup | interfaceLookup =>
    exact h.value_of_pure _ rfl hnodes
  case phi type => exact h.phi type
  case load | callIndirect =>
    exact h.effect _ rfl (by simpa [ValueOp.inputs, Request.nodes, hlast] using hnodes) (fun _ => by simp) rfl
  case call =>
    exact h.effect _ rfl (by simpa [ValueOp.inputs, Request.nodes, hlast] using hnodes) (fun _ => by simp) rfl
  case store | monitorEnter | monitorExit =>
    exact h.action (by simpa [ActionNode.inputs, Request.nodes, hlast] using hnodes) rfl
  case catchValue =>
    exact h.value_of_pinned _ rfl (fun i hi => nomatch hi) (fun _ => by simp) (fun d hd => nomatch hd)
  case returnVoid | unreachable =>
    exact h.terminate (by simpa [TerminatorNode.inputs] using hlast) rfl (by rintro c ⟨⟩)
  case goto => exact h.terminate (by simpa [TerminatorNode.inputs] using hlast) rfl hblocks
  case ifThenElse =>
    exact h.terminate (by simpa [TerminatorNode.inputs, Request.nodes, hlast] using hnodes) rfl hblocks
  case returnValue =>
    exact h.terminate (by simpa [TerminatorNode.inputs, Request.nodes, hlast] using hnodes) rfl
      (by rintro c ⟨⟩)
  case throw value handler =>
    refine h.terminate (by simpa [TerminatorNode.inputs, Request.nodes, hlast] using hnodes) rfl ?_
    cases handler with
    | none =>
        rintro c ⟨⟩
    | some c => exact hblocks

theorem Built.sound {m : Method} {b : Builder} (h : Built m b) : b.Sound := by
  induction h with
  | start => exact start_sound m
  | step _ hr hb ih => exact ih.apply hr hb

theorem forM_eq_ok {α ε : Type} {xs : List α} {f : α → Except ε PUnit} (h : xs.forM f = .ok ⟨⟩) :
    ∀ x ∈ xs, f x = .ok ⟨⟩ := by
  induction xs with
  | nil =>
      rintro x ⟨⟩
  | cons x xs ih =>
      rw [List.forM_eq_forM, List.forM_cons] at h
      cases hx : f x with
      | error e =>
          rw [hx] at h
          cases h
      | ok u =>
          rw [hx] at h
          intro y hy
          rcases List.mem_cons.1 hy with rfl | hy
          · exact hx
          · exact ih h y hy

/-- A finished graph is the one built, with a terminator in each block that the entry leads to. -/
theorem finish_eq_ok {b : Builder} {g : Graph} (h : b.finish = .ok g) :
    g = b.graph ∧ ∀ c ∈ g.reachable, ∃ n, g.terminator c = .ok n := by
  rw [finish] at h
  split at h
  · cases h
  · cases hforM : b.graph.reachable.forM fun c => discard (b.graph.terminator c) with
    | error e =>
        rw [hforM] at h
        cases h
    | ok u =>
        rw [hforM] at h
        cases h
        refine ⟨rfl, ?_⟩
        intro c hc
        have hok := forM_eq_ok hforM c hc
        cases hn : b.graph.terminator c with
        | ok n => exact ⟨n, rfl⟩
        | error e =>
            rw [hn] at hok
            cases hok

theorem finish_of_matches {b : Builder} (h : (b.finish matches .ok _) = true) : b.finish = .ok b.graph := by
  cases hg : b.finish with
  | error e =>
      rw [hg] at h
      cases h
  | ok g => rw [(finish_eq_ok hg).1]

theorem Built.wellFormed {m : Method} {b : Builder} (h : Built m b) {g : Graph} (hg : b.finish = .ok g) :
    g.WellFormed := by
  rw [(finish_eq_ok hg).1]
  exact h.sound.graph

end Builder

end NativeBackend
