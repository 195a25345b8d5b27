import NativeBackend.Proofs.Graph.Chain
import NativeBackend.Proofs.Graph.Placement
import NativeBackend.Proofs.Lowering.Ssa
import NativeBackend.Proofs.Lowering.Steady

namespace NativeBackend

def Graph.openPhis (g : Graph) (known : List NodeId) : Nat := g.phis.toList.countP fun p => !known.contains p.node

/-- How deep lowering goes at a node at most: phis that are open lead anywhere once, other nodes to earlier ones. -/
def Graph.depthBound (g : Graph) (known : List NodeId) (n : NodeId) : Nat :=
  g.openPhis known * (g.nodes.size + 1) + n + 1

theorem Graph.depthBound_le_maxDepth {g : Graph} {n : Nat} (hn : n < g.nodes.size) :
    g.depthBound [] n ≤ Lowering.maxDepth g := by
  have hle : g.openPhis [] ≤ g.phis.size := List.countP_le_length
  have hmul := Nat.mul_le_mul_right (g.nodes.size + 1) hle
  rw [depthBound, Lowering.maxDepth, Nat.add_one_mul]
  omega

theorem Graph.openPhis_cons_lt {g : Graph} (h : g.WellFormed) {known : List NodeId} {n : NodeId} {type : Ty} {t : PhiId}
    (hk : g.kind? n = some (.value ⟨type, .phi t⟩)) (hn : n ∉ known) : g.openPhis (n :: known) < g.openPhis known := by
  obtain ⟨x, hx, hkind⟩ := Option.map_eq_some_iff.1 hk
  obtain ⟨p, hp, hnode, -⟩ := (h.node n x hx).phi type t hkind
  have hmem : p ∈ g.phis.toList := Array.mem_toList_iff.2 (Array.mem_of_getElem? hp)
  refine countP_lt_countP hmem (by simp [hnode]) (by simp [hnode, hn]) fun q _ hq => ?_
  simp_all

theorem Graph.input_lt_of_kind {g : Graph} (h : g.WellFormed) {n i : Nat} {k : NodeKind} (hk : g.kind? n = some k)
    (hi : i ∈ k.inputs) : i < n ∧ n < g.nodes.size :=
  input_lt h (show i ∈ g.inputs n by rwa [inputs_of_kind hk])

namespace Lowering

variable {x : LoweringInput} {known : List NodeId} {lower lower' : NodeId → LowerM Operand} {n : NodeId}

section Operations

variable (hg : x.graph.WellFormed) (hx : ∀ n, x.schedule.blockOf n < x.graph.blocks.size)

include hx in
theorem lowerAction_steady {a : ActionNode} (h : ∀ i ∈ a.inputs, Stays x.graph known (lower i) (lower' i)) :
    Stays x.graph known (lowerAction x lower n a) (lowerAction x lower' n a) := by
  cases a with
  | blockEntry b => exact .pure _ fun _ hs => hs
  | store pointer value mode dependency =>
      exact (Stays.operandType value).bind fun type => (h pointer (by simp [ActionNode.inputs])).bind fun p =>
        (h value (by simp [ActionNode.inputs])).bind fun v => Stays.emit hx n _
  | monitorEnter object dependency =>
      exact (h object (by simp [ActionNode.inputs])).bind fun o => Stays.callRoutine hx n _ _
  | monitorExit object dependency =>
      exact (h object (by simp [ActionNode.inputs])).bind fun o => Stays.callRoutine hx n _ _

include hx in
theorem lowerEffect_steady (hinputs : ∀ i ∈ x.graph.inputs n, Stays x.graph known (lower i) (lower' i))
    (hn : Stays x.graph known (lower n) (lower' n)) :
    Stays x.graph known (lowerEffect x lower n) (lowerEffect x lower' n) := by
  rw [lowerEffect, lowerEffect]
  split
  · rename_i a hk
    rw [Graph.inputs_of_kind hk] at hinputs
    exact (lowerAction_steady hx hinputs).bind fun _ => Stays.markEffect n
  · exact hn.discard

include hg in
theorem pendingEffects_steady {last : Nat} {later : List NodeId} {steps : Nat} (hlast : last < steps)
    {bound : Nat} (hbound : last < bound) (hlater : ∀ m ∈ later, m < bound) :
    Steady (Registers x.graph known) (fun ns s => Registers x.graph known s ∧ ∀ m ∈ ns, m < bound)
      (pendingEffects x later steps last) (pendingEffects x later steps last) := by
  induction steps generalizing last later with
  | zero => exact absurd hlast (Nat.not_lt_zero _)
  | succ steps ih =>
      rw [pendingEffects]
      refine Stays.get.bind fun s => ?_
      split
      · exact .pure _ fun _ hs => ⟨hs, hlater⟩
      · split
        · exact (Stays.markEffect last).bind fun _ => .pure _ fun _ hs => ⟨hs, hlater⟩
        · rename_i k _ hk
          split
          · rename_i d hd
            obtain ⟨rest, hrest⟩ := inputs_of_effectDependency? hd
            have hlt := (Graph.input_lt_of_kind hg hk (hrest ▸ List.mem_cons_self)).1
            exact ih (by omega) (by omega) (List.forall_mem_cons.2 ⟨hbound, hlater⟩)
          · exact .fault (by simp)
        · exact .fault (by simp)

include hg hx in
theorem lowerEffects_steady {last bound : Nat} (hlast : last < bound)
    (h : ∀ i < bound, Stays x.graph known (lower i) (lower' i)) :
    Stays x.graph known (lowerEffects x lower last) (lowerEffects x lower' last) := by
  refine (pendingEffects_steady hg (Nat.lt_succ_self last) hlast (by simp)).bind fun ns => ?_
  refine .of_state fun s hs => .weaken (.forM fun m hm => ?_) (fun _ hs => hs.1) fun _ _ hs => hs
  have hlt := hs.2 m hm
  exact lowerEffect_steady hx (fun i hi => h i (Nat.lt_trans (Graph.input_lt hg hi).1 hlt)) (h m hlt)

theorem lowerPointer_steady (p : Pointer) : Stays x.graph known (lowerPointer x n p) (lowerPointer x n p) := by
  rw [lowerPointer]
  split
  · exact (Stays.changeModule _).bind fun _ => .pure _ fun _ hs => hs
  · split
    · rename_i signature _
      exact (Steady.ofExcept signature.target_refuses).bind fun _ =>
        (Stays.changeModule _).bind fun _ => .pure _ fun _ hs => hs
    · exact Steady.pure (Operand.const _) fun _ hs => hs
  · exact (Stays.report n _).bind fun _ => .pure _ fun _ hs => hs

theorem lowerCallee_steady {target : CallTarget}
    (h : ∀ i ∈ targetInputs target, Stays x.graph known (lower i) (lower' i)) :
    Stays x.graph known (lowerCallee lower target) (lowerCallee lower' target) := by
  cases target with
  | direct m =>
      exact (Steady.ofExcept m.functionType.target_refuses).bind fun _ =>
        (Stays.changeModule _).bind fun _ => .pure _ fun _ hs => hs
  | indirect pointer signature => exact h pointer (by simp [targetInputs])

theorem lowerArgs_steady {args : List NodeId} (h : ∀ i ∈ args, Stays x.graph known (lower i) (lower' i)) :
    Stays x.graph known (lowerArgs x lower args) (lowerArgs x lower' args) := by
  induction args with
  | nil => exact .pure _ fun _ hs => hs
  | cons i args ih =>
      exact (Stays.operandType i).bind fun type => (h i List.mem_cons_self).bind fun a =>
        (ih fun j hj => h j (List.mem_cons_of_mem _ hj)).bind fun rest => .pure _ fun _ hs => hs

theorem lowerIncoming_steady {block : BlockId} {index : Nat} {inputs : List (BlockId × NodeId)}
    (h : ∀ p ∈ inputs, p.1 < x.graph.blocks.size ∧ Stays x.graph known (lower p.2) (lower' p.2)) :
    Stays x.graph known (lowerIncoming lower block index inputs) (lowerIncoming lower' block index inputs) := by
  induction inputs with
  | nil => exact .pure _ fun _ hs => hs
  | cons input inputs ih =>
      obtain ⟨hblock, hvalue⟩ := h input List.mem_cons_self
      exact hvalue.bind fun o => (Stays.discover hblock).bind fun _ => (Stays.modifyBlock block _).bind fun _ =>
        ih fun p hp => h p (List.mem_cons_of_mem _ hp)

include hg hx in
theorem lowerPhi_steady (hreachable : x.schedule.reachable = x.graph.reachable) {type : IrType}
    (h : ∀ i < x.graph.nodes.size, Stays x.graph (n :: known) (lower i) (lower' i)) :
    Stays x.graph known (lowerPhi x lower n type) (lowerPhi x lower' n type) := by
  refine (Stays.discover (hx n)).bind fun _ => Stays.freshLocal.bind fun result => Stays.get.bind fun s =>
    (Stays.modifyBlock _ _).bind fun _ => (Stays.remember n _).bind fun _ =>
      (lowerIncoming_steady fun p hp => ?_).bind fun _ => .pure _ fun _ hs => hs.tail
  rw [hreachable] at hp
  exact ⟨((Graph.mem_reachable hg).1 (Graph.mem_phiInputs.1 hp).1).lt hg, h p.2 (Graph.phiInput_lt hg hp)⟩

include hg hx in
theorem lowerOp_steady (hreachable : x.schedule.reachable = x.graph.reachable) {v : ValueNode}
    (hk : x.graph.kind? n = some (.value v)) (h : ∀ i < n, Stays x.graph known (lower i) (lower' i))
    (hphi : ∀ t, v.op = .phi t → ∀ i < x.graph.nodes.size, Stays x.graph (n :: known) (lower i) (lower' i)) :
    Stays x.graph known (lowerOp x lower n v) (lowerOp x lower' n v) := by
  have hlt : ∀ i ∈ v.op.inputs, i < n := fun i hi => (Graph.input_lt_of_kind hg hk hi).1
  have hin : ∀ i ∈ v.op.inputs, Stays x.graph known (lower i) (lower' i) := fun i hi => h i (hlt i hi)
  obtain ⟨type, op⟩ := v
  cases op with
  | literal l => exact Steady.pure (Operand.const _) fun _ hs => hs
  | parameter index =>
      simp only [lowerOp]
      split
      · exact .pure _ fun _ hs => hs
      · exact .fault (by simp)
  | binary op lhs rhs =>
      exact (Stays.numericKind lhs).bind fun kind => (Steady.ofExcept (op.opcode_refuses kind)).bind fun opcode =>
        (Stays.operandType lhs).bind fun t => (hin lhs (by simp [ValueOp.inputs])).bind fun a =>
          (hin rhs (by simp [ValueOp.inputs])).bind fun b => Stays.define hx n _
  | neg input =>
      exact (Stays.numericKind input).bind fun kind => (Stays.operandType input).bind fun t =>
        (hin input (by simp [ValueOp.inputs])).bind fun a => Stays.define hx n _
  | cmp op lhs rhs =>
      exact (Stays.numericKind lhs).bind fun kind => (Stays.operandType lhs).bind fun t =>
        (hin lhs (by simp [ValueOp.inputs])).bind fun a => (hin rhs (by simp [ValueOp.inputs])).bind fun b =>
          Stays.define hx n _
  | conversion op input =>
      exact (Steady.ofExcept (x.graph.valueType_refuses input)).bind fun source =>
        (Steady.ofExcept source.target_refuses).bind fun s => (Steady.ofExcept type.target_refuses).bind fun t =>
          (Steady.ofExcept (op.opcode_refuses input source type)).bind fun opcode =>
            (hin input (by simp [ValueOp.inputs])).bind fun a => Stays.define hx n _
  | select cond ifTrue ifFalse =>
      exact (Steady.ofExcept type.target_refuses).bind fun t => (hin cond (by simp [ValueOp.inputs])).bind fun c =>
        (hin ifTrue (by simp [ValueOp.inputs])).bind fun a => (hin ifFalse (by simp [ValueOp.inputs])).bind fun b =>
          Stays.define hx n _
  | phi t =>
      exact (Steady.ofExcept type.target_refuses).bind fun type => lowerPhi_steady hg hx hreachable (hphi t rfl)
  | pointerLiteral p => exact lowerPointer_steady p
  | load pointer mode dependency =>
      exact (lowerEffects_steady hg hx (hlt dependency (by simp [ValueOp.inputs])) h).bind fun _ =>
        (Steady.ofExcept type.target_refuses).bind fun t => (hin pointer (by simp [ValueOp.inputs])).bind fun a =>
          Stays.define hx n _
  | call target args dependency =>
      have hinputs : ∀ i ∈ dependency :: (targetInputs target ++ args), i < n := by
        cases target <;> exact hlt
      have hcallee : ∀ i ∈ targetInputs target, Stays x.graph known (lower i) (lower' i) := fun i hi =>
        h i (hinputs i (List.mem_cons_of_mem _ (List.mem_append_left _ hi)))
      have hargs : ∀ i ∈ args, Stays x.graph known (lower i) (lower' i) := fun i hi =>
        h i (hinputs i (List.mem_cons_of_mem _ (List.mem_append_right _ hi)))
      refine (lowerEffects_steady hg hx (hinputs dependency List.mem_cons_self) h).bind fun _ =>
        (lowerCallee_steady hcallee).bind fun callee => (lowerArgs_steady hargs).bind fun args =>
          (Steady.ofExcept type.target_refuses).bind fun t => ?_
      split
      · exact (Stays.emit hx n _).bind fun _ => Steady.pure (Operand.const _) fun _ hs => hs
      · exact Stays.define hx n _
  | virtualLookup receiver m owner =>
      exact (Stays.produce fun _ _ _ he => (Emission.vtableIndex_refuses he).not_isDepth).bind fun index =>
        (hin receiver (by simp [ValueOp.inputs])).bind fun object => Stays.askRoutine hx n _ _
  | interfaceLookup receiver m interface =>
      exact (Stays.produce fun _ _ _ he => (Emission.itableIndex_refuses he).not_isDepth).bind fun index =>
        (hin receiver (by simp [ValueOp.inputs])).bind fun object => Stays.askRoutine hx n _ _
  | catchException => exact (Stays.report n _).bind fun _ => Steady.pure (Operand.const _) fun _ hs => hs

theorem compute_steady {v : ValueNode}
    (h : n ∉ known → Stays x.graph known (lowerOp x lower n v) (lowerOp x lower' n v)) :
    Stays x.graph known (compute x lower n v) (compute x lower' n v) := by
  refine Steady.get.bind fun s => ?_
  split
  · exact .pure _ fun _ hs => hs.1
  · rename_i hnone
    refine .of_state fun s' hs => ?_
    have hnew : n ∉ known := fun hmem => hs.1.operand n hmem (hs.2 ▸ hnone)
    exact .weaken ((h hnew).bind fun o => (Stays.remember n o).bind fun _ => .pure o fun _ hs => hs.tail)
      (fun _ hs => hs.1) fun _ _ hs => hs

end Operations

theorem depthBound_input {g : Graph} {i n : Nat} (hi : i < n) : g.depthBound known i < g.depthBound known n := by
  rw [Graph.depthBound, Graph.depthBound]
  omega

theorem depthBound_phi {g : Graph} (h : g.WellFormed) {i n : Nat} {type : Ty} {t : PhiId}
    (hk : g.kind? n = some (.value ⟨type, .phi t⟩)) (hn : n ∉ known) (hi : i < g.nodes.size) :
    g.depthBound (n :: known) i < g.depthBound known n := by
  have hmul := Nat.mul_le_mul_right (g.nodes.size + 1) (Graph.openPhis_cons_lt h hk hn)
  rw [Nat.succ_mul] at hmul
  rw [Graph.depthBound, Graph.depthBound]
  omega

section Runs

variable (hg : x.graph.WellFormed) (hx : ∀ n, x.schedule.blockOf n < x.graph.blocks.size)
  (hreachable : x.schedule.reachable = x.graph.reachable)

include hg hx

include hreachable in
/-- How deep lowering may go does not matter from the bound on. -/
theorem lowerValue_steady {depth depth' n : Nat} (hn : n < x.graph.nodes.size)
    (hd : x.graph.depthBound known n ≤ depth) (hd' : x.graph.depthBound known n ≤ depth') :
    Stays x.graph known (lowerValue x depth n) (lowerValue x depth' n) := by
  induction depth generalizing known n depth' with
  | zero => exact absurd hd (Nat.not_succ_le_zero _)
  | succ depth ih =>
      obtain ⟨depth', rfl⟩ : ∃ d, depth' = d + 1 := ⟨depth' - 1, by rw [Graph.depthBound] at hd'; omega⟩
      have hinputs : ∀ i < n, Stays x.graph known (lowerValue x depth i) (lowerValue x depth' i) := by
        intro i hi
        have hlt : x.graph.depthBound known i < x.graph.depthBound known n := depthBound_input hi
        exact ih (Nat.lt_trans hi hn) (by omega) (by omega)
      rw [lowerValue, lowerValue]
      refine Stays.get.bind fun s => ?_
      split
      · exact .pure _ fun _ hs => hs
      · split
        · rename_i v hk
          have hop : n ∉ known → Stays x.graph known (lowerOp x (lowerValue x depth) n v)
              (lowerOp x (lowerValue x depth') n v) := by
            intro hnew
            -- what flows into a phi may be a later node, but from here on the phi is no longer open
            refine lowerOp_steady hg hx hreachable hk hinputs fun t ht i hi => ?_
            have hlt : x.graph.depthBound (n :: known) i < x.graph.depthBound known n :=
              depthBound_phi hg (by rw [hk, ← ht]) hnew hi
            exact ih hi (by omega) (by omega)
          split
          · refine Steady.bind (.forM fun i hi => (hinputs i ?_).discard) fun _ => compute_steady hop
            exact (Graph.input_lt_of_kind hg hk (List.mem_filter.1 hi).1).1
          · exact compute_steady hop
        · exact .fault (by simp)
        · exact .fault (by simp)

theorem lowerTerminator_steady (h : ∀ i < x.graph.nodes.size, Stays x.graph known (lower i) (lower' i))
    {t : TerminatorNode} (hk : x.graph.kind? n = some (.terminator t)) :
    Stays x.graph known (lowerTerminator x lower n t) (lowerTerminator x lower' n t) := by
  obtain ⟨y, hy, hkind⟩ := Option.map_eq_some_iff.1 hk
  have htarget : ∀ b ∈ t.successors, Stays x.graph known (discover b) (discover b) := fun b hb =>
    Stays.discover ((hg.node n y hy).targets t hkind b hb)
  have hlt : ∀ i ∈ t.inputs, i < x.graph.nodes.size := fun i hi =>
    (Graph.input_lt_of_kind hg hk hi).1.trans (Graph.input_lt_of_kind hg hk hi).2
  have heffects : ∀ d ∈ t.inputs, Stays x.graph known (lowerEffects x lower d) (lowerEffects x lower' d) :=
    fun d hd => lowerEffects_steady hg hx (hlt d hd) h
  cases t with
  | goto target dependency =>
      exact (heffects dependency (by simp [TerminatorNode.inputs])).bind fun _ =>
        (htarget target (by simp [TerminatorNode.successors])).bind fun _ => Stays.terminate hx n _
  | branch cond ifTrue ifFalse dependency =>
      exact (heffects dependency (by simp [TerminatorNode.inputs])).bind fun _ =>
        (h cond (hlt cond (by simp [TerminatorNode.inputs]))).bind fun c =>
          (htarget ifTrue (by simp [TerminatorNode.successors])).bind fun _ =>
            (htarget ifFalse (by simp [TerminatorNode.successors])).bind fun _ => Stays.terminate hx n _
  | ret value dependency =>
      cases value with
      | none =>
          exact (heffects dependency (by simp [TerminatorNode.inputs])).bind fun _ => Stays.terminate hx n _
      | some value =>
          exact (heffects dependency (by simp [TerminatorNode.inputs])).bind fun _ =>
            (Stays.operandType value).bind fun type =>
              (h value (hlt value (by simp [TerminatorNode.inputs]))).bind fun a => Stays.terminate hx n _
  | unreachable dependency =>
      exact (heffects dependency (by simp [TerminatorNode.inputs])).bind fun _ => Stays.terminate hx n _
  | throw value handler dependency => exact (Stays.report n _).bind fun _ => Stays.terminate hx n _

theorem lowerBlock_steady (h : ∀ i < x.graph.nodes.size, Stays x.graph known (lower i) (lower' i)) (b : BlockId) :
    Stays x.graph known (lowerBlock x lower b) (lowerBlock x lower' b) := by
  refine (Steady.ofExcept (x.graph.terminator_refuses b)).bind fun n => ?_
  split
  · rename_i t hk
    exact lowerTerminator_steady hg hx h hk
  · exact .fault (by simp)
  · exact .fault (by simp)

omit hg hx in
theorem lowerBlocks_of_le {s : LoweringState} (hs : Registers x.graph known s) {index : Nat}
    (hindex : x.graph.blocks.size ≤ index) (blocks : Nat) : lowerBlocks x lower index blocks s = .ok ⟨⟩ s := by
  cases blocks with
  | zero => rfl
  | succ blocks =>
      rw [lowerBlocks, Steps.bind_of_ok (Steps.get_apply s)]
      rw [List.getElem?_eq_none (Nat.le_trans hs.length_le hindex)]
      rfl

/-- Since no block is found twice, the list of blocks ends. -/
theorem lowerBlocks_steady (h : ∀ i < x.graph.nodes.size, Stays x.graph known (lower i) (lower' i))
    {index blocks blocks' : Nat} (hb : x.graph.blocks.size ≤ index + blocks)
    (hb' : x.graph.blocks.size ≤ index + blocks') :
    Stays x.graph known (lowerBlocks x lower index blocks) (lowerBlocks x lower' index blocks') := by
  induction blocks generalizing index blocks' with
  | zero => exact .of_both_ok fun s hs => ⟨_, s, lowerBlocks_of_le hs hb _, lowerBlocks_of_le hs hb _, hs⟩
  | succ blocks ih =>
      cases blocks' with
      | zero => exact .of_both_ok fun s hs => ⟨_, s, lowerBlocks_of_le hs hb' _, lowerBlocks_of_le hs hb' _, hs⟩
      | succ blocks' =>
          rw [lowerBlocks, lowerBlocks]
          refine Stays.get.bind fun s => ?_
          split
          · exact .pure _ fun _ hs => hs
          · exact (lowerBlock_steady hg hx h _).bind fun _ => ih (by omega) (by omega)

def lowerGraphWithin (depth blocks : Nat) (x : LoweringInput) : LowerM Unit := do
  discover x.graph.entry
  lowerBlocks x (lowerValue x depth) 0 blocks

include hreachable in
theorem lowerGraph_steady {depth blocks : Nat} (hdepth : maxDepth x.graph ≤ depth)
    (hblocks : x.graph.blocks.size ≤ blocks) : Stays x.graph [] (lowerGraph x) (lowerGraphWithin depth blocks x) := by
  refine (Stays.discover hg.entry).bind fun _ => lowerBlocks_steady hg hx (fun i hi => ?_) (by omega) (by omega)
  have hbound : x.graph.depthBound [] i ≤ maxDepth x.graph := Graph.depthBound_le_maxDepth hi
  exact lowerValue_steady hg hx hreachable hi hbound (Nat.le_trans hbound hdepth)

end Runs

end Lowering

open Lowering

def lowerMethodWithin (depth blocks : Nat) (g : Graph) : EmitM Function := fun e =>
  match g.method.functionType.target, Schedule.compute g with
  | .error err, _ => .error err e
  | .ok _, .error err => .error err e
  | .ok signature, .ok schedule =>
    match lowerGraphWithin depth blocks ⟨g, schedule⟩ { emission := e, nextLocal := signature.params.length } with
    | .ok _ s => .ok ⟨g.method.symbol, signature, s.blocks.map (·.2), s.nextLocal⟩ s.emission
    | .error err s => .error err s.emission

theorem lowerMethodWithin_maxDepth (g : Graph) : lowerMethodWithin (maxDepth g) g.blocks.size g = lowerMethod g := rfl

/-- Lowering the body of a method ends. All queries for places of nodes are answered; the bounds on the depth of the
recursion and on the number of blocks could be anything above without a change to the result; and an error does not come
from running out of depth. -/
theorem lowerMethod_terminates {m : Method} {b : Builder} {g : Graph} (hb : Builder.Built m b) (hg : b.finish = .ok g)
    (hpinned : ∀ n c, g.Needed n → g.pinned? n = some c → g.Reaches c) (e : Emission) :
    (∃ s, Schedule.start g = .ok s ∧ ∀ earlier p, Schedule.Asked g s earlier p → ∀ n < g.nodes.size,
      ∃ c p', Schedule.blockForNode g s n p = some (.ok c, p')) ∧
    (∀ depth blocks, maxDepth g ≤ depth → g.blocks.size ≤ blocks →
      lowerMethodWithin depth blocks g e = lowerMethod g e) ∧
    ((∃ f e', lowerMethod g e = .ok f e') ∨
      ∃ err e', lowerMethod g e = .error err e' ∧ ∀ n, err ≠ .internal (.loweringDepth n)) := by
  have h := hb.wellFormed hg
  have hterm := (Builder.finish_eq_ok hg).2
  obtain ⟨s₀, hstart⟩ := Schedule.exists_start_eq_ok h hterm
  have hs₀ := Schedule.start_prepared h hstart
  obtain ⟨s, hs⟩ : ∃ s, Schedule.compute g = .ok s := ⟨_, Steps.except_bind_eq_ok.2 ⟨s₀, hstart, rfl⟩⟩
  have hspec := Schedule.compute_spec h hs
  refine ⟨⟨s₀, hstart, fun earlier p hp n hn => ?_⟩, ?_⟩
  · obtain ⟨c, p', hquery, -⟩ := Schedule.answers h hs₀ hpinned hn p (hp.consistent h hs₀)
    exact ⟨c, p', hquery⟩
  · cases hsignature : g.method.functionType.target with
    | error err =>
        refine ⟨fun depth blocks _ _ => ?_, .inr ⟨err, e, ?_, fun n heq => ?_⟩⟩
        · simp only [lowerMethodWithin, lowerMethod, hsignature]
        · simp only [lowerMethod, hsignature]
        · exact g.method.functionType.target_shallow err hsignature ⟨n, heq⟩
    | ok signature =>
        have hregisters : Registers g [] { emission := e, nextLocal := signature.params.length } :=
          ⟨by simp, List.nodup_nil, by simp [keys]⟩
        have hsteady : ∀ depth blocks, maxDepth g ≤ depth → g.blocks.size ≤ blocks →
            Stays g [] (lowerGraph ⟨g, s⟩) (lowerGraphWithin depth blocks ⟨g, s⟩) :=
          fun depth blocks => @lowerGraph_steady ⟨g, s⟩ h (hspec.blockOf_lt h) hspec.reachable depth blocks
        refine ⟨fun depth blocks hdepth hblocks => ?_, ?_⟩
        · have hsame : lowerGraphWithin depth blocks ⟨g, s⟩ { emission := e, nextLocal := signature.params.length } =
              lowerGraphWithin (maxDepth g) g.blocks.size ⟨g, s⟩
                { emission := e, nextLocal := signature.params.length } :=
            (hsteady depth blocks hdepth hblocks).same _ hregisters
          rw [← lowerMethodWithin_maxDepth]
          simp only [lowerMethodWithin, hsignature, hs, hsame]
        · cases hgraph : lowerGraph ⟨g, s⟩ { emission := e, nextLocal := signature.params.length } with
          | ok _ s' => exact .inl (by simp [lowerMethod, hsignature, hs, hgraph])
          | error err s' =>
              refine .inr ⟨err, s'.emission, ?_, fun n heq => ?_⟩
              · simp only [lowerMethod, hsignature, hs, hgraph]
              · have hsettled := hsteady _ _ (Nat.le_refl _) (Nat.le_refl _)
                exact hsettled.error _ err s' hregisters hgraph ⟨n, heq⟩

namespace Example

/-- A loop of one block with two phis that feed each other, a load through one of them that feeds a call, whose result
flows back into the other. -/
def swirling : Builder :=
  let node : Method := ⟨"zoo/Eddy", "turn", ⟨[.object "zoo/Eddy"], .object "zoo/Eddy"⟩, { isStatic := true }, true⟩
  Request.applyAll (.start ⟨"zoo/Eddy", "swirl", ⟨[.object "zoo/Eddy"], .void⟩, { isStatic := true }, true⟩) [
    .newBlock "loop", .newBlock "exit", .parameter 0 .reference, .nullLiteral, .goto 1,
    .begin 1, .phi .reference, .phi .reference, .load 6 .reference .plain, .call node [8], .store 7 9 .plain,
    .addPhiInput 6 0 3, .addPhiInput 6 1 7, .addPhiInput 7 0 3, .addPhiInput 7 1 9, .cmp .ne 9 4, .ifThenElse 11 1 2,
    .begin 2, .returnVoid]

theorem swirling_finish : swirling.finish = .ok swirling.graph := Builder.finish_of_matches (by cbv)

theorem lowerMethod_terminates_of_swirling :
    (∀ n c, swirling.graph.Needed n → swirling.graph.pinned? n = some c → swirling.graph.Reaches c) ∧
      lowerMethodWithin 45 3 swirling.graph output = lowerMethod swirling.graph output ∧
      lowerMethodWithin 1000 1000 swirling.graph output = lowerMethod swirling.graph output ∧
      ∃ f e, lowerMethod swirling.graph output = .ok f e ∧ f.blocks.map (·.label) = ["b0", "b1", "b2"] := by
  obtain ⟨m, hbuilt⟩ : ∃ m, Builder.Built m swirling := ⟨_, .applyAll .start _⟩
  have hpinned : ∀ n c, swirling.graph.Needed n → swirling.graph.pinned? n = some c → swirling.graph.Reaches c :=
    fun n c _ hc => Graph.reaches_of_pinned (hbuilt.wellFormed swirling_finish) (by cbv) hc
  obtain ⟨-, hsame, -⟩ := lowerMethod_terminates hbuilt swirling_finish hpinned output
  have hdepth : maxDepth swirling.graph = 45 := by cbv
  have hblocks : swirling.graph.blocks.size = 3 := by cbv
  have hlabels : (Steps.answer? (lowerMethod swirling.graph output)).map (fun f => f.blocks.map (·.label)) =
      some ["b0", "b1", "b2"] := by cbv
  exact ⟨hpinned, hsame _ _ (by omega) (by omega), hsame _ _ (by omega) (by omega), Steps.map_answer?_eq_some.1 hlabels⟩

end Example

end NativeBackend
