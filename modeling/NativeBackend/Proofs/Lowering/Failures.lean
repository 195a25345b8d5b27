import NativeBackend.Proofs.Graph.Sharing
import NativeBackend.Proofs.Lowering.SoundMethod
import NativeBackend.Proofs.Lowering.Termination

namespace NativeBackend

theorem Graph.onChain_dependency {g : Graph} (h : g.WellFormed) {n d : NodeId} {k : NodeKind}
    (hk : g.kind? n = some k) (hd : k.dependency? = some d) : ∃ k', g.kind? d = some k' ∧ k'.OnChain := by
  obtain ⟨x, hx, rfl⟩ := Option.map_eq_some_iff.1 hk
  obtain ⟨y, hy, -, hchain⟩ := (h.node n x hx).dependency d hd
  exact ⟨y.kind, kind?_of_getElem? hy, hchain⟩

namespace Lowering

def Orderly {α : Type} (m : LowerM α) : Prop := ∀ s e s', m s = .error e s' → e.IsRefusal ∨ e.IsDepth

namespace Orderly

variable {α β : Type} {m : LowerM α} {x : LoweringInput}

theorem of_ok (h : ∀ s, ∃ a s', m s = .ok a s') : Orderly m := by
  intro s e s' he
  obtain ⟨a, t, hok⟩ := h s
  cases hok.symm.trans he

theorem pure (a : α) : Orderly (Pure.pure a) := .of_ok fun s => ⟨a, s, rfl⟩

theorem get : Orderly (MonadState.get : LowerM LoweringState) := .of_ok fun s => ⟨s, s, rfl⟩

theorem bind {f : α → LowerM β} (hm : Orderly m) (hf : ∀ a, Orderly (f a)) : Orderly (m >>= f) := by
  intro s e s' he
  rcases Steps.bind_eq_error.1 he with he | ⟨a, t, -, he⟩
  · exact hm s e s' he
  · exact hf a t e s' he

theorem fault {f : Fault} (hf : f.isRefusal = true) : Orderly (Lowering.fault f : LowerM α) := by
  rintro s e s' ⟨⟩
  exact .inl ⟨f, rfl, hf⟩

theorem ofExcept {r : Except Error α} (hr : Refuses r) : Orderly (Lowering.ofExcept r) := by
  cases r with
  | ok a => exact .pure a
  | error e =>
      rintro s e' s' ⟨⟩
      exact .inl (hr e rfl)

theorem discard (hm : Orderly m) : Orderly (Functor.discard m) := hm.bind fun _ => .pure _

theorem forM {step : α → LowerM PUnit} {as : List α} (h : ∀ a, Orderly (step a)) : Orderly (as.forM step) := by
  induction as with
  | nil => exact .pure _
  | cons a as ih =>
      simp only [List.forM_eq_forM, List.forM_cons] at ih ⊢
      exact (h a).bind fun _ => ih

theorem produce {step : EmitM α} (hstep : ∀ t e t', step t = .error e t' → e.IsRefusal) :
    Orderly (Lowering.produce step) := by
  intro s e s' he
  rw [Lowering.produce] at he
  split at he
  · cases he
  · rename_i heq
    cases he
    exact .inl (hstep _ _ _ heq)

theorem changeModule (change : Module → Module) : Orderly (Lowering.produce (Emission.modifyModule change)) :=
  produce fun _ _ _ he => nomatch he

theorem report (n : NodeId) (message : String) : Orderly (Lowering.report x n message) :=
  produce fun _ _ _ he => nomatch he

theorem discover (b : BlockId) : Orderly (Lowering.discover b) := .of_ok fun s => ⟨_, _, discover_apply b s⟩

theorem modifyBlock (b : BlockId) (change : BasicBlock → BasicBlock) : Orderly (Lowering.modifyBlock b change) :=
  .of_ok fun s => ⟨_, _, modifyBlock_apply b change s⟩

theorem remember (n : NodeId) (o : Operand) : Orderly (Lowering.remember n o) :=
  .of_ok fun s => ⟨_, _, remember_apply n o s⟩

theorem markEffect (n : NodeId) : Orderly (Lowering.markEffect n) := .of_ok fun _ => ⟨_, _, rfl⟩

theorem emit (n : NodeId) (i : Instruction) : Orderly (Lowering.emit x n i) :=
  .of_ok fun s => ⟨_, _, emit_apply n i s⟩

theorem define (n : NodeId) (f : Local → Instruction) : Orderly (Lowering.define x n f) :=
  .of_ok fun s => ⟨_, _, define_apply n f s⟩

theorem callRoutine (n : NodeId) (r : Routine) (args : List (IrType × Operand)) :
    Orderly (Lowering.callRoutine x n r args) := (changeModule _).bind fun _ => .emit n _

theorem askRoutine (n : NodeId) (r : Routine) (args : List (IrType × Operand)) :
    Orderly (Lowering.askRoutine x n r args) := (changeModule _).bind fun _ => .define n _

theorem operandType (n : NodeId) : Orderly (Lowering.operandType x n) :=
  (ofExcept (x.graph.valueType_refuses n)).bind fun t => .ofExcept t.target_refuses

theorem numericKind (n : NodeId) : Orderly (Lowering.numericKind x n) :=
  (ofExcept (x.graph.valueType_refuses n)).bind fun t => .ofExcept (t.kind_refuses n)

end Orderly

variable {x : LoweringInput} {lower : NodeId → LowerM Operand} {n : NodeId}

section Operations

variable (hg : x.graph.WellFormed) (hlower : ∀ i, Orderly (lower i))

include hlower in
theorem lowerAction_orderly (a : ActionNode) : Orderly (lowerAction x lower n a) := by
  cases a with
  | blockEntry b => exact .pure _
  | store pointer value mode dependency =>
      exact (Orderly.operandType value).bind fun _ => (hlower pointer).bind fun _ => (hlower value).bind fun _ =>
        .emit n _
  | monitorEnter object dependency | monitorExit object dependency =>
      exact (hlower object).bind fun _ => .callRoutine n _ _

include hlower in
theorem lowerEffect_orderly (n : NodeId) : Orderly (lowerEffect x lower n) := by
  rw [lowerEffect]
  split
  · exact (lowerAction_orderly hlower _).bind fun _ => .markEffect n
  · exact (hlower n).discard

include hg in
theorem pendingEffects_orderly {k : NodeKind} (hk : x.graph.kind? n = some k) (hchain : k.OnChain) (later : List NodeId)
    (steps : Nat) : Orderly (pendingEffects x later steps n) := by
  induction steps generalizing n k later with
  | zero =>
      rintro s e s' ⟨⟩
      exact .inr ⟨n, rfl⟩
  | succ steps ih =>
      rw [pendingEffects, hk]
      refine Orderly.get.bind fun s => ?_
      split
      · exact .pure _
      · split
        · exact (Orderly.markEffect n).bind fun _ => .pure _
        · rename_i k' hmarker heq
          cases heq
          obtain ⟨b, rfl⟩ | heffect := hchain
          · exact absurd rfl (hmarker b)
          · obtain ⟨d, hd⟩ := Option.isSome_iff_exists.1 heffect
            obtain ⟨k', hk', hchain'⟩ := Graph.onChain_dependency hg hk (Graph.dependency?_of_effectDependency? hd)
            simp only [hd]
            exact ih hk' hchain' _
        · rename_i heq
          cases heq

include hg hlower in
theorem lowerEffects_orderly {k : NodeKind} {d : NodeId} (hk : x.graph.kind? n = some k) (hd : k.dependency? = some d) :
    Orderly (lowerEffects x lower d) := by
  obtain ⟨k', hk', hchain⟩ := Graph.onChain_dependency hg hk hd
  exact (pendingEffects_orderly hg hk' hchain _ _).bind fun _ => .forM (lowerEffect_orderly hlower)

theorem lowerPointer_orderly (p : Pointer) : Orderly (lowerPointer x n p) := by
  rw [lowerPointer]
  split
  · exact (Orderly.changeModule _).bind fun _ => .pure _
  · split
    · rename_i signature _
      exact (Orderly.ofExcept signature.target_refuses).bind fun _ => (Orderly.changeModule _).bind fun _ => .pure _
    · exact Orderly.pure (Operand.const _)
  · exact (Orderly.report n _).bind fun _ => .pure _

include hlower in
theorem lowerCallee_orderly (target : CallTarget) : Orderly (lowerCallee lower target) := by
  cases target with
  | direct m =>
      exact (Orderly.ofExcept m.functionType.target_refuses).bind fun _ => (Orderly.changeModule _).bind fun _ =>
        .pure _
  | indirect pointer signature => exact hlower pointer

include hlower in
theorem lowerArgs_orderly (args : List NodeId) : Orderly (lowerArgs x lower args) := by
  induction args with
  | nil => exact .pure _
  | cons i args ih =>
      exact (Orderly.operandType i).bind fun _ => (hlower i).bind fun _ => ih.bind fun _ => .pure _

include hlower in
theorem lowerIncoming_orderly (block : BlockId) (index : Nat) (inputs : List (BlockId × NodeId)) :
    Orderly (lowerIncoming lower block index inputs) := by
  induction inputs with
  | nil => exact .pure _
  | cons input inputs ih =>
      exact (hlower input.2).bind fun _ => (Orderly.discover input.1).bind fun _ =>
        (Orderly.modifyBlock block _).bind fun _ => ih

include hlower in
theorem lowerPhi_orderly (type : IrType) : Orderly (lowerPhi x lower n type) :=
  (Orderly.discover _).bind fun _ => (Orderly.of_ok fun s => ⟨_, _, freshLocal_apply s⟩).bind fun _ =>
    Orderly.get.bind fun _ => (Orderly.modifyBlock _ _).bind fun _ => (Orderly.remember n _).bind fun _ =>
      (lowerIncoming_orderly hlower _ _ _).bind fun _ => .pure _

include hg hlower in
theorem lowerOp_orderly {v : ValueNode} (hk : x.graph.kind? n = some (.value v)) : Orderly (lowerOp x lower n v) := by
  obtain ⟨type, op⟩ := v
  cases op with
  | literal l => exact Orderly.pure (Operand.const _)
  | parameter index =>
      simp only [lowerOp]
      split
      · exact .pure _
      · exact .fault rfl
  | binary op lhs rhs =>
      exact (Orderly.numericKind lhs).bind fun kind => (Orderly.ofExcept (op.opcode_refuses kind)).bind fun _ =>
        (Orderly.operandType lhs).bind fun _ => (hlower lhs).bind fun _ => (hlower rhs).bind fun _ => .define n _
  | neg input =>
      exact (Orderly.numericKind input).bind fun _ => (Orderly.operandType input).bind fun _ =>
        (hlower input).bind fun _ => .define n _
  | cmp op lhs rhs =>
      exact (Orderly.numericKind lhs).bind fun _ => (Orderly.operandType lhs).bind fun _ => (hlower lhs).bind fun _ =>
        (hlower rhs).bind fun _ => .define n _
  | conversion op input =>
      exact (Orderly.ofExcept (x.graph.valueType_refuses input)).bind fun source =>
        (Orderly.ofExcept source.target_refuses).bind fun _ => (Orderly.ofExcept type.target_refuses).bind fun _ =>
          (Orderly.ofExcept (op.opcode_refuses input source type)).bind fun _ => (hlower input).bind fun _ =>
            .define n _
  | select cond ifTrue ifFalse =>
      exact (Orderly.ofExcept type.target_refuses).bind fun _ => (hlower cond).bind fun _ =>
        (hlower ifTrue).bind fun _ => (hlower ifFalse).bind fun _ => .define n _
  | phi t => exact (Orderly.ofExcept type.target_refuses).bind fun type => lowerPhi_orderly hlower type
  | pointerLiteral p => exact lowerPointer_orderly p
  | load pointer mode dependency =>
      exact (lowerEffects_orderly hg hlower hk rfl).bind fun _ => (Orderly.ofExcept type.target_refuses).bind fun _ =>
        (hlower pointer).bind fun _ => .define n _
  | call target args dependency =>
      refine (lowerEffects_orderly hg hlower hk rfl).bind fun _ => (lowerCallee_orderly hlower target).bind fun _ =>
        (lowerArgs_orderly hlower args).bind fun _ => (Orderly.ofExcept type.target_refuses).bind fun _ => ?_
      split
      · exact (Orderly.emit n _).bind fun _ => Orderly.pure (Operand.const _)
      · exact .define n _
  | virtualLookup receiver m owner =>
      exact (Orderly.produce fun _ _ _ he => Emission.vtableIndex_refuses he).bind fun _ =>
        (hlower receiver).bind fun _ => .askRoutine n _ _
  | interfaceLookup receiver m interface =>
      exact (Orderly.produce fun _ _ _ he => Emission.itableIndex_refuses he).bind fun _ =>
        (hlower receiver).bind fun _ => .askRoutine n _ _
  | catchException => exact (Orderly.report n _).bind fun _ => Orderly.pure (Operand.const _)

include hg hlower in
theorem compute_orderly {v : ValueNode} (hk : x.graph.kind? n = some (.value v)) :
    Orderly (compute x lower n v) := by
  refine Orderly.get.bind fun s => ?_
  split
  · exact .pure _
  · exact (lowerOp_orderly hg hlower hk).bind fun _ => (Orderly.remember n _).bind fun _ => .pure _

end Operations

theorem lowerValue_orderly (hg : x.graph.WellFormed) (depth : Nat) (n : NodeId) : Orderly (lowerValue x depth n) := by
  induction depth generalizing n with
  | zero =>
      rintro s e s' ⟨⟩
      exact .inr ⟨n, rfl⟩
  | succ depth ih =>
      rw [lowerValue]
      refine Orderly.get.bind fun s => ?_
      split
      · exact .pure _
      · split
        · rename_i v hk
          split
          · exact (Orderly.forM fun i => (ih i).discard).bind fun _ => compute_orderly hg ih hk
          · exact compute_orderly hg ih hk
        · exact .fault rfl
        · exact .fault rfl

def Unended (x : LoweringInput) (h : List Event) (b : BlockId) : Prop :=
  ∀ m targets t, .terminated m targets t ∈ h → x.schedule.blockOf m ≠ b

theorem Unended.render {h : List Event} {b : BlockId} (hopen : Unended x h b) : (render x h b).terminator = none := by
  refine List.findSome?_eq_none_iff.2 fun e he => ?_
  cases e with
  | terminated m targets t => exact if_neg (hopen m targets t he)
  | _ => rfl

theorem Unended.append {h w : List Event} {b : BlockId} {ts : List Task} (hopen : Unended x h b)
    (hl : Lowers x h ts w) : Unended x (h ++ w) b := fun m targets t hmem =>
  hopen m targets t ((List.mem_append.1 hmem).resolve_right hl.not_terminated)

structure Prepares {α : Type} (x : LoweringInput) (m : LowerM α) : Prop where
  orderly : Orderly m
  ok : ∀ h s a s', Reflects x h s → m s = .ok a s' → ∃ ts w, Lowers x h ts w ∧ Does x h w s s'

def Closes (x : LoweringInput) (b : BlockId) (m : LowerM Unit) : Prop :=
  ∀ h s e s', Reflects x h s → Unended x h b → m s = .error e s' → e.IsRefusal ∨ e.IsDepth

namespace Prepares

variable {α : Type} {m : LowerM α} {b : BlockId}

theorem bind {f : α → LowerM Unit} (hm : Prepares x m) (hf : ∀ a, Closes x b (f a)) : Closes x b (m >>= f) := by
  intro h s e s' hr hopen he
  rcases Steps.bind_eq_error.1 he with he | ⟨a, t, ha, he⟩
  · exact hm.orderly s e s' he
  · obtain ⟨ts, w, hl, hd⟩ := hm.ok h s a t hr ha
    exact hf a (h ++ w) t e s' hd.reflects (hopen.append hl) he

theorem report (n : NodeId) (message : String) : Prepares x (Lowering.report x n message) := by
  refine ⟨.report n message, fun h s a s' hr ha => ?_⟩
  obtain ⟨e, rfl⟩ := produce_eq_ok ha
  exact ⟨[], [], .nil, hr.does_emission e⟩

theorem operandType (n : NodeId) : Prepares x (Lowering.operandType x n) := by
  refine ⟨.operandType n, fun h s a s' hr ha => ?_⟩
  obtain ⟨rfl, -⟩ := operandType_eq_ok ha
  exact ⟨[], [], .nil, hr.does_nil⟩

theorem operand (hlowers : LowersValues x lower) (hlower : ∀ i, Orderly (lower i)) (n : NodeId) :
    Prepares x (lower n) := by
  refine ⟨hlower n, fun h s a s' hr ha => ?_⟩
  obtain ⟨w, hl, hd, -⟩ := hlowers h s n a s' hr ha
  exact ⟨_, w, hl, hd⟩

theorem effects (hg : x.graph.WellFormed) (hlowers : LowersValues x lower) (hlower : ∀ i, Orderly (lower i))
    {k : NodeKind} {d : NodeId} (hk : x.graph.kind? n = some k) (hd : k.dependency? = some d) :
    Prepares x (lowerEffects x lower d) := by
  refine ⟨lowerEffects_orderly hg hlower hk hd, fun h s a s' hr ha => ?_⟩
  obtain ⟨w, hl, hd⟩ := lowerEffects_eq_ok hlowers hr ha
  exact ⟨_, w, hl, hd⟩

end Prepares

theorem terminate_of_unended {h : List Event} {s : LoweringState} {present : BlockId → Prop}
    (hf : Filled x h present s.blocks) (hopen : Unended x h (x.schedule.blockOf n)) (t : Terminator) :
    ∃ s', terminate x n t s = .ok ⟨⟩ s' := by
  have hlookup := (hf.ensure (x.schedule.blockOf n)).lookup (.inr rfl)
  have hrender : render x h (x.schedule.blockOf n) =
      ⟨(render x h (x.schedule.blockOf n)).label, (render x h (x.schedule.blockOf n)).phis,
        (render x h (x.schedule.blockOf n)).instructions, none⟩ := by
    rw [← hopen.render]
  rw [terminate, Steps.bind_of_ok (discover_apply _ _), Steps.bind_of_ok (Steps.get_apply _)]
  dsimp only
  rw [hlookup, hrender]
  exact ⟨_, modifyBlock_apply _ _ _⟩

theorem Closes.terminate (targets : List BlockId) {t : Terminator} {m : LowerM Unit}
    (hm : ∀ s, m s = Lowering.terminate x n t { s with blocks := ensureAll targets s.blocks }) :
    Closes x (x.schedule.blockOf n) m := by
  intro h s e s' hr hopen he
  obtain ⟨s₁, hok⟩ := terminate_of_unended (s := { s with blocks := ensureAll targets s.blocks })
    (hr.blocks.ensureAll targets).1 hopen t
  rw [hm, hok] at he
  cases he

theorem lowerTerminator_closes (hg : x.graph.WellFormed) (hlowers : LowersValues x lower)
    (hlower : ∀ i, Orderly (lower i)) {t : TerminatorNode} (hk : x.graph.kind? n = some (.terminator t)) :
    Closes x (x.schedule.blockOf n) (lowerTerminator x lower n t) := by
  have heffects : Prepares x (lowerEffects x lower t.dependency) := .effects hg hlowers hlower hk rfl
  have hoperand := Prepares.operand hlowers hlower
  cases t with
  | goto target dependency =>
      exact heffects.bind fun _ => .terminate [target] fun s => Steps.bind_of_ok (discover_apply _ _) _
  | branch cond ifTrue ifFalse dependency =>
      exact heffects.bind fun _ => (hoperand cond).bind fun _ => .terminate [ifTrue, ifFalse] fun s =>
        (Steps.bind_of_ok (discover_apply _ _) _).trans (Steps.bind_of_ok (discover_apply _ _) _)
  | ret value dependency =>
      cases value with
      | none => exact heffects.bind fun _ => .terminate [] fun s => rfl
      | some value =>
          exact heffects.bind fun _ => (Prepares.operandType value).bind fun _ => (hoperand value).bind fun _ =>
            .terminate [] fun s => rfl
  | unreachable dependency => exact heffects.bind fun _ => .terminate [] fun s => rfl
  | throw value handler dependency => exact (Prepares.report n _).bind fun _ => .terminate [] fun s => rfl

theorem lowerBlock_closes (hg : x.graph.WellFormed)
    (hpinned : ∀ m c, x.graph.pinned? m = some c → x.schedule.blockOf m = c) (hlowers : LowersValues x lower)
    (hlower : ∀ i, Orderly (lower i)) (b : BlockId) : Closes x b (lowerBlock x lower b) := by
  intro h s e s' hr hopen he
  rcases Steps.bind_eq_error.1 he with he | ⟨n, t, hn, hend⟩
  · exact Orderly.ofExcept (x.graph.terminator_refuses b) s e s' he
  · obtain ⟨hterm, rfl⟩ := ofExcept_eq_ok.1 hn
    obtain ⟨y, t, hy, hkind, hb⟩ := Graph.terminator_eq_ok hg hterm
    have hk : x.graph.kind? n = some (.terminator t) := hkind ▸ Graph.kind?_of_getElem? hy
    have hblock : x.schedule.blockOf n = b := hpinned n b ((Graph.pinned?_of_getElem? hy).trans hb)
    rw [hk] at hend
    exact lowerTerminator_closes hg hlowers hlower hk h _ e s' hr (hblock ▸ hopen) hend

theorem lowerBlocks_error (hg : x.graph.WellFormed)
    (hpinned : ∀ m c, x.graph.pinned? m = some c → x.schedule.blockOf m = c) (hlowers : LowersValues x lower)
    (hlower : ∀ i, Orderly (lower i)) {index blocks : Nat} {h : List Event} {s s' : LoweringState} {e : Error}
    (hr : Reflects x h s) (hopen : ∀ b, b ∉ (keys s.blocks).take index → Unended x h b)
    (he : lowerBlocks x lower index blocks s = .error e s') : e.IsRefusal ∨ e.IsDepth := by
  induction blocks generalizing h s index with
  | zero => cases he
  | succ blocks ih =>
      rw [lowerBlocks, Steps.bind_of_ok (Steps.get_apply s)] at he
      cases hi : s.blocks[index]? with
      | none =>
          rw [hi] at he
          cases he
      | some p =>
          obtain ⟨b, block⟩ := p
          rw [hi] at he
          have hkey : (keys s.blocks)[index]? = some b := by
            rw [keys, List.getElem?_map, hi]
            rfl
          obtain ⟨hlt, hget⟩ := List.getElem?_eq_some_iff.1 hkey
          rcases Steps.bind_eq_error.1 he with he | ⟨⟨⟩, s₁, hblock, he⟩
          · refine lowerBlock_closes hg hpinned hlowers hlower b h s e s' hr (hopen b fun hmem => ?_) he
            obtain ⟨i, hi, hib⟩ := List.mem_take_iff_getElem.1 hmem
            have heq := (List.Nodup.getElem_inj_iff hr.blocks.nodup).1 (hib.trans hget.symm)
            omega
          · obtain ⟨w, hd, hcons⟩ := lowerBlock_eq_ok hlowers hr (List.mem_of_getElem? hkey) hblock
            have hl : LowersBlocks x h [b] w := by simpa using hcons [] [] .nil
            refine ih hd.reflects (fun c hc m targets t hmem => ?_) he
            obtain ⟨more, hmore⟩ := hd.grows
            rw [← hmore, List.take_append_of_le_length hlt, List.take_add_one, hkey, Option.toList_some,
              List.mem_append, List.mem_singleton, not_or] at hc
            rcases List.mem_append.1 hmem with hmem | hmem
            · exact hopen c hc.1 m targets t hmem
            · obtain ⟨b', hb', hterm⟩ := hl.terminator_of_mem hmem
              rw [List.mem_singleton.1 hb'] at hterm
              obtain ⟨y, u, hy, -, hb⟩ := Graph.terminator_eq_ok hg hterm
              rw [hpinned m b ((Graph.pinned?_of_getElem? hy).trans hb)]
              exact fun heq => hc.2 heq.symm

theorem lowerGraph_error (hg : x.graph.WellFormed)
    (hpinned : ∀ m c, x.graph.pinned? m = some c → x.schedule.blockOf m = c) {e : Emission} {s' : LoweringState}
    {err : Error} (he : lowerGraph x { emission := e, nextLocal := x.graph.method.functionType.params.length } =
      .error err s') : err.IsRefusal ∨ err.IsDepth := by
  rw [lowerGraph, Steps.bind_of_ok (discover_apply _ _)] at he
  refine lowerBlocks_error hg hpinned (lowerValue_lowers x _) (lowerValue_orderly hg _) (reflects_start x e) ?_ he
  rintro b - m targets t ⟨⟩

end Lowering

open Lowering

theorem lowerMethod_error {g : Graph} (hg : g.WellFormed) (hends : ∀ c ∈ g.reachable, ∃ n, g.terminator c = .ok n)
    {e e' : Emission} {err : Error} (he : lowerMethod g e = .error err e') : err.IsRefusal := by
  obtain ⟨s₀, hstart⟩ := Schedule.exists_start_eq_ok hg hends
  obtain ⟨s, hs⟩ : ∃ s, Schedule.compute g = .ok s := ⟨_, Steps.except_bind_eq_ok.2 ⟨s₀, hstart, rfl⟩⟩
  have hspec := Schedule.compute_spec hg hs
  cases hsignature : g.method.functionType.target with
  | error err' =>
      simp only [lowerMethod, hsignature] at he
      cases he
      exact g.method.functionType.target_refuses err hsignature
  | ok signature =>
      simp only [lowerMethod, hsignature, hs] at he
      split at he
      · cases he
      · rename_i err' s' hgraph
        cases he
        have hregisters : Registers g [] { emission := e, nextLocal := signature.params.length } :=
          ⟨by simp, List.nodup_nil, by simp [keys]⟩
        have hsteady := lowerGraph_steady (x := ⟨g, s⟩) hg (hspec.blockOf_lt hg) hspec.reachable (Nat.le_refl _)
          (Nat.le_refl _)
        have hdepth := hsteady.error _ err s' hregisters hgraph
        rw [length_params_target hsignature] at hgraph
        exact (lowerGraph_error (x := ⟨g, s⟩) hg (fun m c => hspec.blockOf_of_pinned) hgraph).resolve_right hdepth

namespace Builder

/-- What holds of a builder at every stage. -/
structure Invariant (b : Builder) : Prop where
  /-- Nodes read older nodes. -/
  inputs : ∀ n, ∀ i ∈ b.graph.inputs n, i < n
  /-- What flows into a phi is there, and may be newer than the phi. -/
  incoming : ∀ (t : PhiId) p, b.graph.phis[t]? = some p → ∀ e ∈ p.incoming, e.2 < b.graph.nodes.size
  /-- There is one node for a pure value. -/
  shared : ∀ n n' v v', b.graph.kind? n = some (.value v) → b.graph.kind? n' = some (.value v') →
    v.op.isPure = true → v'.op.isPure = true → (v == v') = true → n = n'
  /-- A request for a value gets a node for an equal value, and a new one unless the value is pure. -/
  answer : ∀ (r : Request) v, r.value? b = some v → ∃ n b' w, r.answer? b = some (n, b') ∧ r.apply b = .ok b' ∧
    b'.graph.kind? n = some (.value w) ∧ (w == v) = true ∧ (v.op.isPure = false → n = b.graph.nodes.size ∧ w = v)
  /-- Effects and block ends lead back to the entry marker of their block. -/
  anchored : ∀ n d, (b.graph.kind? n).bind (·.dependency?) = some d → b.graph.Anchored n
  /-- Lowering never stops because of how the nodes hang together, nor because it is cut off. -/
  lowered : ∀ g, b.finish = .ok g → ∀ e err e', lowerMethod g e = .error err e' →
    (∀ n shown, err ≠ .internal (.notEffect n shown)) ∧ (∀ c shown, err ≠ .internal (.notTerminator c shown)) ∧
      (∀ label, err ≠ .internal (.terminatedTwice label)) ∧ ∀ n, err ≠ .internal (.loweringDepth n)

/-- Requests for what is there keep a builder in order, whichever they are and in whatever order they come. -/
theorem built_invariant {m : Method} {rs : List Request} (hknown : AllKnown (start m) rs) : (built m rs).Invariant where
  inputs n i hi := (Graph.input_lt (built_sound hknown).graph hi).1
  incoming t p hp e he := ((built_sound hknown).graph.incoming t p hp e he).2
  shared := (built_distinct m rs).pure
  answer _ _ hv := answer_of_value hv
  anchored _ _ hd := Graph.anchored_of_dependency (built_sound hknown).graph (built_distinct m rs) hd
  lowered g hg e err e' he := by
    obtain ⟨rfl, hends⟩ := finish_eq_ok hg
    obtain ⟨f, rfl, hf⟩ := lowerMethod_error (built_sound hknown).graph hends he
    refine ⟨fun n shown heq => ?_, fun c shown heq => ?_, fun label heq => ?_, fun n heq => ?_⟩
    all_goals
      cases heq
      cases hf

end Builder

namespace Example

def doubler : Method := ⟨"zoo/Cell", "double", ⟨[.object "zoo/Cell"], .int⟩, { isStatic := true }, true⟩

/-- A sum is asked for three times, once after the end of its block, and two reads of one place are two nodes. -/
def doubling : List Request :=
  let int : Ty := .integer .signed 4
  [.newBlock "exit", .parameter 0 .reference, .load 2 int .plain, .binary .add 3 3, .goto 1, .binary .add 3 3,
    .begin 1, .binary .add 3 3, .load 2 int .plain, .store 2 6 .plain, .returnValue 4]

theorem built_invariant_of_doubling : ∃ g, (Builder.built doubler doubling).finish = .ok g ∧ g.nodes.size = 9 ∧
    g.kind? 4 = some (.value ⟨.integer .signed 4, .binary .add 3 3⟩) ∧
    (∀ n v, g.kind? n = some (.value v) → v.op.isPure = true →
      (v == ⟨.integer .signed 4, .binary .add 3 3⟩) = true → n = 4) ∧
    g.effectsTo 7 = [6, 7] ∧ g.Anchored 8 ∧
    ∀ err e, lowerMethod g output = .error err e → err ≠ .internal (.terminatedTwice "b1") := by
  have hfinish : (Builder.built doubler doubling).finish = .ok _ := Builder.finish_of_matches (by cbv)
  have hinvariant := @Builder.built_invariant doubler doubling (by decide +kernel)
  have hsum : (Builder.built doubler doubling).graph.kind? 4 =
      some (.value ⟨.integer .signed 4, .binary .add 3 3⟩) := by cbv
  refine ⟨_, hfinish, by cbv, hsum, fun n v hv hp heq => ?_, by cbv, hinvariant.anchored 8 7 (by cbv),
    fun err e he => ?_⟩
  · exact hinvariant.shared n 4 v _ hv hsum hp rfl heq
  · obtain ⟨-, -, htwice, -⟩ := hinvariant.lowered _ hfinish output err e he
    exact htwice "b1"

end Example

end NativeBackend
