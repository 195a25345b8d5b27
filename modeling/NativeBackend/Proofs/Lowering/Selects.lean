import Mathlib.Data.List.Forall2
import NativeBackend.Lowering.Method
import NativeBackend.Proofs.Graph.Chain
import NativeBackend.Proofs.Lists

namespace NativeBackend

def Instruction.gives (i : Instruction) : Operand :=
  match i.result? with
  | none => .const .undef
  | some l => .ofLocal l

def Instruction.isEffect : Instruction → Bool
  | .load .. | .store .. => true
  | .call _ _ (.const (.symbol name)) _ =>
    name != Routine.lookupVirtual.symbol && name != Routine.lookupInterface.symbol
  | .call .. => true
  | _ => false

namespace Lowering

variable (g : Graph) (R : NodeId → Operand → Prop)

inductive Calls : CallTarget → Operand → Prop where
  | direct {m : Method} : Calls (.direct m) (.global m.symbol)
  | indirect {pointer : NodeId} {signature : FunctionType} {o : Operand} : R pointer o →
      Calls (.indirect pointer signature) o

def Passes (n : NodeId) (arg : IrType × Operand) : Prop :=
  ∃ type, g.valueType n = .ok type ∧ type.target = .ok arg.1 ∧ R n arg.2

/-- `Selects g R n i`: the instruction `i` computes or performs the node `n`, where `R` says what
stands for the nodes that it reads. -/
inductive Selects (n : NodeId) : Instruction → Prop where
  | binary {type operand : Ty} {op : BinaryOp} {lhs rhs : NodeId} {kind : NumericKind}
      {opcode : BinaryOpcode} {t : IrType} {l : Local} {a b : Operand} :
      g.kind? n = some (.value ⟨type, .binary op lhs rhs⟩) → g.valueType lhs = .ok operand →
      operand.kind lhs = .ok kind → op.opcode kind = .ok opcode → operand.target = .ok t →
      R lhs a → R rhs b → Selects n (.binary l opcode t a b)
  | neg {type operand : Ty} {input : NodeId} {kind : NumericKind} {t : IrType} {l : Local} {a : Operand} :
      g.kind? n = some (.value ⟨type, .neg input⟩) → g.valueType input = .ok operand →
      operand.kind input = .ok kind → operand.target = .ok t → R input a →
      Selects n (negInstruction kind l t a)
  | cmp {type operand : Ty} {op : CmpOp} {lhs rhs : NodeId} {kind : NumericKind} {t : IrType} {l : Local}
      {a b : Operand} :
      g.kind? n = some (.value ⟨type, .cmp op lhs rhs⟩) → g.valueType lhs = .ok operand →
      operand.kind lhs = .ok kind → operand.target = .ok t → R lhs a → R rhs b →
      Selects n (op.instruction kind l t a b)
  | conversion {type source : Ty} {op : ConversionOp} {input : NodeId} {opcode : CastOpcode}
      {t u : IrType} {l : Local} {a : Operand} :
      g.kind? n = some (.value ⟨type, .conversion op input⟩) → g.valueType input = .ok source →
      source.target = .ok t → type.target = .ok u → op.opcode input source type = .ok opcode →
      R input a → Selects n (.cast l opcode t a u)
  | select {type : Ty} {cond ifTrue ifFalse : NodeId} {t : IrType} {l : Local} {c a b : Operand} :
      g.kind? n = some (.value ⟨type, .select cond ifTrue ifFalse⟩) → type.target = .ok t →
      R cond c → R ifTrue a → R ifFalse b → Selects n (.select l c t a b)
  | load {type : Ty} {pointer dependency : NodeId} {mode : ReadMode} {t : IrType} {l : Local} {a : Operand} :
      g.kind? n = some (.value ⟨type, .load pointer mode dependency⟩) → type.target = .ok t →
      R pointer a → Selects n (.load l t a mode.access.1 mode.access.2)
  | call {type : Ty} {target : CallTarget} {args : List NodeId} {dependency : NodeId} {t : IrType}
      {result : Option Local} {callee : Operand} {passed : List (IrType × Operand)} :
      g.kind? n = some (.value ⟨type, .call target args dependency⟩) → type.target = .ok t →
      (result = none ↔ t = .void) → Calls R target callee → List.Forall₂ (Passes g R) args passed →
      Selects n (.call result t callee passed)
  | virtualLookup {type : Ty} {receiver : NodeId} {m : Method} {owner : ClassDef} {l : Local}
      {object : Operand} {index : Nat} :
      g.kind? n = some (.value ⟨type, .virtualLookup receiver m owner⟩) → R receiver object →
      Selects n (.call (some l) .ptr (.global Routine.lookupVirtual.symbol)
        [(.ptr, object), (.i32, .int index)])
  | interfaceLookup {type : Ty} {receiver : NodeId} {m : Method} {interface : ClassDef} {l : Local}
      {object : Operand} {index : Nat} :
      g.kind? n = some (.value ⟨type, .interfaceLookup receiver m interface⟩) → R receiver object →
      Selects n (.call (some l) .ptr (.global Routine.lookupInterface.symbol)
        [(.ptr, object), (.i32, .int interface.typeId), (.i32, .int index)])
  | store {pointer value dependency : NodeId} {mode : WriteMode} {type : Ty} {t : IrType} {p v : Operand} :
      g.kind? n = some (.action (.store pointer value mode dependency)) → g.valueType value = .ok type →
      type.target = .ok t → R pointer p → R value v →
      Selects n (.store t v p mode.access.1 mode.access.2)
  | monitorEnter {object dependency : NodeId} {o : Operand} :
      g.kind? n = some (.action (.monitorEnter object dependency)) → R object o →
      Selects n (.call none .void (.global Routine.monitorEnter.symbol) [(.ptr, o)])
  | monitorExit {object dependency : NodeId} {o : Operand} :
      g.kind? n = some (.action (.monitorExit object dependency)) → R object o →
      Selects n (.call none .void (.global Routine.monitorExit.symbol) [(.ptr, o)])

inductive Immediate (n : NodeId) : Operand → Prop where
  | literal {type : Ty} {l : Literal} : g.kind? n = some (.value ⟨type, .literal l⟩) →
      Immediate n (.const (l.constant type))
  | parameter {type : Ty} {index : Nat} : g.kind? n = some (.value ⟨type, .parameter index⟩) →
      index < g.method.functionType.params.length → Immediate n (.ofLocal ⟨index⟩)
  | pointerLiteral {type : Ty} {p : Pointer} {c : Constant} :
      g.kind? n = some (.value ⟨type, .pointerLiteral p⟩) → (∀ name, c ≠ .symbol name) → Immediate n (.const c)
  | catchException {type : Ty} : g.kind? n = some (.value ⟨type, .catchException⟩) →
      Immediate n (.const (.bool false))

inductive Ends : TerminatorNode → Terminator → Prop where
  | goto {target : BlockId} {dependency : NodeId} : Ends (.goto target dependency) (.br (blockLabel target))
  | branch {cond : NodeId} {ifTrue ifFalse : BlockId} {dependency : NodeId} {c : Operand} : R cond c →
      Ends (.branch cond ifTrue ifFalse dependency) (.condBr c (blockLabel ifTrue) (blockLabel ifFalse))
  | retVoid {dependency : NodeId} : Ends (.ret none dependency) (.ret none)
  | ret {value dependency : NodeId} {type : Ty} {t : IrType} {v : Operand} : g.valueType value = .ok type →
      type.target = .ok t → R value v → Ends (.ret (some value) dependency) (.ret (some (t, v)))
  | unreachable {dependency : NodeId} : Ends (.unreachable dependency) .unreachable

variable {g R} {R' : NodeId → Operand → Prop} {n : NodeId} {i : Instruction}

theorem Calls.mono (h : ∀ n o, R n o → R' n o) {target : CallTarget} {o : Operand} (hc : Calls R target o) :
    Calls R' target o := by
  cases hc with
  | direct => exact .direct
  | indirect ho => exact .indirect (h _ _ ho)

theorem Passes.mono (h : ∀ n o, R n o → R' n o) {arg : IrType × Operand} (ha : Passes g R n arg) :
    Passes g R' n arg := by
  obtain ⟨type, htype, htarget, ho⟩ := ha
  exact ⟨type, htype, htarget, h _ _ ho⟩

theorem Immediate.inputs {o : Operand} (ho : Immediate g n o) : g.inputs n = [] := by
  cases ho with
  | literal hk | parameter hk | pointerLiteral hk | catchException hk => exact Graph.inputs_of_kind hk

theorem Immediate.isValue {o : Operand} (ho : Immediate g n o) : g.isValue n = true := by
  cases ho with
  | literal hk | parameter hk | pointerLiteral hk | catchException hk => exact Graph.isValue_iff.2 ⟨_, hk⟩

theorem Selects.mono (h : ∀ n o, R n o → R' n o) (hi : Selects g R n i) : Selects g R' n i := by
  cases hi with
  | binary hk htype hkind hop ht ha hb => exact .binary hk htype hkind hop ht (h _ _ ha) (h _ _ hb)
  | neg hk htype hkind ht ha => exact .neg hk htype hkind ht (h _ _ ha)
  | cmp hk htype hkind ht ha hb => exact .cmp hk htype hkind ht (h _ _ ha) (h _ _ hb)
  | conversion hk htype hsource htarget hop ha => exact .conversion hk htype hsource htarget hop (h _ _ ha)
  | select hk ht hc ha hb => exact .select hk ht (h _ _ hc) (h _ _ ha) (h _ _ hb)
  | load hk ht ha => exact .load hk ht (h _ _ ha)
  | call hk ht hresult hcallee hargs =>
      exact .call hk ht hresult (hcallee.mono h) (hargs.imp fun _ _ ha => ha.mono h)
  | virtualLookup hk ho => exact .virtualLookup hk (h _ _ ho)
  | interfaceLookup hk ho => exact .interfaceLookup hk (h _ _ ho)
  | store hk htype ht hp hv => exact .store hk htype ht (h _ _ hp) (h _ _ hv)
  | monitorEnter hk ho => exact .monitorEnter hk (h _ _ ho)
  | monitorExit hk ho => exact .monitorExit hk (h _ _ ho)

theorem Ends.mono (h : ∀ n o, R n o → R' n o) {t : TerminatorNode} {t' : Terminator} (ht : Ends g R t t') :
    Ends g R' t t' := by
  cases ht with
  | goto => exact .goto
  | branch hc => exact .branch (h _ _ hc)
  | retVoid => exact .retVoid
  | ret htype ht hv => exact .ret htype ht (h _ _ hv)
  | unreachable => exact .unreachable

theorem operands_cmp (op : CmpOp) (kind : NumericKind) (l : Local) (t : IrType) (a b : Operand) :
    (op.instruction kind l t a b).operands = [a, b] := by
  cases kind <;> rfl

theorem operands_neg (kind : NumericKind) (l : Local) (t : IrType) (a : Operand) {o : Operand}
    (ho : o ∈ (negInstruction kind l t a).operands) : o = a ∨ o = .const (.int 0) := by
  cases kind <;> simp_all [negInstruction, Instruction.operands, Operand.int, or_comm]

theorem Selects.operands (hi : Selects g R n i) {o : Operand} (ho : o ∈ i.operands) :
    (∃ m ∈ g.inputs n, R m o) ∨ ∃ c, o = .const c := by
  cases hi with
  | neg hk _ _ _ ha =>
      rw [Graph.inputs_of_kind hk]
      rcases operands_neg _ _ _ _ ho with rfl | rfl
      · exact .inl ⟨_, List.mem_singleton_self _, ha⟩
      · exact .inr ⟨_, rfl⟩
  | cmp hk _ _ _ ha hb =>
      rw [operands_cmp] at ho
      rw [Graph.inputs_of_kind hk]
      refine .inl ?_
      rcases List.mem_cons.1 ho with rfl | ho
      · exact ⟨_, List.mem_cons_self, ha⟩
      · rw [List.mem_singleton.1 ho]
        exact ⟨_, List.mem_cons_of_mem _ List.mem_cons_self, hb⟩
  | @call type target args dependency t result callee passed hk ht hresult hcallee hargs =>
      rw [Graph.inputs_of_kind hk]
      rcases List.mem_cons.1 ho with rfl | ho
      · cases hcallee with
        | direct => exact .inr ⟨_, rfl⟩
        | indirect hp => exact .inl ⟨_, List.mem_cons_of_mem _ List.mem_cons_self, hp⟩
      · obtain ⟨arg, harg, rfl⟩ := List.mem_map.1 ho
        obtain ⟨m, hm, -, -, -, hr⟩ := Lists.exists_of_mem_right hargs harg
        refine .inl ⟨m, ?_, hr⟩
        cases target with
        | direct => exact List.mem_cons_of_mem _ hm
        | indirect => exact List.mem_cons_of_mem _ (List.mem_cons_of_mem _ hm)
  | binary hk | conversion hk | select hk | load hk | virtualLookup hk | interfaceLookup hk | store hk
  | monitorEnter hk | monitorExit hk =>
      rw [Graph.inputs_of_kind hk]
      simp only [Instruction.operands, List.map_cons, List.map_nil, List.mem_cons, List.not_mem_nil,
        or_false] at ho
      simp only [NodeKind.inputs, ValueOp.inputs, ActionNode.inputs, List.mem_cons, List.not_mem_nil,
        or_false, exists_eq_or_imp, exists_eq_left]
      rcases ho with rfl | rfl | rfl | rfl <;> simp_all [Operand.global, Operand.int]

theorem Ends.operands {t : TerminatorNode} {t' : Terminator} (ht : Ends g R t t') {o : Operand}
    (ho : o ∈ t'.operands) : ∃ m ∈ t.inputs, R m o := by
  cases ht with
  | goto | retVoid | unreachable => cases ho
  | branch hc =>
      rw [List.mem_singleton.1 ho]
      exact ⟨_, List.mem_cons_of_mem _ List.mem_cons_self, hc⟩
  | ret _ _ hv =>
      rw [List.mem_singleton.1 ho]
      exact ⟨_, List.mem_cons_of_mem _ List.mem_cons_self, hv⟩

/-- Every input of a node is read by its instruction, but for the effect that comes before. -/
theorem Selects.reads (hi : Selects g R n i) {m : NodeId} (hm : m ∈ g.inputs n) :
    (∃ o, R m o) ∨ (g.kind? n).bind (·.dependency?) = some m := by
  cases hi with
  | @call type target args dependency t result callee passed hk ht hresult hcallee hargs =>
      have hargs' : m ∈ args → ∃ o, R m o := by
        intro hm
        obtain ⟨arg, -, -, -, -, hr⟩ := Lists.exists_of_mem_left hargs hm
        exact ⟨_, hr⟩
      rw [Graph.inputs_of_kind hk] at hm
      rw [hk]
      cases hcallee with
      | direct =>
          rcases List.mem_cons.1 hm with rfl | hm
          · exact .inr rfl
          · exact .inl (hargs' hm)
      | indirect hp =>
          rcases List.mem_cons.1 hm with rfl | hm
          · exact .inr rfl
          · rcases List.mem_cons.1 hm with rfl | hm
            · exact .inl ⟨_, hp⟩
            · exact .inl (hargs' hm)
  | binary hk | neg hk | cmp hk | conversion hk | select hk | load hk | virtualLookup hk | interfaceLookup hk
  | store hk | monitorEnter hk | monitorExit hk =>
      rw [Graph.inputs_of_kind hk] at hm
      simp only [NodeKind.inputs, ValueOp.inputs, ActionNode.inputs, List.mem_cons, List.not_mem_nil,
        or_false] at hm
      rw [hk]
      rcases hm with rfl | rfl | rfl | rfl <;>
        first
        | exact .inr rfl
        | exact .inl ⟨_, by assumption⟩

theorem Ends.reads {t : TerminatorNode} {t' : Terminator} (ht : Ends g R t t') {m : NodeId}
    (hm : m ∈ t.inputs) : (∃ o, R m o) ∨ t.dependency = m := by
  cases ht with
  | goto | retVoid | unreachable => exact .inr (List.mem_singleton.1 hm).symm
  | branch hc =>
      rcases List.mem_cons.1 hm with rfl | hm
      · exact .inr rfl
      · rw [List.mem_singleton.1 hm]
        exact .inl ⟨_, hc⟩
  | ret _ _ hv =>
      rcases List.mem_cons.1 hm with rfl | hm
      · exact .inr rfl
      · rw [List.mem_singleton.1 hm]
        exact .inl ⟨_, hv⟩

theorem Ends.labels {t : TerminatorNode} {t' : Terminator} (ht : Ends g R t t') :
    t'.labels = t.successors.map blockLabel := by
  cases ht <;> rfl

end Lowering

end NativeBackend
