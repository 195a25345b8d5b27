import NativeBackend.Lowering.Select
import NativeBackend.Proofs.Graph.Needs
import NativeBackend.Proofs.Ir.Meaning
import NativeBackend.Types.Target

namespace NativeBackend

def ValueOp.isArithmetic : ValueOp → Bool
  | .literal _ | .parameter _ | .binary .. | .neg _ | .cmp .. | .conversion .. | .select .. | .phi _ => true
  | _ => false

def TerminatorNode.isTransfer : TerminatorNode → Bool
  | .goto .. | .branch .. | .ret .. => true
  | _ => false

namespace Graph

/-- Nothing but arithmetic and control flow is needed. -/
structure Pure (g : Graph) : Prop where
  values : ∀ n v, g.Needed n → g.kind? n = some (.value v) → v.op.isArithmetic = true
  actions : ∀ n a, g.Needed n → g.kind? n = some (.action a) → ∃ b, a = .blockEntry b
  terminators : ∀ n t, g.Needed n → g.kind? n = some (.terminator t) → t.isTransfer = true

def isPure (g : Graph) : Bool :=
  g.nodes.all fun x =>
    match x.kind with
    | .value v => v.op.isArithmetic
    | .action (.blockEntry _) => true
    | .action _ => false
    | .terminator t => t.isTransfer

theorem pure_of_isPure {g : Graph} (hpure : g.isPure = true) : g.Pure := by
  have hnode : ∀ {n k}, g.kind? n = some k → (match k with
      | .value v => v.op.isArithmetic
      | .action (.blockEntry _) => true
      | .action _ => false
      | .terminator t => t.isTransfer) = true := by
    intro n k hk
    obtain ⟨x, hx, rfl⟩ := Option.map_eq_some_iff.1 hk
    obtain ⟨hlt, rfl⟩ := Array.getElem?_eq_some_iff.1 hx
    exact Array.all_eq_true.1 hpure n hlt
  refine ⟨fun n v _ hk => hnode hk, fun n a _ hk => ?_, fun n t _ hk => hnode hk⟩
  cases a with
  | blockEntry b => exact ⟨b, rfl⟩
  | store | monitorEnter | monitorExit => cases hnode hk

/-- Phis stand where control comes in, take a value whichever way it comes, and dominate their uses. -/
structure PhisMerge (g : Graph) : Prop where
  entry : ∀ n p, g.phi? n = some p → g.pinned? n ≠ some g.entry
  incoming : ∀ n p b c, g.phi? n = some p → g.pinned? n = some c → g.Reaches b → c ∈ g.successors b →
    (p.incomingFrom? b).isSome = true
  dominate : ∀ n p b c, g.phi? n = some p → g.pinned? n = some b → g.UsedIn n c → g.Reaches c →
    g.Dominates b c

def mergesPhis (g : Graph) : Bool :=
  (List.range g.nodes.size).all fun n => (g.phi? n).all fun p =>
    g.pinned? n != some g.entry && g.reachable.all fun b => (g.successors b).all fun c =>
      g.pinned? n != some c || (p.incomingFrom? b).isSome

theorem phisMerge_of_mergesPhis {g : Graph} (h : g.WellFormed) (hpinned : g.PinnedDominateUses)
    (hmerges : g.mergesPhis = true) : g.PhisMerge := by
  have hphi : ∀ {n p}, g.phi? n = some p → (g.pinned? n != some g.entry) = true ∧
      ∀ b ∈ g.reachable,
        ((g.successors b).all fun c => g.pinned? n != some c || (p.incomingFrom? b).isSome) = true := by
    intro n p hp
    obtain ⟨type, t, hk, -⟩ := phi?_eq_some hp
    obtain ⟨x, hx, -⟩ := Option.map_eq_some_iff.1 hk
    have hn := List.all_eq_true.1 hmerges n (List.mem_range.2 (Array.getElem?_eq_some_iff.1 hx).1)
    rw [hp, Option.all_some, Bool.and_eq_true, List.all_eq_true] at hn
    exact hn
  refine ⟨fun n p hp => bne_iff_ne.1 (hphi hp).1, ?_, ?_⟩
  · intro n p b c hp hb hreach hc
    have hall := List.all_eq_true.1 ((hphi hp).2 b ((mem_reachable h).2 hreach)) c hc
    rw [hb, bne_self_eq_false, Bool.false_or] at hall
    exact hall
  · intro n p b c hp hb huse hc
    obtain ⟨type, t, hk, -⟩ := phi?_eq_some hp
    exact hpinned n _ b c hk hb huse hc

variable {V : Type} (g : Graph) (I : Interpretation V) (args : List V)

/-- What a node gives from the values of the phis and of its inputs. The kind of the operands selects the
opcode. -/
def compute (φ value : NodeId → Option V) (n : NodeId) : Option V :=
  match g.kind? n with
  | some (.value ⟨type, op⟩) =>
    match op with
    | .literal l => return I.const (l.constant type)
    | .parameter i => args[i]?
    | .phi _ => φ n
    | .binary op lhs rhs => do
      let operand ← (g.valueType lhs).toOption
      let opcode ← (op.opcode (← (operand.kind lhs).toOption)).toOption
      return I.binary opcode (← operand.target.toOption) (← value lhs) (← value rhs)
    | .neg input => do
      let operand ← (g.valueType input).toOption
      let t ← operand.target.toOption
      let v ← value input
      match ← (operand.kind input).toOption with
      | .float => return I.fneg t v
      | .signed | .unsigned => return I.binary .sub t (I.const (.int 0)) v
    | .cmp op lhs rhs => do
      let operand ← (g.valueType lhs).toOption
      let t ← operand.target.toOption
      let v ← value lhs
      let w ← value rhs
      match ← (operand.kind lhs).toOption with
      | .float => return I.fcmp op.floatPredicate t v w
      | .signed => return I.icmp op.signedPredicate t v w
      | .unsigned => return I.icmp op.unsignedPredicate t v w
    | .conversion op input => do
      let source ← (g.valueType input).toOption
      let opcode ← (op.opcode input source type).toOption
      return I.cast opcode (← source.target.toOption) (← type.target.toOption) (← value input)
    | .select cond ifTrue ifFalse =>
      return I.select (← type.target.toOption) (← value cond) (← value ifTrue) (← value ifFalse)
    | _ => none
  | _ => none

def eval (φ : NodeId → Option V) (n : NodeId) : Option V :=
  g.compute I args φ (fun i => if i < n then eval φ i else none) n
termination_by n

/-- Control goes from a block to another: the phis there take their values, all at once. -/
def enter (φ : NodeId → Option V) (b c : BlockId) (n : NodeId) : Option V :=
  match g.phi? n with
  | some p => if g.pinned? n = some c then (p.incomingFrom? b).bind (g.eval I args φ) else φ n
  | none => φ n

def step (s : BlockId × (NodeId → Option V)) : Option (Next (BlockId × (NodeId → Option V)) V) :=
  match (g.terminator s.1).toOption.bind g.kind? with
  | some (.terminator (.goto target _)) => some (.goes (target, g.enter I args s.2 s.1 target))
  | some (.terminator (.branch cond ifTrue ifFalse _)) => do
    let target := if I.holds (← g.eval I args s.2 cond) then ifTrue else ifFalse
    return .goes (target, g.enter I args s.2 s.1 target)
  | some (.terminator (.ret none _)) => some (.returns none)
  | some (.terminator (.ret (some value) _)) => return .returns (some (← g.eval I args s.2 value))
  | _ => none

def run (k : Nat) : Option (Outcome BlockId V) := runFor (g.step I args) (·.1) k (g.entry, fun _ => none)

variable {g I args} {φ φ' value value' : NodeId → Option V} {n : NodeId}

@[simp]
theorem toOption_ok {ε α : Type} (a : α) : (Except.ok a : Except ε α).toOption = some a := rfl

theorem compute_congr (hφ : φ n = φ' n) (hvalue : ∀ i ∈ g.inputs n, value i = value' i) :
    g.compute I args φ value n = g.compute I args φ' value' n := by
  rw [compute, compute]
  cases hk : g.kind? n with
  | none => rfl
  | some k =>
      cases k with
      | action | terminator => rfl
      | value v =>
          obtain ⟨type, op⟩ := v
          rw [inputs_of_kind hk] at hvalue
          cases op with
          | literal | parameter | pointerLiteral | load | call | virtualLookup | interfaceLookup
          | catchException => rfl
          | phi => exact hφ
          | binary op lhs rhs | cmp op lhs rhs =>
              have hl : value lhs = value' lhs := hvalue lhs (by simp [NodeKind.inputs, ValueOp.inputs])
              have hr : value rhs = value' rhs := hvalue rhs (by simp [NodeKind.inputs, ValueOp.inputs])
              simp only [hl, hr]
          | neg input | conversion op input =>
              have hi : value input = value' input := hvalue input (by simp [NodeKind.inputs, ValueOp.inputs])
              simp only [hi]
          | select c a b =>
              have hc : value c = value' c := hvalue c (by simp [NodeKind.inputs, ValueOp.inputs])
              have ha : value a = value' a := hvalue a (by simp [NodeKind.inputs, ValueOp.inputs])
              have hb : value b = value' b := hvalue b (by simp [NodeKind.inputs, ValueOp.inputs])
              simp only [hc, ha, hb]

/-- In a graph as it is built, inputs come before their users. -/
theorem eval_eq (h : g.WellFormed) : g.eval I args φ n = g.compute I args φ (g.eval I args φ) n := by
  rw [eval]
  refine compute_congr rfl fun i hi => ?_
  exact if_pos (input_lt h hi).1

theorem eval_literal (h : g.WellFormed) {type : Ty} {l : Literal}
    (hk : g.kind? n = some (.value ⟨type, .literal l⟩)) :
    g.eval I args φ n = some (I.const (l.constant type)) := by
  rw [eval_eq h, compute, hk]
  rfl

theorem eval_parameter (h : g.WellFormed) {type : Ty} {i : Nat}
    (hk : g.kind? n = some (.value ⟨type, .parameter i⟩)) : g.eval I args φ n = args[i]? := by
  rw [eval_eq h, compute, hk]

theorem eval_phi (h : g.WellFormed) {type : Ty} {table : PhiId}
    (hk : g.kind? n = some (.value ⟨type, .phi table⟩)) : g.eval I args φ n = φ n := by
  rw [eval_eq h, compute, hk]

theorem eval_congr (h : g.WellFormed) {P : NodeId → Prop} (hinputs : ∀ n, P n → ∀ i ∈ g.inputs n, P i)
    (hφ : ∀ n, P n → φ n = φ' n) (hn : P n) : g.eval I args φ n = g.eval I args φ' n := by
  induction n using Nat.strongRecOn with
  | ind n ih =>
      rw [eval_eq h, eval_eq h]
      refine compute_congr (hφ n hn) fun i hi => ?_
      exact ih i (input_lt h hi).1 (hinputs n hn i hi)

end Graph

end NativeBackend
