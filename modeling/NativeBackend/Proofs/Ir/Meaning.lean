import NativeBackend.Proofs.Ir.Ssa

namespace NativeBackend

inductive Next (σ V : Type) where
  | goes (state : σ)
  | returns (value : Option V)

/-- The places that a run comes through and, if it ends, what it returns. -/
structure Outcome (β V : Type) where
  visited : List β
  returned : Option (Option V)

section

variable {σ τ β γ V : Type}

namespace Outcome

def after (b : β) (o : Outcome β V) : Outcome β V := { o with visited := b :: o.visited }

def map (name : β → γ) (o : Outcome β V) : Outcome γ V := ⟨o.visited.map name, o.returned⟩

end Outcome

def runFor (step : σ → Option (Next σ V)) (place : σ → β) : Nat → σ → Option (Outcome β V)
  | 0, s => some ⟨[place s], none⟩
  | k + 1, s =>
    match step s with
    | some (.goes s') => (runFor step place k s').map (.after (place s))
    | some (.returns v) => some ⟨[place s], some v⟩
    | none => none

inductive Next.Related (R : σ → τ → Prop) : Option (Next σ V) → Option (Next τ V) → Prop where
  | goes {s : σ} {t : τ} : R s t → Related R (some (.goes s)) (some (.goes t))
  | returns {v : Option V} : Related R (some (.returns v)) (some (.returns v))

/-- When related states stay related, runs go the same way and do not get stuck. -/
theorem runFor_simulates {R : σ → τ → Prop} {step : σ → Option (Next σ V)} {step' : τ → Option (Next τ V)}
    {place : σ → β} {place' : τ → γ} {name : β → γ} (hplace : ∀ s t, R s t → place' t = name (place s))
    (hstep : ∀ s t, R s t → Next.Related R (step s) (step' t)) (k : Nat) {s : σ} {t : τ} (h : R s t) :
    ∃ o, runFor step place k s = some o ∧ runFor step' place' k t = some (o.map name) := by
  induction k generalizing s t with
  | zero => exact ⟨_, rfl, by simp [runFor, Outcome.map, hplace s t h]⟩
  | succ k ih =>
      have hnext := hstep s t h
      generalize hs : step s = next, ht : step' t = next' at hnext
      cases hnext with
      | @goes s' t' h' =>
          obtain ⟨o, ho, ho'⟩ := ih h'
          refine ⟨o.after (place s), ?_, ?_⟩
          · simp only [runFor, hs, ho, Option.map_some]
          · simp only [runFor, ht, ho', Option.map_some, hplace s t h]
            rfl
      | @returns v =>
          refine ⟨⟨[place s], some v⟩, ?_, ?_⟩
          · simp only [runFor, hs]
          · simp only [runFor, ht, hplace s t h]
            rfl

end

structure Interpretation (V : Type) where
  const : Constant → V
  binary : BinaryOpcode → IrType → V → V → V
  fneg : IrType → V → V
  icmp : IntPredicate → IrType → V → V → V
  fcmp : FloatPredicate → IrType → V → V → V
  cast : CastOpcode → IrType → IrType → V → V
  select : IrType → V → V → V → V
  holds : V → Bool

abbrev Locals (V : Type) := Local → Option V

variable {V : Type}

def Locals.set (env : Locals V) (l : Local) (v : V) : Locals V := fun m => if m = l then some v else env m

@[simp]
theorem Locals.set_self (env : Locals V) (l : Local) (v : V) : env.set l v l = some v := if_pos rfl

theorem Locals.set_of_ne (env : Locals V) {l m : Local} (v : V) (h : m ≠ l) : env.set l v m = env m := if_neg h

namespace Interpretation

variable (I : Interpretation V)

def read (env : Locals V) : Operand → Option V
  | .ofLocal l => env l
  | .const c => some (I.const c)

@[simp]
theorem read_int (env : Locals V) (k : Int) : I.read env (.int k) = some (I.const (.int k)) := rfl

def value (env : Locals V) : Instruction → Option V
  | .binary _ opcode t a b => return I.binary opcode t (← I.read env a) (← I.read env b)
  | .fneg _ t a => return I.fneg t (← I.read env a)
  | .icmp _ predicate t a b => return I.icmp predicate t (← I.read env a) (← I.read env b)
  | .fcmp _ predicate t a b => return I.fcmp predicate t (← I.read env a) (← I.read env b)
  | .cast _ opcode t a u => return I.cast opcode t u (← I.read env a)
  | .select _ c t a b => return I.select t (← I.read env c) (← I.read env a) (← I.read env b)
  | .load .. | .store .. | .call .. => none

def execute (env : Locals V) (i : Instruction) : Option (Locals V) :=
  return env.set (← i.result?) (← I.value env i)

end Interpretation

def Phi.incomingFrom? (p : Phi) (label : String) : Option Operand :=
  (p.incoming.find? (·.2 == label)).map (·.1)

namespace Function

def block? (f : Function) (label : String) : Option BasicBlock := f.blocks.find? (·.label == label)

variable (f : Function) (I : Interpretation V)

def phiValue (env : Locals V) (source : String) (p : Phi) : Option V :=
  (p.incomingFrom? source).bind (I.read env)

/-- The phis of a block take their values, all at once; other locals keep theirs. -/
def merge (env : Locals V) (source : String) (b : BasicBlock) : Locals V := fun l =>
  match b.phis.find? (·.result == l) with
  | some p => phiValue I env source p
  | none => env l

def enter (env : Locals V) (source target : String) : Option (Next (String × Locals V) V) := do
  let block ← f.block? target
  if block.phis.all fun p => (phiValue I env source p).isSome then
    return .goes (target, merge I env source block)
  else none

def leave (env : Locals V) (source : String) : Terminator → Option (Next (String × Locals V) V)
  | .br target => f.enter I env source target
  | .condBr cond ifTrue ifFalse => do
    let c ← I.read env cond
    f.enter I env source (if I.holds c then ifTrue else ifFalse)
  | .ret none => return .returns none
  | .ret (some (_, value)) => return .returns (some (← I.read env value))
  | .unreachable => none

def step (s : String × Locals V) : Option (Next (String × Locals V) V) := do
  let block ← f.block? s.1
  let env ← block.instructions.foldlM I.execute s.2
  f.leave I env s.1 (← block.terminator)

def run (args : List V) (k : Nat) : Option (Outcome String V) :=
  runFor (f.step I) (·.1) k (f.entryLabel, fun l => args[l.index]?)

end Function

end NativeBackend
