import NativeBackend.Proofs.Lowering.Selects

namespace NativeBackend.Lowering

/-- What lowering does, one thing after another: it reaches an entry marker, finds a value that needs no
instruction, emits an instruction, starts a phi, adds to one, or ends a block. -/
inductive Event where
  | entered (n : NodeId)
  | bound (n : NodeId) (o : Operand)
  | computed (n : NodeId) (i : Instruction)
  | performed (n : NodeId) (i : Instruction)
  | phi (n : NodeId) (l : Local) (type : IrType)
  | incoming (n : NodeId) (predecessor : BlockId) (o : Operand)
  | terminated (n : NodeId) (targets : List BlockId) (t : Terminator)

namespace Event

def operand? : Event → Option (NodeId × Operand)
  | bound n o => some (n, o)
  | computed n i => some (n, i.gives)
  | phi n l _ => some (n, .ofLocal l)
  | _ => none

def effect? : Event → Option NodeId
  | entered n | performed n _ => some n
  | _ => none

def local? : Event → Option Local
  | computed _ i | performed _ i => i.result?
  | phi _ l _ => some l
  | _ => none

def phi? : Event → Option NodeId
  | phi n _ _ => some n
  | _ => none

variable (x : LoweringInput)

def blocks : Event → List BlockId
  | computed n _ | performed n _ | phi n _ _ => [x.schedule.blockOf n]
  | incoming _ predecessor _ => [predecessor]
  | terminated n targets _ => x.schedule.blockOf n :: targets
  | _ => []

def phiAt (b : BlockId) : Event → Option (NodeId × Local × IrType)
  | phi n l type => if x.schedule.blockOf n = b then some (n, l, type) else none
  | _ => none

def contribution (n : NodeId) : Event → Option (Operand × String)
  | incoming m predecessor o => if m = n then some (o, blockLabel predecessor) else none
  | _ => none

def instructionAt (b : BlockId) : Event → Option Instruction
  | computed n i | performed n i => if x.schedule.blockOf n = b then some i else none
  | _ => none

def terminatorAt (b : BlockId) : Event → Option Terminator
  | terminated n _ t => if x.schedule.blockOf n = b then some t else none
  | _ => none

end Event

def Bound (h : List Event) (n : NodeId) (o : Operand) : Prop := ∃ e ∈ h, e.operand? = some (n, o)

def Done (h : List Event) (n : NodeId) : Prop := (∃ e ∈ h, e.effect? = some n) ∨ ∃ o, Bound h n o

theorem Bound.append {h : List Event} {n : NodeId} {o : Operand} (hb : Bound h n o) (w : List Event) :
    Bound (h ++ w) n o := by
  obtain ⟨e, he, heq⟩ := hb
  exact ⟨e, List.mem_append_left _ he, heq⟩

theorem Done.append {h : List Event} {n : NodeId} (hd : Done h n) (w : List Event) : Done (h ++ w) n := by
  rcases hd with ⟨e, he, heq⟩ | ⟨o, ho⟩
  · exact .inl ⟨e, List.mem_append_left _ he, heq⟩
  · exact .inr ⟨o, ho.append w⟩

theorem Bound.done {h : List Event} {n : NodeId} {o : Operand} (hb : Bound h n o) : Done h n := .inr ⟨o, hb⟩

theorem bound_append {h w : List Event} {n : NodeId} {o : Operand} :
    Bound (h ++ w) n o ↔ Bound h n o ∨ Bound w n o := by
  simp only [Bound, List.mem_append, or_and_right, exists_or]

theorem bound_singleton {e : Event} {n : NodeId} {o : Operand} :
    Bound [e] n o ↔ e.operand? = some (n, o) := by
  simp only [Bound, List.mem_singleton, exists_eq_left]

section

variable (x : LoweringInput)

def render (h : List Event) (b : BlockId) : BasicBlock where
  label := blockLabel b
  phis := (h.filterMap (Event.phiAt x b)).map fun (n, l, type) => ⟨l, type, h.filterMap (Event.contribution n)⟩
  instructions := h.filterMap (Event.instructionAt x b)
  terminator := h.findSome? (Event.terminatorAt x b)

/-- An event that emits an instruction for a node whose inputs are done. Pure values are looked up once
more before. -/
inductive Emits (h : List Event) (n : NodeId) : Event → Prop where
  | value {v : ValueNode} {i : Instruction} : x.graph.kind? n = some (.value v) →
      (v.op.isPure = true → ¬ Done h n) → Selects x.graph (Bound h) n i → Emits h n (.computed n i)
  | action {a : ActionNode} {i : Instruction} : x.graph.kind? n = some (.action a) →
      Selects x.graph (Bound h) n i → Emits h n (.performed n i)

inductive Task where
  | need (n : NodeId)
  | incoming (n : NodeId) (predecessor : BlockId) (value : NodeId)

def phiTasks (n : NodeId) : List Task :=
  (x.graph.phiInputs x.schedule.reachable n).map fun (predecessor, value) => .incoming n predecessor value

/-- `Lowers x h tasks w`: after the events `h`, working off the tasks adds the events `w`. -/
inductive Lowers : List Event → List Task → List Event → Prop where
  | nil {h : List Event} : Lowers h [] []
  | known {h w : List Event} {n : NodeId} {ts : List Task} : Done h n → Lowers h ts w →
      Lowers h (.need n :: ts) w
  | entered {h w : List Event} {n : NodeId} {b : BlockId} {ts : List Task} : ¬ Done h n →
      x.graph.kind? n = some (.action (.blockEntry b)) → Lowers (h ++ [.entered n]) ts w →
      Lowers h (.need n :: ts) (.entered n :: w)
  | bound {h w : List Event} {n : NodeId} {o : Operand} {ts : List Task} : ¬ Done h n →
      Immediate x.graph n o → Lowers (h ++ [.bound n o]) ts w → Lowers h (.need n :: ts) (.bound n o :: w)
  | emit {h w w' : List Event} {n : NodeId} {e : Event} {ts : List Task} : ¬ Done h n →
      Lowers h ((x.graph.inputs n).map .need) w → Emits x (h ++ w) n e → Lowers (h ++ w ++ [e]) ts w' →
      Lowers h (.need n :: ts) (w ++ e :: w')
  | late {h w w' : List Event} {n : NodeId} {inputs : List NodeId} {ts : List Task} : ¬ Done h n →
      inputs <+: x.graph.inputs n → (x.graph.isEffect n = true → inputs.length ≤ 1) →
      Lowers h (inputs.map .need) w → Done (h ++ w) n → Lowers (h ++ w) ts w' → Lowers h (.need n :: ts) (w ++ w')
  | phi {h w w' : List Event} {n : NodeId} {table : PhiId} {type : Ty} {t : IrType} {l : Local}
      {ts : List Task} : ¬ Done h n → x.graph.kind? n = some (.value ⟨type, .phi table⟩) →
      type.target = .ok t → Lowers (h ++ [.phi n l t]) (phiTasks x n) w →
      Lowers (h ++ .phi n l t :: w) ts w' → Lowers h (.need n :: ts) (.phi n l t :: w ++ w')
  | incoming {h w w' : List Event} {n v : NodeId} {predecessor : BlockId} {o : Operand} {ts : List Task} :
      (predecessor, v) ∈ x.graph.phiInputs x.schedule.reachable n → Lowers h [.need v] w →
      Bound (h ++ w) v o → Lowers (h ++ w ++ [.incoming n predecessor o]) ts w' →
      Lowers h (.incoming n predecessor v :: ts) (w ++ .incoming n predecessor o :: w')

end

variable {x : LoweringInput} {h h' w w' : List Event} {ts ts' : List Task} {n : NodeId}

theorem Lowers.append (hl : Lowers x h ts w) (hl' : Lowers x (h ++ w) ts' w') :
    Lowers x h (ts ++ ts') (w ++ w') := by
  induction hl with
  | nil => simpa using hl'
  | known hd _ ih => exact .known hd (ih hl')
  | entered hn hk _ ih => exact .entered hn hk (ih (by simpa using hl'))
  | bound hn ho _ ih => exact .bound hn ho (ih (by simpa using hl'))
  | emit hn hin he _ _ ih =>
      rw [List.append_assoc, List.cons_append]
      exact .emit hn hin he (ih (by simpa using hl'))
  | late hn hpre hlen hin hd _ _ ih =>
      rw [List.append_assoc]
      exact .late hn hpre hlen hin hd (ih (by simpa using hl'))
  | phi hn hk ht hin _ _ ih =>
      rw [List.append_assoc]
      exact .phi hn hk ht hin (ih (by simpa using hl'))
  | incoming hv hin ho _ _ ih =>
      rw [List.append_assoc, List.cons_append]
      exact .incoming hv hin ho (ih (by simpa using hl'))

theorem Emits.done {e : Event} (he : Emits x h n e) (hmem : e ∈ h') : Done h' n := by
  cases he with
  | value => exact .inr ⟨_, _, hmem, rfl⟩
  | action => exact .inl ⟨_, hmem, rfl⟩

theorem Lowers.done (hl : Lowers x h ts w) (hn : .need n ∈ ts) : Done (h ++ w) n := by
  induction hl with
  | nil => cases hn
  | @known h w m ts hd _ ih =>
      rcases List.mem_cons.1 hn with heq | hn
      · cases heq
        exact hd.append w
      · exact ih hn
  | @entered h w m b ts _ _ _ ih =>
      rcases List.mem_cons.1 hn with heq | hn
      · cases heq
        exact .inl ⟨.entered n, by simp, rfl⟩
      · simpa using ih hn
  | @bound h w m o ts _ _ _ ih =>
      rcases List.mem_cons.1 hn with heq | hn
      · cases heq
        exact .inr ⟨o, .bound n o, by simp, rfl⟩
      · simpa using ih hn
  | @emit h w w' m e ts _ _ he _ _ ih =>
      rcases List.mem_cons.1 hn with heq | hn
      · cases heq
        exact he.done (by simp)
      · simpa using ih hn
  | @late h w w' m inputs ts _ _ _ _ hd _ _ ih =>
      rcases List.mem_cons.1 hn with heq | hn
      · cases heq
        simpa using hd.append w'
      · simpa using ih hn
  | @phi h w w' m table type t l ts _ _ _ _ _ _ ih =>
      rcases List.mem_cons.1 hn with heq | hn
      · cases heq
        exact .inr ⟨.ofLocal l, .phi n l t, by simp, rfl⟩
      · simpa using ih hn
  | incoming _ _ _ _ _ ih =>
      rcases List.mem_cons.1 hn with heq | hn
      · cases heq
      · simpa using ih hn

theorem Lowers.eq_nil {ns : List NodeId} (hl : Lowers x h (ns.map .need) w) (hd : ∀ n ∈ ns, Done h n) :
    w = [] := by
  induction ns with
  | nil =>
      cases hl
      rfl
  | cons n ns ih =>
      have hn := hd n List.mem_cons_self
      cases hl with
      | known _ hl => exact ih hl fun m hm => hd m (List.mem_cons_of_mem _ hm)
      | entered hnot | bound hnot | emit hnot | late hnot | phi hnot => exact absurd hn hnot

end NativeBackend.Lowering
