import Mathlib.Data.List.Induction
import NativeBackend.Proofs.Graph.Meaning
import NativeBackend.Proofs.Lowering.Ssa

namespace NativeBackend

namespace Lowering

variable {V : Type} {x : LoweringInput} {h before : List Event} {f : Function} {order : List BlockId}
  {I : Interpretation V} {args : List V} {φ : NodeId → Option V} {env env' : Locals V} {b c : BlockId}
  {n m : NodeId} {l : Local} {o : Operand}

/-- An operand has the value of a node, and there is one. -/
def Agrees (g : Graph) (I : Interpretation V) (args : List V) (φ : NodeId → Option V) (env : Locals V) (n : NodeId)
    (o : Operand) : Prop :=
  ∃ v, I.read env o = some v ∧ g.eval I args φ n = some v

theorem Selects.value {g : Graph} {R : NodeId → Operand → Prop} {i : Instruction} {value : NodeId → Option V}
    (hi : Selects g R n i)
    (hop : ∀ v, g.kind? n = some (.value v) → v.op.isArithmetic = true)
    (haction : ∀ a, g.kind? n ≠ some (.action a))
    (hR : ∀ m ∈ g.inputs n, ∀ o, R m o → ∃ v, I.read env o = some v ∧ value m = some v) :
    ∃ v, I.value env i = some v ∧ g.compute I args φ value n = some v := by
  cases hi with
  | @binary type operand op lhs rhs kind opcode t l a b hk htype hkind hopcode ht ha hb =>
      rw [Graph.inputs_of_kind hk] at hR
      obtain ⟨v, hv, hv'⟩ := hR lhs (by simp [NodeKind.inputs, ValueOp.inputs]) a ha
      obtain ⟨w, hw, hw'⟩ := hR rhs (by simp [NodeKind.inputs, ValueOp.inputs]) b hb
      refine ⟨I.binary opcode t v w, ?_, ?_⟩
      · simp [Interpretation.value, hv, hw]
      · simp [Graph.compute, hk, htype, hkind, hopcode, ht, hv', hw']
  | @neg type operand input kind t l a hk htype hkind ht ha =>
      rw [Graph.inputs_of_kind hk] at hR
      obtain ⟨v, hv, hv'⟩ := hR input (by simp [NodeKind.inputs, ValueOp.inputs]) a ha
      cases kind with
      | float =>
          refine ⟨I.fneg t v, ?_, ?_⟩
          · simp [Interpretation.value, negInstruction, hv]
          · simp [Graph.compute, hk, htype, hkind, ht, hv']
      | signed | unsigned =>
          refine ⟨I.binary .sub t (I.const (.int 0)) v, ?_, ?_⟩
          · simp [Interpretation.value, negInstruction, hv]
          · simp [Graph.compute, hk, htype, hkind, ht, hv']
  | @cmp type operand op lhs rhs kind t l a b hk htype hkind ht ha hb =>
      rw [Graph.inputs_of_kind hk] at hR
      obtain ⟨v, hv, hv'⟩ := hR lhs (by simp [NodeKind.inputs, ValueOp.inputs]) a ha
      obtain ⟨w, hw, hw'⟩ := hR rhs (by simp [NodeKind.inputs, ValueOp.inputs]) b hb
      cases kind with
      | float =>
          refine ⟨I.fcmp op.floatPredicate t v w, ?_, ?_⟩
          · simp [Interpretation.value, CmpOp.instruction, hv, hw]
          · simp [Graph.compute, hk, htype, hkind, ht, hv', hw']
      | signed =>
          refine ⟨I.icmp op.signedPredicate t v w, ?_, ?_⟩
          · simp [Interpretation.value, CmpOp.instruction, hv, hw]
          · simp [Graph.compute, hk, htype, hkind, ht, hv', hw']
      | unsigned =>
          refine ⟨I.icmp op.unsignedPredicate t v w, ?_, ?_⟩
          · simp [Interpretation.value, CmpOp.instruction, hv, hw]
          · simp [Graph.compute, hk, htype, hkind, ht, hv', hw']
  | @conversion type source op input opcode t u l a hk htype hsource htarget hopcode ha =>
      rw [Graph.inputs_of_kind hk] at hR
      obtain ⟨v, hv, hv'⟩ := hR input (by simp [NodeKind.inputs, ValueOp.inputs]) a ha
      refine ⟨I.cast opcode t u v, ?_, ?_⟩
      · simp [Interpretation.value, hv]
      · simp [Graph.compute, hk, htype, hsource, htarget, hopcode, hv']
  | @select type cond ifTrue ifFalse t l c a b hk ht hc ha hb =>
      rw [Graph.inputs_of_kind hk] at hR
      obtain ⟨u, hu, hu'⟩ := hR cond (by simp [NodeKind.inputs, ValueOp.inputs]) c hc
      obtain ⟨v, hv, hv'⟩ := hR ifTrue (by simp [NodeKind.inputs, ValueOp.inputs]) a ha
      obtain ⟨w, hw, hw'⟩ := hR ifFalse (by simp [NodeKind.inputs, ValueOp.inputs]) b hb
      refine ⟨I.select t u v w, ?_, ?_⟩
      · simp [Interpretation.value, hu, hv, hw]
      · simp [Graph.compute, hk, ht, hu', hv', hw']
  | load hk | call hk | virtualLookup hk | interfaceLookup hk => cases hop _ hk
  | store hk | monitorEnter hk | monitorExit hk => exact absurd hk (haction _)

namespace Lowered

theorem fresh_local (hl : Lowered x f order h) {e : Event} (hpre : before ++ [e] <+: h)
    (hlocal : e.local? = some l) : ∀ e' ∈ before, e'.local? ≠ some l := by
  obtain ⟨after, rfl⟩ := hpre
  have hnodup := hl.nodup_locals
  rw [List.filterMap_append, List.filterMap_append] at hnodup
  have hdisjoint := (List.nodup_append.1 (List.nodup_append.1 hnodup).1).2.2
  intro e' he' hlocal'
  refine hdisjoint l (List.mem_filterMap.2 ⟨e', he', hlocal'⟩) l ?_ rfl
  exact List.mem_filterMap.2 ⟨e, List.mem_singleton_self e, hlocal⟩

end Lowered

def Untouched (x : LoweringInput) (b : BlockId) (h : List Event) (l : Local) : Prop :=
  ∀ e ∈ h, ∀ i, e.instructionAt x b = some i → i.result? ≠ some l

theorem Event.local?_of_instructionAt {e : Event} {i : Instruction} (he : e.instructionAt x b = some i) :
    e.local? = i.result? := by
  cases e with
  | computed n i' | performed n i' =>
      obtain ⟨-, heq⟩ := Option.ite_none_right_eq_some.1 he
      cases heq
      rfl
  | _ => cases he

theorem Lowered.untouched_of_local (hl : Lowered x f order h) (hpre : before <+: h) {e : Event} (he : e ∈ h)
    (hlocal : e.local? = some l) (hnone : e.instructionAt x b = none) : Untouched x b before l := by
  intro e' he' i hi hresult
  rw [← Event.local?_of_instructionAt hi] at hresult
  cases hl.eq_of_local (hpre.subset he') he hresult hlocal
  rw [hnone] at hi
  cases hi

theorem Lowered.untouched_param (hl : Lowered x f order h) (hpre : before <+: h) (hparam : l ∈ f.params) :
    Untouched x b before l := by
  intro e he i hi hresult
  rw [← Event.local?_of_instructionAt hi] at hresult
  exact hl.notMem_params (hpre.subset he) hresult hparam

/-- Control has come to a block of the graph and to its label: the arguments are in the parameters, and what
comes from above has the values of its nodes, as the phis of the block have. -/
structure Simulates (x : LoweringInput) (h : List Event) (I : Interpretation V) (args : List V)
    (s : BlockId × (NodeId → Option V)) (t : String × Locals V) : Prop where
  reaches : x.graph.Reaches s.1
  label : t.1 = blockLabel s.1
  params : ∀ i < x.graph.method.functionType.params.length, t.2 ⟨i⟩ = args[i]?
  above : ∀ n o, Bound h n o → x.graph.Dominates (x.schedule.blockOf n) s.1 →
    (x.schedule.blockOf n ≠ s.1 ∨ ∃ p, x.graph.phi? n = some p) → Agrees x.graph I args s.2 t.2 n o

theorem Agrees.congr {g : Graph} (ha : Agrees g I args φ env n o) (henv : ∀ l, o = .ofLocal l → env' l = env l) :
    Agrees g I args φ env' n o := by
  obtain ⟨v, hread, heval⟩ := ha
  refine ⟨v, ?_, heval⟩
  cases o with
  | ofLocal l => exact (henv l rfl).trans hread
  | const c => exact hread

theorem result?_of_value {i : Instruction} {v : V} (hv : I.value env i = some v) : ∃ l, i.result? = some l := by
  cases i with
  | load | store | call => cases hv
  | binary | fneg | icmp | fcmp | cast | select => exact ⟨_, rfl⟩

theorem Guard.computed_of_pure {e : Event} (he : Guard x before e) (hpure : x.graph.Pure)
    (hn : x.graph.Needed e.node) {i : Instruction} (hat : e.instructionAt x b = some i) :
    ∃ n v, e = .computed n i ∧ x.schedule.blockOf n = b ∧ x.graph.kind? n = some (.value v) ∧
      Selects x.graph (Bound before) n i := by
  cases he with
  | @emit n _ hem =>
      cases hem with
      | @value v i' hk _ hi =>
          obtain ⟨hblock, heq⟩ := Option.ite_none_right_eq_some.1 hat
          cases heq
          exact ⟨n, v, rfl, hblock, hk, hi⟩
      | @action a i' hk hi =>
          obtain ⟨c, rfl⟩ := hpure.actions n a hn hk
          cases hi <;> simp_all
  | entered | bound | phi | incoming | ended | thrown => cases hat

namespace Lowered

theorem agrees_of_operand (hl : Lowered x f order h) (hg : x.graph.WellFormed) (hu : x.graph.Usable)
    (hpure : x.graph.Pure) (hargs : args.length = x.graph.method.functionType.params.length)
    {label : String} (hs : Simulates x h I args (b, φ) (label, env)) (hpre : before <+: h)
    (henv : ∀ l, Untouched x b before l → env' l = env l) {e : Event} (he : e ∈ h)
    (hop : e.operand? = some (n, o)) (hnone : e.instructionAt x b = none)
    (hdom : x.graph.Dominates (x.schedule.blockOf n) b) : Agrees x.graph I args φ env' n o := by
  obtain ⟨earlier, -, hguard⟩ := hl.exists_guard he
  cases hguard with
  | @bound m o' _ himmediate =>
      cases hop
      have hn : x.graph.Needed n := hl.needed hg hu he
      cases himmediate with
      | @literal type c hk =>
          exact ⟨I.const (c.constant type), rfl, Graph.eval_literal hg hk⟩
      | @parameter type index hk hlt =>
          have hparam : (⟨index⟩ : Local) ∈ f.params := hl.mem_params.2 hlt
          have harg : args[index]? = some args[index] := List.getElem?_eq_getElem (hargs ▸ hlt)
          refine ⟨args[index], ?_, (Graph.eval_parameter hg hk).trans harg⟩
          rw [Interpretation.read, henv _ (hl.untouched_param hpre hparam)]
          exact (hs.params index hlt).trans harg
      | pointerLiteral hk | catchException hk => cases hpure.values n _ hn hk
  | emit hem =>
      cases hem with
      | @value v i hk hnew hi =>
          cases hop
          have hne : x.schedule.blockOf n ≠ b := by
            intro heq
            rw [Event.instructionAt, if_pos heq] at hnone
            cases hnone
          refine (hs.above n _ ⟨_, he, rfl⟩ hdom (.inl hne)).congr fun l hl' => ?_
          refine henv l (hl.untouched_of_local hpre he ?_ hnone)
          rw [Instruction.gives] at hl'
          cases hresult : i.result? with
          | none => simp [hresult] at hl'
          | some l' =>
              rw [hresult] at hl'
              cases hl'
              exact hresult
      | action => cases hop
  | @phi m type table t l hnew hk ht =>
      cases hop
      obtain ⟨p, hp, -⟩ := Graph.phi?_of_kind hg hk
      refine (hs.above n _ ⟨_, he, rfl⟩ hdom (.inr ⟨p, hp⟩)).congr fun l' hl' => ?_
      cases hl'
      exact henv l (hl.untouched_of_local hpre he rfl rfl)
  | entered | incoming | ended | thrown => cases hop

theorem ne_of_bound (hl : Lowered x f order h) {e : Event} (hpre : before ++ [e] <+: h)
    (hlocal : e.local? = some l) {l' : Local} (hb : Bound before n (.ofLocal l')) : l' ≠ l := by
  rintro rfl
  have hbefore : before <+: h := (List.prefix_append _ _).trans hpre
  have he : e ∈ h := hpre.subset (List.mem_append_right _ (List.mem_singleton_self e))
  rcases hl.defined_of_bound hbefore hb with hparam | ⟨e', he', hdef⟩
  · exact hl.notMem_params he hlocal hparam
  · exact hl.fresh_local hpre hlocal e' he' (Event.local?_of_defAt hdef).1

/-- The instructions of a block run, as far as it has come, and the values so far agree. -/
theorem executes (hl : Lowered x f order h) (hg : x.graph.WellFormed) (hu : x.graph.Usable) (hpure : x.graph.Pure)
    (hargs : args.length = x.graph.method.functionType.params.length) {label : String}
    (hs : Simulates x h I args (b, φ) (label, env)) (hpre : before <+: h) :
    ∃ env', (before.filterMap (Event.instructionAt x b)).foldlM I.execute env = some env' ∧
      (∀ l, Untouched x b before l → env' l = env l) ∧
      ∀ n o, Bound before n o → x.graph.Dominates (x.schedule.blockOf n) b → Agrees x.graph I args φ env' n o := by
  have hspec := hl.spec hg
  induction before using List.reverseRecOn with
  | nil =>
      refine ⟨env, rfl, fun _ _ => rfl, ?_⟩
      rintro n o ⟨e, he, -⟩
      cases he
  | append_singleton before e ih =>
      have hbefore : before <+: h := (List.prefix_append _ _).trans hpre
      have he : e ∈ h := hpre.subset (List.mem_append_right _ (List.mem_singleton_self e))
      obtain ⟨env', hrun, hkeeps, hagrees⟩ := ih hbefore
      cases hat : e.instructionAt x b with
      | none =>
          refine ⟨env', ?_, fun l hl' => hkeeps l fun e' he' => hl' e' (List.mem_append_left _ he'), ?_⟩
          · rw [List.filterMap_append, List.filterMap_cons_none hat, List.filterMap_nil, List.append_nil]
            exact hrun
          · intro n o hb hdom
            rcases bound_append.1 hb with hb | hb
            · exact hagrees n o hb hdom
            · exact hl.agrees_of_operand hg hu hpure hargs hs hbefore hkeeps he (bound_singleton.1 hb) hat hdom
      | some i =>
          obtain ⟨after, hafter⟩ := hpre
          have hguard : Guard x before e := hl.valid.guard (show h = before ++ e :: after by simpa using hafter.symm)
          have hn : x.graph.Needed e.node := hl.needed hg hu he
          obtain ⟨n, v, rfl, hblock, hk, hi⟩ := hguard.computed_of_pure hpure hn hat
          have hinputs : ∀ m ∈ x.graph.inputs n, ∀ o, Bound before m o →
              ∃ v, I.read env' o = some v ∧ x.graph.eval I args φ m = some v :=
            fun m hm o hb => hagrees m o hb (hblock ▸ hspec.operand_dominates hg hu hn hm)
          obtain ⟨v, hv, hv'⟩ := hi.value (fun w hw => hpure.values _ w hn hw) (by simp [hk]) hinputs
          obtain ⟨l, hresult⟩ := result?_of_value hv
          have hgives : i.gives = .ofLocal l := by rw [Instruction.gives, hresult]
          have hpre : before ++ [.computed n i] <+: h := ⟨after, hafter⟩
          refine ⟨env'.set l v, ?_, ?_, ?_⟩
          · rw [List.filterMap_append, List.foldlM_append, hrun, List.filterMap_cons_some hat]
            simp [Interpretation.execute, hresult, hv]
          · intro l' hl'
            have hne : l' ≠ l := by
              rintro rfl
              exact hl' _ (List.mem_append_right _ (List.mem_singleton_self _)) i hat hresult
            rw [Locals.set_of_ne env' v hne]
            exact hkeeps l' fun e' he' => hl' e' (List.mem_append_left _ he')
          · intro m o hb hdom
            rcases bound_append.1 hb with hb | hb
            · refine (hagrees m o hb hdom).congr ?_
              rintro l' rfl
              exact Locals.set_of_ne env' v (hl.ne_of_bound hpre hresult hb)
            · have hop := bound_singleton.1 hb
              rw [Event.operand?, hgives] at hop
              cases hop
              exact ⟨v, Locals.set_self env' l v, (Graph.eval_eq hg).trans hv'⟩

theorem block?_render (hl : Lowered x f order h) (hb : b ∈ order) :
    f.block? (blockLabel b) = some (render x h b) := by
  cases hfind : f.block? (blockLabel b) with
  | none =>
      have hnot := List.find?_eq_none.1 hfind _ (hl.render_mem hb)
      exact absurd (beq_self_eq_true (blockLabel b)) hnot
  | some block =>
      obtain ⟨c, -, rfl⟩ := hl.exists_of_mem_blocks (List.mem_of_find?_eq_some hfind)
      have hlabel := List.find?_some hfind
      rw [blockLabel_injective (beq_iff_eq.1 hlabel)]

theorem phi_of_bound (hl : Lowered x f order h) (hb : Bound h n o) {type : Ty} {table : PhiId}
    (hk : x.graph.kind? n = some (.value ⟨type, .phi table⟩)) : ∃ l t, o = .ofLocal l ∧ .phi n l t ∈ h := by
  obtain ⟨e, he, hop⟩ := hb
  obtain ⟨earlier, -, hguard⟩ := hl.exists_guard he
  cases hguard with
  | bound _ himmediate =>
      cases hop
      cases himmediate <;> simp_all
  | emit hem =>
      cases hem with
      | value _ _ hi =>
          cases hop
          exact absurd hk hi.not_phi
      | action => cases hop
  | @phi m _ _ t l =>
      cases hop
      exact ⟨l, t, rfl, he⟩
  | entered | incoming | ended | thrown => cases hop

theorem blockOf_phi (hl : Lowered x f order h) (hg : x.graph.WellFormed) {p : PhiData}
    (hp : x.graph.phi? n = some p) : x.graph.pinned? n = some (x.schedule.blockOf n) := by
  have hs := hl.spec hg
  obtain ⟨type, table, hk, -⟩ := Graph.phi?_eq_some hp
  obtain ⟨q, -, hpinned⟩ := Graph.phi?_of_kind hg hk
  rw [hpinned, hs.blockOf_of_pinned hpinned]

theorem find?_phi (hl : Lowered x f order h) {t : IrType} (hphi : .phi n l t ∈ h)
    (hb : x.schedule.blockOf n = b) :
    (render x h b).phis.find? (·.result == l) = some ⟨l, t, h.filterMap (Event.contribution n)⟩ := by
  have hmem : ⟨l, t, h.filterMap (Event.contribution n)⟩ ∈ (render x h b).phis :=
    List.mem_map.2 ⟨(n, l, t), List.mem_filterMap.2 ⟨_, hphi, by simp [Event.phiAt, hb]⟩, rfl⟩
  cases hfind : (render x h b).phis.find? (·.result == l) with
  | none => exact absurd (beq_self_eq_true l) (List.find?_eq_none.1 hfind _ hmem)
  | some p =>
      obtain ⟨⟨m, l', t'⟩, hm, rfl⟩ := List.mem_map.1 (List.mem_of_find?_eq_some hfind)
      obtain ⟨e, he, hat⟩ := List.mem_filterMap.1 hm
      cases e with
      | phi m' l'' t'' =>
          obtain ⟨-, heq⟩ := Option.ite_none_right_eq_some.1 hat
          cases heq
          have hlocal : l' = l := beq_iff_eq.1 (List.find?_some hfind :)
          subst hlocal
          cases hl.eq_of_local he hphi rfl rfl
          rfl
      | _ => cases hat

theorem find?_phi_eq_none (hne : ∀ n t, .phi n l t ∈ h → x.schedule.blockOf n ≠ b) :
    (render x h b).phis.find? (·.result == l) = none := by
  rw [List.find?_eq_none]
  intro p hp heq
  obtain ⟨⟨m, l', t'⟩, hm, rfl⟩ := List.mem_map.1 hp
  obtain ⟨e, he, hat⟩ := List.mem_filterMap.1 hm
  cases e with
  | phi m' l'' t'' =>
      obtain ⟨hblock, heq'⟩ := Option.ite_none_right_eq_some.1 hat
      cases heq'
      cases beq_iff_eq.1 heq
      exact hne m t' he hblock
  | _ => cases hat

theorem phiValue_eq (hl : Lowered x f order h) (hg : x.graph.WellFormed) (hu : x.graph.Usable)
    (hmerge : x.graph.PhisMerge) (hb : x.graph.Reaches b) (hc : c ∈ x.graph.successors b)
    (hagrees : ∀ n o, Bound h n o → x.graph.Dominates (x.schedule.blockOf n) b →
      Agrees x.graph I args φ env n o) {t : IrType} (hphi : .phi n l t ∈ h) (hblock : x.schedule.blockOf n = c) :
    ∃ v, Function.phiValue I env (blockLabel b) ⟨l, t, h.filterMap (Event.contribution n)⟩ = some v ∧
      x.graph.enter I args φ b c n = some v := by
  have hs := hl.spec hg
  have hn : x.graph.Needed n := hl.needed hg hu hphi
  obtain ⟨type, table, hk⟩ : ∃ type table, x.graph.kind? n = some (.value ⟨type, .phi table⟩) := by
    obtain ⟨earlier, -, hguard⟩ := hl.exists_guard hphi
    cases hguard with
    | phi _ hk => exact ⟨_, _, hk⟩
    | emit hem => cases hem
  obtain ⟨p, hp, -⟩ := Graph.phi?_of_kind hg hk
  have hpinned : x.graph.pinned? n = some c := hblock ▸ hl.blockOf_phi hg hp
  obtain ⟨v, hv⟩ := Option.isSome_iff_exists.1 (hmerge.incoming n p b c hp hpinned hb hc)
  have hinput : (b, v) ∈ x.graph.phiInputs x.graph.reachable n :=
    Graph.mem_phiInputs.2 ⟨(Graph.mem_reachable hg).2 hb, p, hp, hv⟩
  have hall : ∀ q ∈ h.filterMap (Event.contribution n), q.2 = blockLabel b →
      Agrees x.graph I args φ env v q.1 := by
    intro q hq hlabel
    obtain ⟨e, he, hat⟩ := List.mem_filterMap.1 hq
    cases e with
    | incoming m predecessor o =>
        obtain ⟨rfl, heq⟩ := Option.ite_none_right_eq_some.1 hat
        cases heq
        cases blockLabel_injective hlabel
        obtain ⟨earlier, hpre, hguard⟩ := hl.exists_guard he
        cases hguard with
        | @incoming _ w _ _ hw hbound =>
            obtain ⟨-, p', hp', hw'⟩ := Graph.mem_phiInputs.1 hw
            rw [hp] at hp'
            cases hp'
            rw [hv] at hw'
            cases hw'
            exact hagrees v _ (hbound.of_isPrefix hpre) (hs.phiInput_dominates hg hu hn hinput)
        | emit hem => cases hem
    | _ => cases hat
  obtain ⟨o, ho, -⟩ := hl.lowers.phi_complete hphi (hs.reachable ▸ hinput)
  have hmem : (o, blockLabel b) ∈ h.filterMap (Event.contribution n) :=
    List.mem_filterMap.2 ⟨_, ho, by simp [Event.contribution]⟩
  cases hfind : (h.filterMap (Event.contribution n)).find? (·.2 == blockLabel b) with
  | none => exact absurd (beq_self_eq_true (blockLabel b)) (List.find?_eq_none.1 hfind _ hmem)
  | some q =>
      obtain ⟨w, hread, heval⟩ := hall q (List.mem_of_find?_eq_some hfind) (beq_iff_eq.1 (List.find?_some hfind :))
      refine ⟨w, ?_, ?_⟩
      · rw [Function.phiValue, Phi.incomingFrom?, hfind]
        exact hread
      · simp only [Graph.enter, hp, if_pos hpinned, hv, Option.bind_some, heval]

theorem eval_enter (hl : Lowered x f order h) (hg : x.graph.WellFormed) (hu : x.graph.Usable)
    (hc : x.graph.Reaches c) (hn : x.graph.Needed n) (hdom : x.graph.Dominates (x.schedule.blockOf n) c)
    (hne : x.schedule.blockOf n ≠ c) :
    x.graph.eval I args (x.graph.enter I args φ b c) n = x.graph.eval I args φ n := by
  have hs := hl.spec hg
  refine Graph.eval_congr hg
    (P := fun m => x.graph.Needed m ∧ x.graph.Dominates (x.schedule.blockOf m) (x.schedule.blockOf n)) ?_ ?_
    ⟨hn, Flow.dominates_refl _ _⟩
  · rintro m ⟨hm, hdom'⟩ i hi
    exact ⟨hm.input hi, (hs.operand_dominates hg hu hm hi).trans hdom'⟩
  · rintro m ⟨-, hdom'⟩
    rw [Graph.enter]
    cases hp : x.graph.phi? m with
    | none => rfl
    | some p =>
        refine if_neg fun hpinned => hne ?_
        have hblock : x.schedule.blockOf m = c := hs.blockOf_of_pinned hpinned
        rw [hblock] at hdom'
        exact hdom.antisymm hdom' (Graph.reaches_iff_path.1 hc)

theorem enters (hl : Lowered x f order h) (hg : x.graph.WellFormed) (hthrow : x.graph.NoThrow)
    (hu : x.graph.Usable) (hmerge : x.graph.PhisMerge) (hb : x.graph.Reaches b) (hc : c ∈ x.graph.successors b)
    (hparams : ∀ i < x.graph.method.functionType.params.length, env ⟨i⟩ = args[i]?)
    (hagrees : ∀ n o, Bound h n o → x.graph.Dominates (x.schedule.blockOf n) b →
      Agrees x.graph I args φ env n o) :
    ∃ env', f.enter I env (blockLabel b) (blockLabel c) = some (.goes (blockLabel c, env')) ∧
      Simulates x h I args (c, x.graph.enter I args φ b c) (blockLabel c, env') := by
  have hreach : x.graph.Reaches c := .step hb hc
  have hvalues : ∀ {n l t}, .phi n l t ∈ h → x.schedule.blockOf n = c → _ :=
    fun hphi hblock => hl.phiValue_eq hg hu hmerge hb hc hagrees hphi hblock
  have hall : (render x h c).phis.all (fun p => (Function.phiValue I env (blockLabel b) p).isSome) = true := by
    rw [List.all_eq_true]
    intro p hp
    obtain ⟨⟨n, l, t⟩, hm, rfl⟩ := List.mem_map.1 hp
    obtain ⟨e, he, hat⟩ := List.mem_filterMap.1 hm
    cases e with
    | phi m l' t' =>
        obtain ⟨hblock, heq⟩ := Option.ite_none_right_eq_some.1 hat
        cases heq
        obtain ⟨v, hv, -⟩ := hvalues he hblock
        rw [hv]
        rfl
    | _ => cases hat
  refine ⟨Function.merge I env (blockLabel b) (render x h c), ?_, hreach, rfl, ?_, ?_⟩
  · simp only [Function.enter, hl.block?_render (hl.mem_of_reaches hthrow hreach), Option.bind_eq_bind,
      Option.bind_some, hall, if_true]
    rfl
  · intro i hi
    have hparam : (⟨i⟩ : Local) ∈ f.params := hl.mem_params.2 hi
    dsimp only [Function.merge]
    rw [find?_phi_eq_none fun n t hphi _ => hl.notMem_params hphi rfl hparam]
    exact hparams i hi
  · rintro n o hbound hdom habove
    obtain ⟨e, he, hop⟩ := hbound
    have hn : x.graph.Needed n := by
      have hnode : e.node = n := by
        cases e <;> simp_all [Event.operand?, Event.node]
      exact hnode ▸ hl.needed hg hu he
    by_cases hsame : x.schedule.blockOf n = c
    · obtain ⟨p, hp⟩ := habove.resolve_left (not_not_intro hsame)
      obtain ⟨type, table, hk, -⟩ := Graph.phi?_eq_some hp
      obtain ⟨l, t, rfl, hphi⟩ := hl.phi_of_bound ⟨e, he, hop⟩ hk
      obtain ⟨v, hv, hv'⟩ := hvalues hphi hsame
      refine ⟨v, ?_, (Graph.eval_phi hg hk).trans hv'⟩
      simp only [Interpretation.read, Function.merge, hl.find?_phi hphi hsame, hv]
    · have hdom' : x.graph.Dominates (x.schedule.blockOf n) b := Flow.Dominates.of_next hdom hsame hc
      obtain ⟨v, hread, heval⟩ := hagrees n o ⟨e, he, hop⟩ hdom'
      refine ⟨v, ?_, (hl.eval_enter hg hu hreach hn hdom hsame).trans heval⟩
      cases o with
      | const k => exact hread
      | ofLocal l =>
          have hnone : (render x h c).phis.find? (·.result == l) = none := by
            refine find?_phi_eq_none fun m t hphi hblock => ?_
            rcases hl.defined_of_bound List.prefix_rfl ⟨e, he, hop⟩ with hparam | ⟨e', he', hdef⟩
            · exact hl.notMem_params hphi rfl hparam
            · obtain ⟨hlocal, hblock'⟩ := Event.local?_of_defAt hdef
              cases hl.eq_of_local he' hphi hlocal rfl
              exact hsame (hblock'.symm.trans hblock)
          simp only [Interpretation.read, Function.merge, hnone]
          exact hread

/-- One block: the graph and the function leave it the same way. -/
theorem steps (hl : Lowered x f order h) (hg : x.graph.WellFormed) (hthrow : x.graph.NoThrow)
    (hu : x.graph.Usable) (hpure : x.graph.Pure) (hmerge : x.graph.PhisMerge)
    (hargs : args.length = x.graph.method.functionType.params.length) {s : BlockId × (NodeId → Option V)}
    {t : String × Locals V} (hs : Simulates x h I args s t) :
    Next.Related (Simulates x h I args) (x.graph.step I args s) (f.step I t) := by
  obtain ⟨b, φ⟩ := s
  obtain ⟨label, env⟩ := t
  have hb : x.graph.Reaches b := hs.reaches
  have hlabel : label = blockLabel b := hs.label
  subst hlabel
  have hspec := hl.spec hg
  obtain ⟨env', hrun, hkeeps, hagrees⟩ := hl.executes hg hu hpure hargs hs List.prefix_rfl
  obtain ⟨n, u, t, before, hpre, hn, hk, ht, hends⟩ := hl.exists_terminator hg hthrow hb
  have hneeded : x.graph.Needed n := .terminator hb hn
  have hparams : ∀ i < x.graph.method.functionType.params.length, env' ⟨i⟩ = args[i]? := by
    intro i hi
    rw [hkeeps _ (hl.untouched_param List.prefix_rfl (hl.mem_params.2 hi))]
    exact hs.params i hi
  have hinput : ∀ {m o}, m ∈ u.inputs → Bound before m o → Agrees x.graph I args φ env' m o := by
    intro m o hm hbound
    obtain ⟨node, -, hnode, -, hpinned⟩ := Graph.terminator_eq_ok hg hn
    refine hagrees m o (hbound.of_isPrefix hpre) ?_
    rw [← hspec.blockOf_of_pinned ((Graph.pinned?_of_getElem? hnode).trans hpinned)]
    refine hspec.operand_dominates hg hu hneeded ?_
    rw [Graph.inputs_of_kind hk]
    exact hm
  have henters : ∀ {c}, c ∈ u.successors → _ := fun {c} hc =>
    hl.enters hg hthrow hu hmerge hb (Graph.successors_of_terminator hn hk ▸ hc) hparams hagrees
  have hstep : f.step I (blockLabel b, env) = f.leave I env' (blockLabel b) t := by
    simp only [Function.step, hl.block?_render (hl.mem_of_reaches hthrow hb), Option.bind_eq_bind,
      Option.bind_some, ht]
    exact congrArg (Option.bind · fun env => f.leave I env (blockLabel b) t) hrun
  have hkind : (x.graph.terminator b).toOption.bind x.graph.kind? = some (.terminator u) := by
    rw [hn]
    exact hk
  rw [hstep]
  cases hends with
  | @goto target dependency =>
      obtain ⟨env'', henter, hsim⟩ := henters (List.mem_singleton_self target)
      simp only [Graph.step, hkind, Function.leave, henter]
      exact .goes hsim
  | @branch cond ifTrue ifFalse _ o ho =>
      obtain ⟨v, hread, heval⟩ := hinput (List.mem_cons_of_mem _ List.mem_cons_self) ho
      simp only [Graph.step, hkind, Function.leave, heval, hread, Option.bind_eq_bind, Option.bind_some]
      cases I.holds v with
      | true =>
          obtain ⟨env'', henter, hsim⟩ := henters (c := ifTrue) List.mem_cons_self
          simp only [if_true, henter]
          exact .goes hsim
      | false =>
          obtain ⟨env'', henter, hsim⟩ := henters (c := ifFalse) (List.mem_cons_of_mem _ List.mem_cons_self)
          simp only [Bool.false_eq_true, if_false, henter]
          exact .goes hsim
  | retVoid =>
      simp only [Graph.step, hkind, Function.leave]
      exact .returns
  | @ret value dependency type t o _ _ ho =>
      obtain ⟨v, hread, heval⟩ := hinput (List.mem_cons_of_mem _ List.mem_cons_self) ho
      simp only [Graph.step, hkind, Function.leave, heval, hread, Option.bind_eq_bind, Option.bind_some]
      exact .returns
  | unreachable => cases hpure.terminators n _ hneeded hk

theorem simulates_start (hl : Lowered x f order h) (hg : x.graph.WellFormed) (hmerge : x.graph.PhisMerge) :
    Simulates x h I args (x.graph.entry, fun _ => none) (f.entryLabel, fun l => args[l.index]?) := by
  have hentry : x.graph.Reaches x.graph.entry := .start (List.mem_singleton_self _)
  refine ⟨hentry, hl.entryLabel, fun _ _ => rfl, ?_⟩
  intro n o _ hdom habove
  have hblock : x.schedule.blockOf n = x.graph.entry :=
    hdom.antisymm (Flow.entry_dominates x.graph.flow _) (Graph.reaches_iff_path.1 hentry)
  rcases habove with hne | ⟨p, hp⟩
  · exact absurd hblock hne
  · have hpinned := hl.blockOf_phi hg hp
    rw [hblock] at hpinned
    exact absurd hpinned (hmerge.entry n p hp)

end Lowered

end Lowering

theorem Graph.Pure.noThrow {g : Graph} (h : g.Pure) : g.NoThrow :=
  fun _ n _ _ _ hb hn hk => nomatch h.terminators n _ (.terminator hb hn) hk

theorem Graph.Pure.phi?_of_pinned {g : Graph} (h : g.Pure) (hg : g.WellFormed) {n : NodeId} {b : BlockId}
    (hn : g.Needed n) (hv : g.isValue n = true) (hb : g.pinned? n = some b) : ∃ p, g.phi? n = some p := by
  obtain ⟨⟨type, op⟩, hk⟩ := Graph.isValue_iff.1 hv
  have harith : op.isArithmetic = true := h.values n _ hn hk
  obtain ⟨node, hnode, hkind⟩ := Option.map_eq_some_iff.1 hk
  have hpinned : node.pinned = some b := (Graph.pinned?_of_getElem? hnode).symm.trans hb
  have hnot : ¬ op.isPure = true := by
    intro hpure
    rw [(hg.node n node hnode).floats.2 ⟨_, hkind, hpure⟩] at hpinned
    cases hpinned
  cases op with
  | phi table =>
      obtain ⟨p, hp, -⟩ := Graph.phi?_of_kind hg hk
      exact ⟨p, hp⟩
  | literal | parameter | binary | neg | cmp | conversion | select => exact absurd rfl hnot
  | pointerLiteral | load | call | virtualLookup | interfaceLookup | catchException => cases harith

/-- The function of a pure graph goes through the same blocks as the graph and returns the same value. -/
theorem lowerMethod_run {m : Method} {b : Builder} {g : Graph} {e e' : Emission} {f : Function}
    (hb : Builder.Built m b) (hg : b.finish = .ok g) (hpure : g.Pure) (hmerge : g.PhisMerge)
    (hf : lowerMethod g e = .ok f e') {V : Type} (I : Interpretation V) {args : List V}
    (hargs : args.length = g.method.functionType.params.length) (k : Nat) :
    ∃ o, g.run I args k = some o ∧ f.run I args k = some (o.map blockLabel) := by
  have hwf := hb.wellFormed hg
  have hthrow := hpure.noThrow
  obtain ⟨s, order, h, hl⟩ := Lowering.lowerMethod_eq_ok hwf hf
  have hu : g.Usable := hl.usable hwf hthrow fun n a c hn hv hp huse hc => by
    obtain ⟨p, hphi⟩ := hpure.phi?_of_pinned hwf hn hv hp
    exact hmerge.dominate n p a c hphi hp huse hc
  exact runFor_simulates (R := Lowering.Simulates ⟨g, s⟩ h I args) (fun _ _ hs => hs.label)
    (fun _ _ hs => hl.steps hwf hthrow hu hpure hmerge hargs hs) k (hl.simulates_start hwf hmerge)

namespace Example

def ints : Interpretation Int where
  const
    | .int k => k
    | _ => 0
  binary
    | .add, _, a, b => a + b
    | .sub, _, a, b => a - b
    | .mul, _, a, b => a * b
    | _, _, _, _ => 0
  fneg _ a := -a
  icmp
    | .eq, _, a, b => if a = b then 1 else 0
    | .slt, _, a, b => if a < b then 1 else 0
    | .sle, _, a, b => if a ≤ b then 1 else 0
    | _, _, _, _ => 0
  fcmp _ _ _ _ := 0
  cast _ _ _ a := a
  select _ c a b := if c = 0 then b else a
  holds c := c != 0

theorem lowerMethod_run_of_counting : ∃ f e, lowerMethod counting.graph output = .ok f e ∧
    f.run ints [3] 10 = some ⟨["b0", "b1", "b1", "b1", "b2"], some (some 3)⟩ := by
  have hwf := counting_built.wellFormed counting_finish
  obtain ⟨f, e, hf, -⟩ := counting_lowers
  obtain ⟨o, ho, ho'⟩ := lowerMethod_run counting_built counting_finish (Graph.pure_of_isPure (by cbv))
    (Graph.phisMerge_of_mergesPhis hwf counting_pinnedDominateUses (by cbv)) hf ints
    (show ([3] : List Int).length = _ by cbv) 10
  have hrun : counting.graph.run ints [3] 10 = some ⟨[0, 1, 1, 1, 2], some (some 3)⟩ := by cbv
  cases ho.symm.trans hrun
  exact ⟨f, e, hf, ho'.trans (by cbv)⟩

end Example

end NativeBackend
