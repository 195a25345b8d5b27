import Mathlib.Data.List.Induction
import NativeBackend.Proofs.Lowering.Once
import NativeBackend.Proofs.Lowering.Ssa

namespace NativeBackend

/-- An instruction is that of a node: it reads what stands for the inputs and, for a value, defines what
stands for the node. -/
def Instruction.Performs (g : Graph) (ρ : NodeId → Option Operand) (n : NodeId) (i : Instruction) : Prop :=
  Lowering.Selects g (fun m o => ρ m = some o) n i ∧ (g.isValue n = true → ρ n = some i.gives)

def BasicBlock.effects (block : BasicBlock) : List Instruction := block.instructions.filter (·.isEffect)

/-- A block that emits the effects of a block of a graph in order, each once, and reads what stands for
nodes, one operand for each. -/
structure BasicBlock.Implements (g : Graph) (ρ : NodeId → Option Operand) (b : BlockId) (block : BasicBlock) :
    Prop where
  label : block.label = blockLabel b
  effects : List.Forall₂ (Instruction.Performs g ρ) (g.chain b) block.effects
  instructions : ∀ i ∈ block.instructions, ∃ n, i.Performs g ρ n
  phis : ∀ p ∈ block.phis, ∃ n, g.phi? n ≠ none ∧ ρ n = some (.ofLocal p.result) ∧
    ∀ o label, (o, label) ∈ p.incoming ↔ ∃ predecessor v, label = blockLabel predecessor ∧
      (predecessor, v) ∈ g.phiInputs g.reachable n ∧ ρ v = some o
  terminator : ∃ n t t', g.terminator b = .ok n ∧ g.kind? n = some (.terminator t) ∧
    block.terminator = some t' ∧ Lowering.Ends g (fun m o => ρ m = some o) t t'

/-- A function with a block for each block of a graph that the entry leads to. -/
def Function.Implements (f : Function) (g : Graph) : Prop :=
  ∃ ρ, ∀ b, g.Reaches b → ∃ block ∈ f.blocks, block.Implements g ρ b

def Function.effectCounts (f : Function) : List (String × Nat) :=
  f.blocks.map fun block => (block.label, block.effects.length)

theorem Function.Implements.mem_effectCounts {f : Function} {g : Graph} {b : BlockId} (hf : f.Implements g)
    (hb : g.Reaches b) : (blockLabel b, (g.chain b).length) ∈ f.effectCounts := by
  obtain ⟨ρ, hρ⟩ := hf
  obtain ⟨block, hmem, himplements⟩ := hρ b hb
  refine List.mem_map.2 ⟨block, hmem, ?_⟩
  rw [himplements.label, himplements.effects.length_eq]

namespace Lowering

variable {x : LoweringInput} {g : Graph} {R : NodeId → Operand → Prop} {h before : List Event}
  {f : Function} {order : List BlockId} {b : BlockId} {n : NodeId} {i : Instruction}

theorem symbol_ne_lookup (m : Method) (r : Routine) (hr : '.' ∉ r.symbol.toList) : m.symbol ≠ r.symbol := by
  intro heq
  rw [← heq] at hr
  exact hr (by simp [Method.symbol])

theorem Selects.isEffect (hi : Selects g R n i) (hR : ∀ m o, R m o → ∀ name, o ≠ .const (.symbol name)) :
    i.isEffect = g.isEffect n := by
  cases hi with
  | @call type target args dependency t result callee passed hk ht hresult hcallee hargs =>
      have heffect : g.isEffect n = true := by
        rw [Graph.isEffect, hk]
        rfl
      rw [heffect]
      cases hcallee with
      | @direct m =>
          have hv := symbol_ne_lookup m .lookupVirtual (by decide)
          have hi := symbol_ne_lookup m .lookupInterface (by decide)
          simp [Instruction.isEffect, Operand.global, hv, hi]
      | @indirect pointer signature _ ho =>
          have hne := hR pointer callee ho
          cases callee with
          | ofLocal l => rfl
          | const c =>
              cases c with
              | symbol name => exact absurd rfl (hne name)
              | _ => rfl
  | neg hk =>
      rename_i kind t l a _ _ _ _
      rw [Graph.isEffect, hk]
      cases kind <;> rfl
  | cmp hk =>
      rename_i kind t l a b _ _ _ _ _
      rw [Graph.isEffect, hk]
      cases kind <;> rfl
  | monitorEnter hk | monitorExit hk =>
      rw [Graph.isEffect, hk]
      simp [Instruction.isEffect, Operand.global, NodeKind.effectDependency?, Routine.symbol]
  | virtualLookup hk | interfaceLookup hk =>
      rw [Graph.isEffect, hk]
      simp [Instruction.isEffect, Operand.global, NodeKind.effectDependency?]
  | binary hk | conversion hk | select hk | load hk | store hk =>
      rw [Graph.isEffect, hk]
      rfl

theorem Selects.isEffect_of_impure {v : ValueNode} (hi : Selects g R n i) (hk : g.kind? n = some (.value v))
    (hv : v.op.isPure = false) : g.isEffect n = true := by
  rw [Graph.isEffect, hk]
  cases hi with
  | load hk' | call hk' =>
      rw [hk] at hk'
      cases hk'
      rfl
  | binary hk' | neg hk' | cmp hk' | conversion hk' | select hk' | virtualLookup hk' | interfaceLookup hk' =>
      rw [hk] at hk'
      cases hk'
      cases hv
  | store hk' | monitorEnter hk' | monitorExit hk' =>
      rw [hk] at hk'
      cases hk'

theorem constant_ne_symbol (l : Literal) (type : Ty) (name : String) : l.constant type ≠ .symbol name := by
  cases l with
  | float bits =>
      unfold Literal.constant
      dsimp only
      split <;> exact Constant.noConfusion
  | bool | int | null => exact Constant.noConfusion

theorem Immediate.ne_symbol {o : Operand} (ho : Immediate g n o) (name : String) : o ≠ .const (.symbol name) := by
  cases ho with
  | literal => simpa using constant_ne_symbol _ _ name
  | pointerLiteral _ hc => simpa using hc name
  | parameter | catchException => simp

def Event.effectAt (x : LoweringInput) (b : BlockId) : Event → Option (NodeId × Instruction)
  | .computed n i | .performed n i =>
      if x.schedule.blockOf n = b ∧ x.graph.isEffect n = true then some (n, i) else none
  | _ => none

theorem Event.of_effectAt {e : Event} {p : NodeId × Instruction} (he : e.effectAt x b = some p) :
    e.instructionAt x b = some p.2 ∧ e.node = p.1 := by
  cases e with
  | computed n i | performed n i =>
      simp only [effectAt, Option.ite_none_right_eq_some] at he
      obtain ⟨⟨hb, -⟩, heq⟩ := he
      cases heq
      exact ⟨if_pos hb, rfl⟩
  | entered | bound | phi | incoming | terminated => cases he

theorem filter_emitted : (emitted x.graph h).filter (x.schedule.blockOf · = b) =
    (h.filterMap (Event.effectAt x b)).map (·.1) := by
  rw [emitted, List.filter_filterMap, List.map_filterMap]
  refine List.filterMap_congr fun e _ => ?_
  cases e with
  | computed n i | performed n i =>
      by_cases hb : x.schedule.blockOf n = b <;> by_cases hn : x.graph.isEffect n = true <;>
        simp [Event.emitted?, Event.effectAt, hb, hn]
  | entered | bound | phi | incoming | terminated => rfl

namespace Lowered

theorem bound_ne_symbol (hl : Lowered x f order h) {o : Operand} (hb : Bound h n o) (name : String) :
    o ≠ .const (.symbol name) := by
  obtain ⟨e, he, hop⟩ := hb
  obtain ⟨earlier, -, hguard⟩ := hl.exists_guard he
  cases hguard with
  | bound _ ho =>
      cases hop
      exact ho.ne_symbol name
  | emit hem =>
      cases hem with
      | @value v i =>
          cases hop
          rw [Instruction.gives]
          cases i.result? <;> simp
      | action => cases hop
  | phi =>
      cases hop
      simp
  | entered | incoming | ended | thrown => cases hop

theorem not_done_before (hl : Lowered x f order h) (hnodup : (emitted x.graph h).Nodup) {e : Event}
    (hpre : before ++ [e] <+: h) {o : Operand} (hop : e.operand? = some (n, o)) : ¬ Done before n := by
  cases hl.valid.guard_of_isPrefix hpre with
  | bound hnot | phi hnot =>
      cases hop
      exact hnot
  | emit hem =>
      cases hem with
      | @value v i hk hpure hi =>
          cases hop
          cases hv : v.op.isPure with
          | true => exact hpure hv
          | false =>
              intro hd
              have heffect := hi.isEffect_of_impure hk hv
              have hvalid := hl.valid.of_isPrefix ((List.prefix_append _ _).trans hpre)
              have hmem := ((hvalid.done_effect heffect).1 hd).resolve_left not_done_nil
              obtain ⟨after, rfl⟩ := hpre
              rw [emitted_append, emitted_append] at hnodup
              refine (List.nodup_append.1 (List.nodup_append.1 hnodup).1).2.2 n hmem n ?_ rfl
              exact mem_emitted.2 ⟨heffect, i, .inl (List.mem_singleton_self _)⟩
      | action => cases hop
  | entered | incoming | ended | thrown => cases hop

theorem bound_unique (hl : Lowered x f order h) (hnodup : (emitted x.graph h).Nodup) {o o' : Operand}
    (hb : Bound h n o) (hb' : Bound h n o') : o = o' := by
  have hprefix : ∀ before, before <+: h → ∀ o o', Bound before n o → Bound before n o' → o = o' := by
    intro before
    induction before using List.reverseRecOn with
    | nil =>
        rintro - o o' ⟨e, he, -⟩
        cases he
    | append_singleton before e ih =>
        intro hpre o o' hb hb'
        rcases bound_append.1 hb with hb | hb <;> rcases bound_append.1 hb' with hb' | hb'
        · exact ih ((List.prefix_append _ _).trans hpre) o o' hb hb'
        · exact absurd hb.done (hl.not_done_before hnodup hpre (bound_singleton.1 hb'))
        · exact absurd hb'.done (hl.not_done_before hnodup hpre (bound_singleton.1 hb))
        · have heq := (bound_singleton.1 hb).symm.trans (bound_singleton.1 hb')
          exact congrArg Prod.snd (Option.some.inj heq)
  exact hprefix h List.prefix_rfl o o' hb hb'

def operandOf (h : List Event) (n : NodeId) : Option Operand :=
  h.findSome? fun e => e.operand?.bind fun (m, o) => if m = n then some o else none

theorem operandOf_eq_some (hl : Lowered x f order h) (hnodup : (emitted x.graph h).Nodup) {o : Operand} :
    operandOf h n = some o ↔ Bound h n o := by
  have hbound : ∀ {o}, operandOf h n = some o → Bound h n o := by
    intro o ho
    obtain ⟨e, he, hop⟩ := List.exists_of_findSome?_eq_some ho
    obtain ⟨⟨m, o'⟩, hop, hm⟩ := Option.bind_eq_some_iff.1 hop
    obtain ⟨rfl, heq⟩ := Option.ite_none_right_eq_some.1 hm
    cases heq
    exact ⟨e, he, hop⟩
  refine ⟨hbound, fun hb => ?_⟩
  cases ho : operandOf h n with
  | some o' => rw [hl.bound_unique hnodup (hbound ho) hb]
  | none =>
      obtain ⟨e, he, hop⟩ := hb
      have hnone := List.findSome?_eq_none_iff.1 ho e he
      rw [hop] at hnone
      simp at hnone

theorem effects_render (hl : Lowered x f order h) (b : BlockId) :
    (render x h b).effects = (h.filterMap (Event.effectAt x b)).map (·.2) := by
  rw [BasicBlock.effects, render, List.filter_filterMap, List.map_filterMap]
  refine List.filterMap_congr fun e he => ?_
  obtain ⟨before, hpre, hguard⟩ := hl.exists_guard he
  have hsymbol : ∀ m o, Bound before m o → ∀ name, o ≠ .const (.symbol name) :=
    fun m o hb => hl.bound_ne_symbol (hb.of_isPrefix hpre)
  cases hguard with
  | @emit n _ hem =>
      cases hem with
      | @value v i _ _ hi | @action a i _ hi =>
          have heffect := hi.isEffect hsymbol
          by_cases hb : x.schedule.blockOf n = b <;> by_cases hn : x.graph.isEffect n = true <;>
            simp [Event.instructionAt, Event.effectAt, hb, hn, heffect]
  | entered | bound | phi | incoming | ended | thrown => rfl

theorem performs_of_mem (hl : Lowered x f order h) (hnodup : (emitted x.graph h).Nodup) {e : Event}
    (he : e ∈ h) (hi : e.instructionAt x b = some i) : i.Performs x.graph (operandOf h) e.node := by
  obtain ⟨before, hpre, hguard⟩ := hl.exists_guard he
  cases hguard with
  | @emit n _ hem =>
      have hselects : ∀ {i}, Selects x.graph (Bound before) n i →
          Selects x.graph (fun m o => operandOf h m = some o) n i :=
        fun hi => hi.mono fun m o hb => (hl.operandOf_eq_some hnodup).2 (hb.of_isPrefix hpre)
      cases hem with
      | @value v i' hk _ hi' =>
          obtain ⟨-, heq⟩ := Option.ite_none_right_eq_some.1 hi
          cases heq
          exact ⟨hselects hi', fun _ => (hl.operandOf_eq_some hnodup).2 ⟨_, he, rfl⟩⟩
      | @action a i' hk hi' =>
          obtain ⟨-, heq⟩ := Option.ite_none_right_eq_some.1 hi
          cases heq
          refine ⟨hselects hi', fun hv => ?_⟩
          have hnot := hl.isAction _ he _ rfl
          exact absurd (hv.symm.trans hnot) nofun
  | entered | bound | phi | incoming | ended | thrown => cases hi

theorem emitted_prefix_chain (hl : Lowered x f order h) (hg : x.graph.WellFormed)
    (hnodup : (emitted x.graph h).Nodup)
    (hchain : ∀ n ∈ emitted x.graph h, n ∈ x.graph.chain (x.schedule.blockOf n)) (b : BlockId)
    (hpre : before <+: h) :
    (emitted x.graph before).filter (x.schedule.blockOf · = b) <+: x.graph.chain b := by
  have hs := hl.spec hg
  induction before using List.reverseRecOn with
  | nil => exact List.nil_prefix
  | append_singleton before e ih =>
      have hbefore : before <+: h := (List.prefix_append _ _).trans hpre
      specialize ih hbefore
      have hguard : Guard x before e := hl.valid.guard_of_isPrefix hpre
      cases hen : e.emitted? x.graph with
      | none => simpa [emitted_cons, hen] using ih
      | some n =>
          by_cases hb : x.schedule.blockOf n = b
          · have hemitted : emitted x.graph (before ++ [e]) = emitted x.graph before ++ [n] := by
              simp [emitted_cons, hen]
            obtain ⟨after, hafter⟩ := hpre
            rw [← hafter, emitted_append, hemitted] at hnodup hchain
            have hmem : n ∈ x.graph.chain b := hb ▸ hchain n (by simp)
            have hfresh : n ∉ emitted x.graph before := fun hold =>
              (List.nodup_append.1 (List.nodup_append.1 hnodup).1).2.2 n hold n (List.mem_singleton_self n) rfl
            have hsnoc : (emitted x.graph (before ++ [e])).filter (x.schedule.blockOf · = b) =
                (emitted x.graph before).filter (x.schedule.blockOf · = b) ++ [n] := by
              simp [hemitted, hb]
            obtain ⟨last, hlast⟩ := Graph.chain_eq_effectsTo hmem
            rw [hlast] at ih hmem ⊢
            rw [hsnoc]
            refine Graph.prefix_snoc hg ih hmem (fun hold => hfresh (List.mem_of_mem_filter hold)) ?_
            intro d hd heffect
            have hdone : Done before d := (hguard.emits hen).2 d (Graph.dependency_mem_inputs hd)
            have hold := (((hl.valid.of_isPrefix hbefore).done_effect heffect).1 hdone).resolve_left not_done_nil
            obtain ⟨c, hc, hc'⟩ := Graph.pinned?_effectDependency hg hd
            refine List.mem_filter.2 ⟨hold, ?_⟩
            rw [hs.blockOf_of_pinned hc', ← hs.blockOf_of_pinned hc]
            exact decide_eq_true hb
          · simpa [emitted_cons, hen, hb] using ih

theorem mem_emitted_of_needed (hl : Lowered x f order h) (hg : x.graph.WellFormed) (hthrow : x.graph.NoThrow)
    (hn : x.graph.Needed n) (heffect : x.graph.isEffect n = true) : n ∈ emitted x.graph h := by
  rcases hl.done_of_needed hg hthrow hn with hd | ⟨b, -, hterm⟩
  · exact ((hl.valid.done_effect heffect).1 hd).resolve_left not_done_nil
  · obtain ⟨node, t, hnode, ht, -⟩ := Graph.terminator_eq_ok hg hterm
    rw [Graph.isEffect, Graph.kind?_of_getElem? hnode, ht] at heffect
    cases heffect

theorem needed_of_mem_emitted (hl : Lowered x f order h) (hg : x.graph.WellFormed) (hu : x.graph.Usable)
    (hn : n ∈ emitted x.graph h) : x.graph.Needed n := by
  obtain ⟨-, i, he | he⟩ := mem_emitted.1 hn <;> exact hl.needed hg hu he

theorem chain_subset_emitted (hl : Lowered x f order h) (hg : x.graph.WellFormed) (hthrow : x.graph.NoThrow)
    (hb : x.graph.Reaches b) :
    x.graph.chain b ⊆ (emitted x.graph h).filter (x.schedule.blockOf · = b) := by
  have hs := hl.spec hg
  intro n hn
  obtain ⟨hneeded, hpinned, heffect⟩ := Graph.of_mem_chain hg hb hn
  exact List.mem_filter.2 ⟨hl.mem_emitted_of_needed hg hthrow hneeded heffect,
    decide_eq_true (hs.blockOf_of_pinned hpinned)⟩

/-- The effects emitted in a block are its effects in order when effects are emitted once, and only those
of blocks. -/
theorem emitted_eq_chain (hl : Lowered x f order h) (hg : x.graph.WellFormed) (hthrow : x.graph.NoThrow)
    (hnodup : (emitted x.graph h).Nodup)
    (hchain : ∀ n ∈ emitted x.graph h, n ∈ x.graph.chain (x.schedule.blockOf n)) (hb : x.graph.Reaches b) :
    (emitted x.graph h).filter (x.schedule.blockOf · = b) = x.graph.chain b := by
  have hprefix := hl.emitted_prefix_chain hg hnodup hchain b List.prefix_rfl
  have hsubperm := (Graph.nodup_chain hg b).subperm (hl.chain_subset_emitted hg hthrow hb)
  exact hprefix.eq_of_length_le hsubperm.length_le

theorem nodup_of_length_le (hl : Lowered x f order h) (hg : x.graph.WellFormed) (hthrow : x.graph.NoThrow)
    (hu : x.graph.Usable) (hlength : ∀ b, x.graph.Reaches b →
      ((emitted x.graph h).filter (x.schedule.blockOf · = b)).length ≤ (x.graph.chain b).length) :
    (emitted x.graph h).Nodup ∧ ∀ n ∈ emitted x.graph h, n ∈ x.graph.chain (x.schedule.blockOf n) := by
  have hs := hl.spec hg
  have hperm : ∀ b, x.graph.Reaches b →
      (x.graph.chain b).Perm ((emitted x.graph h).filter (x.schedule.blockOf · = b)) := by
    intro b hb
    have hsubperm := (Graph.nodup_chain hg b).subperm (hl.chain_subset_emitted hg hthrow hb)
    exact hsubperm.perm_of_length_le (hlength b hb)
  have hreach : ∀ n ∈ emitted x.graph h, x.graph.Reaches (x.schedule.blockOf n) :=
    fun n hn => hs.reaches_blockOf hg hu (hl.needed_of_mem_emitted hg hu hn)
  constructor
  · refine List.nodup_iff_count_le_one.2 fun n => ?_
    by_cases hn : n ∈ emitted x.graph h
    · rw [← List.count_filter (p := (x.schedule.blockOf · = x.schedule.blockOf n)) (by simp)]
      exact List.nodup_iff_count_le_one.1 ((hperm _ (hreach n hn)).nodup (Graph.nodup_chain hg _)) n
    · simp [List.count_eq_zero_of_not_mem hn]
  · intro n hn
    exact (hperm _ (hreach n hn)).mem_iff.2 (List.mem_filter.2 ⟨hn, by simp⟩)

theorem implements (hl : Lowered x f order h) (hg : x.graph.WellFormed) (hthrow : x.graph.NoThrow)
    (hnodup : (emitted x.graph h).Nodup)
    (hchain : ∀ n ∈ emitted x.graph h, n ∈ x.graph.chain (x.schedule.blockOf n)) (hb : x.graph.Reaches b) :
    (render x h b).Implements x.graph (operandOf h) b where
  label := rfl
  effects := by
    rw [hl.effects_render, ← hl.emitted_eq_chain hg hthrow hnodup hchain hb, filter_emitted,
      List.forall₂_map_left_iff, List.forall₂_map_right_iff, List.forall₂_same]
    intro p hp
    obtain ⟨e, he, hat⟩ := List.mem_filterMap.1 hp
    obtain ⟨hi, hn⟩ := Event.of_effectAt hat
    rw [← hn]
    exact hl.performs_of_mem hnodup he hi
  instructions := by
    intro i hi
    obtain ⟨e, he, hat⟩ := List.mem_filterMap.1 hi
    exact ⟨_, hl.performs_of_mem hnodup he hat⟩
  phis := by
    intro p hp
    have hs := hl.spec hg
    obtain ⟨⟨n, l, t⟩, hphi, rfl⟩ := List.mem_map.1 hp
    obtain ⟨e, he, hat⟩ := List.mem_filterMap.1 hphi
    cases e with
    | phi m l' t' =>
        obtain ⟨-, heq⟩ := Option.ite_none_right_eq_some.1 hat
        cases heq
        obtain ⟨before, -, hguard⟩ := hl.exists_guard he
        cases hguard with
        | phi _ hk =>
            obtain ⟨q, hq, -⟩ := Graph.phi?_of_kind hg hk
            refine ⟨n, by simp [hq], (hl.operandOf_eq_some hnodup).2 ⟨_, he, rfl⟩, fun o label => ?_⟩
            constructor
            · intro hin
              obtain ⟨e', he', hat'⟩ := List.mem_filterMap.1 hin
              cases e' with
              | incoming m predecessor o' =>
                  obtain ⟨rfl, heq⟩ := Option.ite_none_right_eq_some.1 hat'
                  cases heq
                  obtain ⟨before', hpre, hguard⟩ := hl.exists_guard he'
                  cases hguard with
                  | @incoming _ v _ _ hv hbound =>
                      rw [hs.reachable] at hv
                      exact ⟨predecessor, v, rfl, hv, (hl.operandOf_eq_some hnodup).2 (hbound.of_isPrefix hpre)⟩
                  | emit hem => cases hem
              | _ => cases hat'
            · rintro ⟨predecessor, v, rfl, hv, ho⟩
              rw [← hs.reachable] at hv
              obtain ⟨o', ho', hbound⟩ := hl.lowers.phi_complete he hv
              cases hl.bound_unique hnodup hbound ((hl.operandOf_eq_some hnodup).1 ho)
              exact List.mem_filterMap.2 ⟨_, ho', if_pos rfl⟩
        | emit hem => cases hem
    | _ => cases hat
  terminator := by
    obtain ⟨n, t, t', before, hpre, hn, hk, ht', hends⟩ := hl.exists_terminator hg hthrow hb
    exact ⟨n, t, t', hn, hk, ht', hends.mono fun m o hb => (hl.operandOf_eq_some hnodup).2 (hb.of_isPrefix hpre)⟩

/-- Every block emits the effects of its block exactly when the effects that are needed are those of blocks
and a search over the blocks in order does not come to an effect that it is working on. -/
theorem implements_iff (hl : Lowered x f order h) (hg : x.graph.WellFormed) (hthrow : x.graph.NoThrow)
    (hu : x.graph.Usable) :
    f.Implements x.graph ↔ x.graph.EffectsOnChains ∧
      ∃ known, x.graph.Visits [] ∅ (order.flatMap x.graph.endInputs) known := by
  have hs := hl.spec hg
  rw [← hl.nodup_emitted_iff hg hthrow hu]
  constructor
  · rintro ⟨ρ, hρ⟩
    obtain ⟨hnodup, hchain⟩ := hl.nodup_of_length_le hg hthrow hu fun b hb => by
      obtain ⟨block, hmem, himplements⟩ := hρ b hb
      obtain ⟨c, -, rfl⟩ := hl.exists_of_mem_blocks hmem
      cases blockLabel_injective himplements.label
      have hlength := himplements.effects.length_eq
      rw [hl.effects_render, List.length_map] at hlength
      rw [filter_emitted, List.length_map, hlength]
    refine ⟨fun n hn heffect => ⟨x.schedule.blockOf n, hs.reaches_blockOf hg hu hn, ?_⟩, hnodup⟩
    exact hchain n (hl.mem_emitted_of_needed hg hthrow hn heffect)
  · rintro ⟨hchain, hnodup⟩
    refine ⟨operandOf h, fun b hb => ⟨_, hl.render_mem (hl.mem_of_reaches hthrow hb),
      hl.implements hg hthrow hnodup (fun n hn => ?_) hb⟩⟩
    obtain ⟨c, hc, hmem⟩ := hchain n (hl.needed_of_mem_emitted hg hu hn) (mem_emitted.1 hn).1
    rw [hs.blockOf_of_pinned (Graph.of_mem_chain hg hc hmem).2.1]
    exact hmem

end Lowered

end Lowering

/-- Lowering emits every effect once and in order exactly when the effects that are needed are those of
blocks and a search over the blocks in order does not come to an effect that it is working on. -/
theorem lowerMethod_implements_iff {m : Method} {b : Builder} {g : Graph} {e e' : Emission} {f : Function}
    (hb : Builder.Built m b) (hg : b.finish = .ok g) (hthrow : g.NoThrow) (hpinned : g.PinnedDominateUses)
    (hf : lowerMethod g e = .ok f e') :
    f.Implements g ↔ g.EffectsOnChains ∧ ∃ (order : List BlockId) (known : Set NodeId),
      f.blocks.map (·.label) = order.map blockLabel ∧ g.Visits [] ∅ (order.flatMap g.endInputs) known := by
  have hwf := hb.wellFormed hg
  obtain ⟨s, order, h, hl⟩ := Lowering.lowerMethod_eq_ok hwf hf
  have hu : g.Usable := hl.usable hwf hthrow fun n a c _ hv hp huse hc => by
    obtain ⟨v, hk⟩ := Graph.isValue_iff.1 hv
    exact hpinned n v a c hk hp huse hc
  have hlabels : f.blocks.map (·.label) = order.map blockLabel := by
    rw [hl.blocks, List.map_map]
    rfl
  rw [hl.implements_iff hwf hthrow hu, hlabels]
  refine and_congr_right fun _ => ⟨fun ⟨known, hv⟩ => ⟨order, known, rfl, hv⟩, ?_⟩
  rintro ⟨order', known, heq, hv⟩
  cases List.map_injective_iff.2 (fun _ _ => blockLabel_injective) heq
  exact ⟨known, hv⟩

namespace Example

def lister : Method := ⟨"zoo/List", "last", ⟨[.object "zoo/Node"], .void⟩, { isStatic := true }, true⟩

/-- Goes to the end of a list: `while (p != null) p = p.next`. -/
def walking : Builder := Request.applyAll (.start lister) [.newBlock "loop", .newBlock "body", .newBlock "exit",
  .parameter 0 .reference, .nullLiteral, .goto 1,
  .begin 1, .phi .reference, .cmp .ne 7 5, .ifThenElse 8 2 3,
  .begin 2, .load 7 .reference .plain, .addPhiInput 7 0 4, .addPhiInput 7 2 10, .goto 1,
  .begin 3, .returnVoid]

/-- The same with the test last: `do p = p.next while (p != null)`. -/
def chasing : Builder := Request.applyAll (.start lister) [.newBlock "loop", .newBlock "exit",
  .parameter 0 .reference, .nullLiteral, .goto 1,
  .begin 1, .phi .reference, .load 6 .reference .plain, .cmp .ne 7 4, .addPhiInput 6 0 3, .addPhiInput 6 1 7,
  .ifThenElse 8 1 2, .begin 2, .returnVoid]

def effectCounts (g : Graph) : List (String × Nat) :=
  match lowerMethod g output with
  | .ok f _ => f.effectCounts
  | .error _ _ => []

theorem exists_of_effectCounts {g : Graph} {p : String × Nat} {ps : List (String × Nat)}
    (hcounts : effectCounts g = p :: ps) : ∃ f e, lowerMethod g output = .ok f e ∧ f.effectCounts = p :: ps := by
  rw [effectCounts] at hcounts
  cases hf : lowerMethod g output with
  | error err e =>
      rw [hf] at hcounts
      cases hcounts
  | ok f e =>
      rw [hf] at hcounts
      exact ⟨f, e, rfl, hcounts⟩

theorem walking_built : Builder.Built lister walking := .applyAll .start _

theorem walking_finish : walking.finish = .ok walking.graph := Builder.finish_of_matches (by cbv)

theorem lowerMethod_implements_walking : ∃ f e, lowerMethod walking.graph output = .ok f e ∧
    f.Implements walking.graph := by
  have hwf := walking_built.wellFormed walking_finish
  have hpinned := Graph.pinnedDominateUses_of_placesOperands hwf
    (fun n => [0, 1, 2, 3, 0, 1, 0, 1, 1, 1, 2, 2, 3].getD n 0) (by cbv)
  have hcounts : effectCounts walking.graph = [("b0", 0), ("b1", 0), ("b2", 1), ("b3", 0)] := by cbv
  obtain ⟨f, e, hf, hblocks⟩ := exists_of_effectCounts hcounts
  have hlabels : f.blocks.map (·.label) = [0, 1, 2, 3].map blockLabel := by
    have hfst := congrArg (List.map Prod.fst) hblocks
    rw [Function.effectCounts, List.map_map] at hfst
    exact hfst
  have hvisit : walking.graph.visit 30 [] [] ([0, 1, 2, 3].flatMap walking.graph.endInputs) =
      some [3, 8, 5, 10, 2, 4, 7, 1, 0] := by cbv
  have hvisits := Graph.visits_of_visit hvisit
  rw [show {n | n ∈ ([] : List NodeId)} = (∅ : Set NodeId) by simp] at hvisits
  exact ⟨f, e, hf, (lowerMethod_implements_iff walking_built walking_finish (Graph.noThrow_of_all (by cbv)) hpinned
    hf).2 ⟨Graph.effectsOnChains_of_all hwf (by cbv), [0, 1, 2, 3], _, hlabels, hvisits⟩⟩

theorem chasing_built : Builder.Built lister chasing := .applyAll .start _

theorem chasing_finish : chasing.finish = .ok chasing.graph := Builder.finish_of_matches (by cbv)

/-- The load of a loop with the test last is emitted twice. -/
theorem not_lowerMethod_implements_chasing : Builder.Built lister chasing ∧ chasing.finish = .ok chasing.graph ∧
    chasing.graph.NoThrow ∧ chasing.graph.PinnedDominateUses ∧
      ∃ f e, lowerMethod chasing.graph output = .ok f e ∧ ¬ f.Implements chasing.graph := by
  have hwf := chasing_built.wellFormed chasing_finish
  have hpinned := Graph.pinnedDominateUses_of_placesOperands hwf
    (fun n => [0, 1, 2, 0, 1, 0, 1, 1, 1, 1, 2].getD n 0) (by cbv)
  have hcounts : effectCounts chasing.graph = [("b0", 0), ("b1", 2), ("b2", 0)] := by cbv
  obtain ⟨f, e, hf, hblocks⟩ := exists_of_effectCounts hcounts
  refine ⟨chasing_built, chasing_finish, Graph.noThrow_of_all (by cbv), hpinned, f, e, hf, fun himplements => ?_⟩
  have hmem : chasing.graph.reachable.contains 1 = true := by cbv
  have hreach : chasing.graph.Reaches 1 := (Graph.mem_reachable hwf).1 (List.contains_iff_mem.1 hmem)
  have hcount := himplements.mem_effectCounts hreach
  have hchain : (chasing.graph.chain 1).length = 1 := by cbv
  rw [hblocks, hchain] at hcount
  exact absurd hcount (by decide)

end Example

end NativeBackend
