import NativeBackend.Proofs.Ir.Ssa
import NativeBackend.Proofs.Lowering.Complete

namespace NativeBackend

namespace Function

structure Follows (g : Graph) (b : BlockId) (block : BasicBlock) : Prop where
  label : block.label = blockLabel b
  terminator : ∃ t, block.terminator = some t ∧ t.labels = (g.successors b).map blockLabel

def Covers (f : Function) (g : Graph) : Prop :=
  (f.blocks.map (·.label)).Nodup ∧ ∃ order : List BlockId, order.Nodup ∧ order.head? = some g.entry ∧
    (∀ b, b ∈ order ↔ g.Reaches b) ∧ List.Forall₂ (Follows g) order f.blocks

end Function

theorem blockLabel_injective {b c : BlockId} (h : blockLabel b = blockLabel c) : b = c := by
  have hrepr : Nat.repr b = Nat.repr c := (String.append_right_inj _).1 h
  have hdigits : Nat.toDigits 10 b = Nat.toDigits 10 c := by
    rw [← Nat.toList_repr, ← Nat.toList_repr, hrepr]
  rw [← Nat.ofDigitChars_ten_toDigits (n := b), hdigits, Nat.ofDigitChars_ten_toDigits]

namespace Lowering

variable {x : LoweringInput} {h before : List Event} {b c : BlockId} {n : NodeId} {l : Local}

def Event.defAt (x : LoweringInput) (b : BlockId) : Event → Option Local
  | .computed n i | .performed n i => if x.schedule.blockOf n = b then i.result? else none
  | .phi n l _ => if x.schedule.blockOf n = b then some l else none
  | _ => none

theorem Event.local?_of_defAt {e : Event} (he : e.defAt x b = some l) :
    e.local? = some l ∧ x.schedule.blockOf e.node = b := by
  cases e with
  | computed n i | performed n i | phi n l' t =>
      simp only [defAt, Option.ite_none_right_eq_some] at he
      exact ⟨he.2, he.1⟩
  | entered | bound | incoming | terminated => cases he

theorem phis_render : (render x h b).phis.map (·.result) =
    h.filterMap fun e => (e.phiAt x b).map (·.2.1) := by
  simp only [render, List.map_filterMap, Option.map_map]
  rfl

theorem results_render : (render x h b).instructions.filterMap (·.result?) =
    h.filterMap fun e => (e.instructionAt x b).bind (·.result?) := by
  simp only [render, List.filterMap_filterMap]

theorem mem_defs_render : l ∈ (render x h b).defs ↔ ∃ e ∈ h, e.defAt x b = some l := by
  rw [BasicBlock.defs, List.mem_append, phis_render, results_render, List.mem_filterMap, List.mem_filterMap,
    ← exists_or]
  refine exists_congr fun e => ?_
  cases e with
  | computed n i | performed n i | phi n l' t =>
      by_cases hb : x.schedule.blockOf n = b <;>
        simp [Event.phiAt, Event.instructionAt, Event.defAt, hb]
  | entered | bound | incoming | terminated =>
      simp [Event.phiAt, Event.instructionAt, Event.defAt]

namespace Lowered

variable {f : Function} {order : List BlockId}

theorem nodup_locals (hl : Lowered x f order h) : (h.filterMap Event.local?).Nodup := by
  obtain ⟨k, hk⟩ := hl.locals
  rw [hk]
  refine List.Nodup.map (fun i j hij => ?_) List.nodup_range'
  cases hij
  rfl

theorem eq_of_local (hl : Lowered x f order h) {e e' : Event} (he : e ∈ h) (he' : e' ∈ h)
    (hlocal : e.local? = some l) (hlocal' : e'.local? = some l) : e = e' :=
  Lists.eq_of_nodup_filterMap hl.nodup_locals he he' hlocal hlocal'

theorem mem_params (hl : Lowered x f order h) :
    l ∈ f.params ↔ l.index < x.graph.method.functionType.params.length := by
  rw [Function.params, hl.params, List.mem_map]
  constructor
  · rintro ⟨i, hi, rfl⟩
    exact List.mem_range.1 hi
  · intro hlt
    exact ⟨l.index, List.mem_range.2 hlt, rfl⟩

theorem notMem_params (hl : Lowered x f order h) {e : Event} (he : e ∈ h) (hlocal : e.local? = some l) :
    l ∉ f.params := by
  obtain ⟨k, hk⟩ := hl.locals
  have hmem : l ∈ h.filterMap Event.local? := List.mem_filterMap.2 ⟨e, he, hlocal⟩
  rw [hk] at hmem
  obtain ⟨i, hi, rfl⟩ := List.mem_map.1 hmem
  have hle := (List.mem_range'_1.1 hi).1
  rw [hl.mem_params]
  exact Nat.not_lt.2 hle

theorem nodup_defs (hl : Lowered x f order h) (b : BlockId) : (render x h b).defs.Nodup := by
  have hphi : ∀ (e : Event) (l : Local), (e.phiAt x b).map (·.2.1) = some l → e.local? = some l := by
    intro e l he
    cases e with
    | phi n l' t =>
        by_cases hb : x.schedule.blockOf n = b
        · simpa [Event.phiAt, Event.local?, hb] using he
        · simp [Event.phiAt, hb] at he
    | _ => cases he
  have hinstruction : ∀ (e : Event) (l : Local), (e.instructionAt x b).bind (·.result?) = some l →
      e.local? = some l := by
    intro e l he
    cases e with
    | computed n i | performed n i =>
        by_cases hb : x.schedule.blockOf n = b
        · simpa [Event.instructionAt, Event.local?, hb] using he
        · simp [Event.instructionAt, hb] at he
    | _ => cases he
  rw [BasicBlock.defs, phis_render, results_render]
  refine List.nodup_append.2 ⟨hl.nodup_locals.sublist (Lists.filterMap_sublist hphi h),
    hl.nodup_locals.sublist (Lists.filterMap_sublist hinstruction h), ?_⟩
  rintro l hl₁ l' hl₂ rfl
  obtain ⟨e, he, hdef⟩ := List.mem_filterMap.1 hl₁
  obtain ⟨e', he', hdef'⟩ := List.mem_filterMap.1 hl₂
  cases hl.eq_of_local he he' (hphi e l hdef) (hinstruction e' l hdef')
  cases e with
  | phi => cases hdef'
  | _ => cases hdef

theorem nodup_params_defs (hl : Lowered x f order h) : (f.params ++ f.blocks.flatMap (·.defs)).Nodup := by
  rw [hl.blocks, List.flatMap_map]
  have hparams : f.params.Nodup := by
    refine List.Nodup.map (fun i j hij => ?_) List.nodup_range
    cases hij
    rfl
  refine List.nodup_append.2 ⟨hparams, List.nodup_flatMap.2 ⟨fun b _ => hl.nodup_defs b, ?_⟩, ?_⟩
  · refine hl.nodup.imp fun {b c} hne => ?_
    intro l hb hc
    obtain ⟨e, he, hdef⟩ := mem_defs_render.1 hb
    obtain ⟨e', he', hdef'⟩ := mem_defs_render.1 hc
    obtain ⟨hlocal, hblock⟩ := Event.local?_of_defAt hdef
    obtain ⟨hlocal', hblock'⟩ := Event.local?_of_defAt hdef'
    cases hl.eq_of_local he he' hlocal hlocal'
    exact hne (hblock.symm.trans hblock')
  · rintro l hparam l' hmem rfl
    obtain ⟨b, -, hb⟩ := List.mem_flatMap.1 hmem
    obtain ⟨e, he, hdef⟩ := mem_defs_render.1 hb
    exact hl.notMem_params he (Event.local?_of_defAt hdef).1 hparam

theorem defined_of_bound (hl : Lowered x f order h) (hpre : before <+: h) (hb : Bound before n (.ofLocal l)) :
    l ∈ f.params ∨ ∃ e ∈ before, e.defAt x (x.schedule.blockOf n) = some l := by
  obtain ⟨e, he, hop⟩ := hb
  cases e with
  | bound m o =>
      cases hop
      obtain ⟨_, -, hguard⟩ := hl.exists_guard (hpre.subset he)
      cases hguard with
      | bound _ ho =>
          cases ho with
          | parameter _ hlt => exact .inl (hl.mem_params.2 hlt)
      | emit hem => cases hem
  | computed m i =>
      refine .inr ⟨_, he, ?_⟩
      have hgives : i.gives = .ofLocal l := congrArg Prod.snd (Option.some.inj hop)
      cases congrArg Prod.fst (Option.some.inj hop)
      rw [Instruction.gives] at hgives
      cases hresult : i.result? with
      | none => simp [hresult] at hgives
      | some l' =>
          rw [hresult] at hgives
          cases hgives
          simp [Event.defAt, hresult]
  | phi m l' t =>
      cases hop
      exact .inr ⟨_, he, by simp [Event.defAt]⟩
  | entered | performed | incoming | terminated => cases hop

theorem render_mem (hl : Lowered x f order h) (hb : b ∈ order) : render x h b ∈ f.blocks := by
  rw [hl.blocks]
  exact List.mem_map_of_mem hb

theorem exists_of_mem_blocks (hl : Lowered x f order h) {block : BasicBlock} (hmem : block ∈ f.blocks) :
    ∃ b ∈ order, block = render x h b := by
  rw [hl.blocks] at hmem
  obtain ⟨b, hb, rfl⟩ := List.mem_map.1 hmem
  exact ⟨b, hb, rfl⟩

theorem exists_terminator (hl : Lowered x f order h) (hg : x.graph.WellFormed) (hthrow : x.graph.NoThrow)
    (hb : x.graph.Reaches b) : ∃ n t t' before, before <+: h ∧ x.graph.terminator b = .ok n ∧
      x.graph.kind? n = some (.terminator t) ∧ (render x h b).terminator = some t' ∧
      Ends x.graph (Bound before) t t' := by
  have hs := hl.spec hg
  have hblock : ∀ {c : BlockId} {m : NodeId}, x.graph.terminator c = .ok m → x.schedule.blockOf m = c := by
    intro c m hm
    obtain ⟨node, t, hnode, -, hpinned⟩ := Graph.terminator_eq_ok hg hm
    exact hs.blockOf_of_pinned ((Graph.pinned?_of_getElem? hnode).trans hpinned)
  obtain ⟨n, t, t', hn, hk, hmem⟩ := hl.ended hthrow (hl.mem_of_reaches hthrow hb) hb
  cases hfind : h.findSome? (Event.terminatorAt x b) with
  | none =>
      have hnone := List.findSome?_eq_none_iff.1 hfind _ hmem
      rw [Event.terminatorAt, if_pos (hblock hn)] at hnone
      cases hnone
  | some u' =>
      obtain ⟨e, he, hat⟩ := List.exists_of_findSome?_eq_some hfind
      cases e with
      | terminated m targets u'' =>
          obtain ⟨hm, heq⟩ := Option.ite_none_right_eq_some.1 hat
          cases heq
          obtain ⟨before, hpre, hguard⟩ := hl.exists_guard he
          obtain ⟨c, hc, ⟨u, hk', -, hends, -⟩ | ⟨value, handler, dependency, hk'⟩⟩ := hguard.terminated
          · cases (hblock hc).symm.trans hm
            rw [hn] at hc
            cases hc
            rw [hk] at hk'
            cases hk'
            exact ⟨n, t, u', before, hpre, hn, hk, hfind, hends⟩
          · cases (hblock hc).symm.trans hm
            exact absurd hk' (hthrow b _ _ _ _ hb hc)
      | _ => cases hat

theorem follows (hl : Lowered x f order h) (hg : x.graph.WellFormed) (hthrow : x.graph.NoThrow)
    (hb : x.graph.Reaches b) : Function.Follows x.graph b (render x h b) := by
  obtain ⟨n, t, t', before, -, hn, hk, ht', he⟩ := hl.exists_terminator hg hthrow hb
  refine ⟨rfl, t', ht', ?_⟩
  rw [he.labels, Graph.successors_of_terminator hn hk]

theorem covers (hl : Lowered x f order h) (hg : x.graph.WellFormed) (hthrow : x.graph.NoThrow)
    (hu : x.graph.Usable) : f.Covers x.graph := by
  refine ⟨?_, order, hl.nodup, hl.head, fun b => hl.mem_iff_reaches hg hthrow hu, ?_⟩
  · rw [hl.blocks, List.map_map]
    exact hl.nodup.map fun b c hbc => blockLabel_injective hbc
  · rw [hl.blocks, List.forall₂_map_right_iff, List.forall₂_same]
    exact fun b hb => hl.follows hg hthrow ((hl.mem_iff_reaches hg hthrow hu).1 hb)

theorem entryLabel (hl : Lowered x f order h) : f.entryLabel = blockLabel x.graph.entry := by
  rw [Function.entryLabel, hl.blocks, List.head?_map, hl.head]
  rfl

theorem flow_next (hl : Lowered x f order h) (hg : x.graph.WellFormed) (hthrow : x.graph.NoThrow)
    (hb : x.graph.Reaches b) {label : String} :
    f.flow.next (blockLabel b) label ↔ ∃ c ∈ x.graph.successors b, blockLabel c = label := by
  obtain ⟨-, t, ht, hlabels⟩ := hl.follows hg hthrow hb
  rw [← List.mem_map, ← hlabels]
  constructor
  · rintro ⟨block, hmem, heq, t', ht', hlabel⟩
    obtain ⟨c, -, rfl⟩ := hl.exists_of_mem_blocks hmem
    cases blockLabel_injective heq
    rw [ht] at ht'
    cases ht'
    exact hlabel
  · intro hlabel
    exact ⟨_, hl.render_mem (hl.mem_of_reaches hthrow hb), rfl, t, ht, hlabel⟩

theorem flow_dominates (hl : Lowered x f order h) (hg : x.graph.WellFormed) (hthrow : x.graph.NoThrow)
    (hbc : x.graph.Dominates b c) : f.flow.Dominates (blockLabel b) (blockLabel c) := by
  refine Flow.Dominates.rename (f := x.graph.flow) hl.entryLabel (fun _ _ => blockLabel_injective) ?_ hbc
  intro d hd label hnext
  obtain ⟨c, hc, rfl⟩ := (hl.flow_next hg hthrow (Graph.reaches_iff_path.2 hd)).1 hnext
  exact ⟨c, rfl, hc⟩

/-- What stands for a node is there at the end of the blocks that the node's block dominates. -/
theorem definedAtEnd (hl : Lowered x f order h) (hg : x.graph.WellFormed) (hthrow : x.graph.NoThrow)
    (hu : x.graph.Usable) (hpre : before <+: h) (hb : Bound before n (.ofLocal l)) (hn : x.graph.Needed n)
    (hdom : x.graph.Dominates (x.schedule.blockOf n) b) : f.DefinedAtEnd l (blockLabel b) := by
  have hs := hl.spec hg
  refine (hl.defined_of_bound hpre hb).imp_right ?_
  rintro ⟨e, he, hdef⟩
  exact ⟨_, hl.render_mem (hl.mem_of_reaches hthrow (hs.reaches_blockOf hg hu hn)),
    hl.flow_dominates hg hthrow hdom, mem_defs_render.2 ⟨e, hpre.subset he, hdef⟩⟩

theorem mem_before {e : Event} (he : e ∈ before) (hpre : before <+: h) (hdef : e.defAt x b = some l) :
    l ∈ (render x h b).phis.map (·.result) ∨
      l ∈ (before.filterMap (Event.instructionAt x b)).filterMap (·.result?) := by
  rw [phis_render, List.filterMap_filterMap]
  cases e with
  | phi m l' t =>
      refine .inl (List.mem_filterMap.2 ⟨_, hpre.subset he, ?_⟩)
      simp only [Event.defAt, Option.ite_none_right_eq_some] at hdef
      simp [Event.phiAt, hdef.1, Option.some.inj hdef.2]
  | computed m i | performed m i =>
      refine .inr (List.mem_filterMap.2 ⟨_, he, ?_⟩)
      simp only [Event.defAt, Option.ite_none_right_eq_some] at hdef
      simp [Event.instructionAt, hdef.1, hdef.2]
  | _ => cases hdef

theorem instruction_defined (hl : Lowered x f order h) (hg : x.graph.WellFormed) (hthrow : x.graph.NoThrow)
    (hu : x.graph.Usable) {e : Event} (hpre : before ++ [e] <+: h) {i : Instruction}
    (hat : e.instructionAt x b = some i) (ho : .ofLocal l ∈ i.operands) :
    f.DefinedAbove l (blockLabel b) ∨ l ∈ (render x h b).phis.map (·.result) ∨
      l ∈ (before.filterMap (Event.instructionAt x b)).filterMap (·.result?) := by
  have hs := hl.spec hg
  obtain ⟨after, hafter⟩ := hpre
  have hbefore : before <+: h := ⟨e :: after, by simpa using hafter⟩
  have he : e ∈ h := hafter ▸ (by simp)
  have hguard : Guard x before e := hl.valid.guard (show h = before ++ e :: after by simpa using hafter.symm)
  have hselects : x.schedule.blockOf e.node = b ∧ Selects x.graph (Bound before) e.node i := by
    cases hguard with
    | emit hem =>
        cases hem with
        | value _ _ hi | action _ hi =>
            obtain ⟨hblock, heq⟩ := Option.ite_none_right_eq_some.1 hat
            cases heq
            exact ⟨hblock, hi⟩
    | entered | bound | phi | incoming | ended | thrown => cases hat
  obtain ⟨rfl, hselects⟩ := hselects
  rcases hselects.operands ho with ⟨m, hm, hb⟩ | ⟨c, hc⟩
  · have hn := hl.needed hg hu he
    rcases hl.defined_of_bound hbefore hb with hparam | ⟨e', he', hdef⟩
    · exact .inl (.inl hparam)
    · have hdom := hs.operand_dominates hg hu hn hm
      by_cases hsame : x.schedule.blockOf m = x.schedule.blockOf e.node
      · rw [hsame] at hdef
        exact .inr (mem_before he' hbefore hdef)
      · refine .inl (.inr ⟨_, hl.render_mem (hl.mem_of_reaches hthrow ?_), ?_, hl.flow_dominates hg hthrow hdom,
          mem_defs_render.2 ⟨e', hbefore.subset he', hdef⟩⟩)
        · exact hs.reaches_blockOf hg hu (hn.input hm)
        · exact fun heq => hsame (blockLabel_injective heq)
  · cases hc

theorem ssa (hl : Lowered x f order h) (hg : x.graph.WellFormed) (hthrow : x.graph.NoThrow)
    (hu : x.graph.Usable) : f.Ssa where
  nodup := hl.nodup_params_defs
  instructions := by
    intro block hmem front i rest heq l ho
    obtain ⟨b, hb, rfl⟩ := hl.exists_of_mem_blocks hmem
    obtain ⟨h₁, h₂, hh, hfront, hrest⟩ := List.filterMap_eq_append_iff.1 heq
    obtain ⟨h₃, e, h₄, rfl, hnone, hat, -⟩ := List.filterMap_eq_cons_iff.1 hrest
    have hpre : h₁ ++ h₃ ++ [e] <+: h := ⟨h₄, by simp [hh]⟩
    have hfront' : (h₁ ++ h₃).filterMap (Event.instructionAt x b) = front := by
      rw [List.filterMap_append, hfront, List.filterMap_eq_nil_iff.2 hnone, List.append_nil]
    rw [← hfront']
    exact hl.instruction_defined hg hthrow hu hpre hat ho
  terminator := by
    intro block hmem t' ht' l ho
    have hs := hl.spec hg
    obtain ⟨b, hb, rfl⟩ := hl.exists_of_mem_blocks hmem
    have hreach := (hl.mem_iff_reaches hg hthrow hu).1 hb
    obtain ⟨n, t, u', before, hpre, hn, hk, hu', hends⟩ := hl.exists_terminator hg hthrow hreach
    rw [hu'] at ht'
    cases ht'
    obtain ⟨m, hm, hbound⟩ := hends.operands ho
    have hneeded : x.graph.Needed n := .terminator hreach hn
    have hm : m ∈ x.graph.inputs n := (Graph.inputs_of_kind hk).symm ▸ hm
    have hdom := hs.operand_dominates hg hu hneeded hm
    obtain ⟨node, -, hnode, -, hpinned⟩ := Graph.terminator_eq_ok hg hn
    rw [hs.blockOf_of_pinned ((Graph.pinned?_of_getElem? hnode).trans hpinned)] at hdom
    exact hl.definedAtEnd hg hthrow hu hpre hbound (hneeded.input hm) hdom
  phis := by
    intro block hmem p hp o label hin
    have hs := hl.spec hg
    obtain ⟨b, hb, rfl⟩ := hl.exists_of_mem_blocks hmem
    obtain ⟨⟨n, l', t⟩, -, rfl⟩ := List.mem_map.1 hp
    obtain ⟨e, he, hcontribution⟩ := List.mem_filterMap.1 hin
    cases e with
    | incoming m predecessor o' =>
        obtain ⟨rfl, heq⟩ := Option.ite_none_right_eq_some.1 hcontribution
        cases heq
        obtain ⟨before, hpre, hguard⟩ := hl.exists_guard he
        cases hguard with
        | @incoming _ v _ _ hv hbound =>
            rw [hs.reachable] at hv
            have hneeded : x.graph.Needed m := hl.needed hg hu he
            have hreach := (Graph.mem_reachable hg).1 (Graph.mem_phiInputs.1 hv).1
            refine ⟨List.mem_map.2 ⟨_, hl.render_mem (hl.mem_of_reaches hthrow hreach), rfl⟩, ?_⟩
            rintro l rfl
            exact hl.definedAtEnd hg hthrow hu hpre hbound (hneeded.phiInput hv)
              (hs.phiInput_dominates hg hu hneeded hv)
        | emit hem => cases hem
    | _ => cases hcontribution

end Lowered

end Lowering

/-- Lowering gives the blocks that the entry leads to, in static single assignment form. -/
theorem lowerMethod_ssa {m : Method} {b : Builder} {g : Graph} {e e' : Emission} {f : Function}
    (hb : Builder.Built m b) (hg : b.finish = .ok g) (hthrow : g.NoThrow) (hpinned : g.PinnedDominateUses)
    (hf : lowerMethod g e = .ok f e') : f.Covers g ∧ f.Ssa := by
  have hwf := hb.wellFormed hg
  obtain ⟨s, order, h, hl⟩ := Lowering.lowerMethod_eq_ok hwf hf
  have hu : g.Usable := hl.usable hwf hthrow fun n a c _ hv hp huse hc => by
    obtain ⟨v, hk⟩ := Graph.isValue_iff.1 hv
    exact hpinned n v a c hk hp huse hc
  exact ⟨hl.covers hwf hthrow hu, hl.ssa hwf hthrow hu⟩

namespace Example

/-- Counts to a bound: `do i++ while (i < n)`. -/
def counter : Method := ⟨"zoo/Counter", "count", ⟨[.int], .int⟩, { isStatic := true }, true⟩

def int : Ty := .integer .signed 4

def counting : Builder := Request.applyAll (.start counter) [.newBlock "loop", .newBlock "exit",
  .parameter 0 int, .intLiteral int 0, .intLiteral int 1, .goto 1,
  .begin 1, .phi int, .binary .add 7 5, .cmp .lt 8 3, .addPhiInput 7 0 4, .addPhiInput 7 1 8, .ifThenElse 9 1 2,
  .begin 2, .returnValue 8]

def output : Emission where
  tables := { live := .everything, pointerSize := 8, typeIdSize := 4 }
  module := { name := "zoo", pie := false }

theorem counting_built : Builder.Built counter counting := .applyAll .start _

theorem counting_finish : counting.finish = .ok counting.graph := Builder.finish_of_matches (by cbv)

theorem counting_noThrow : counting.graph.NoThrow := Graph.noThrow_of_all (by cbv)

theorem counting_pinnedDominateUses : counting.graph.PinnedDominateUses :=
  Graph.pinnedDominateUses_of_placesOperands (counting_built.wellFormed counting_finish)
    (fun n => [0, 1, 2, 0, 0, 0, 0, 1, 1, 1, 1, 2].getD n 0) (by cbv)

theorem counting_lowers : ∃ f e, lowerMethod counting.graph output = .ok f e ∧
    f.blocks.map (·.label) = ["b0", "b1", "b2"] := by
  have hlabels : (Steps.answer? (lowerMethod counting.graph output)).map (fun f => f.blocks.map (·.label)) =
      some ["b0", "b1", "b2"] := by cbv
  exact Steps.map_answer?_eq_some.1 hlabels

theorem lowerMethod_ssa_of_counting : ∃ f e, lowerMethod counting.graph output = .ok f e ∧
    f.Covers counting.graph ∧ f.Ssa := by
  obtain ⟨f, e, hf, -⟩ := counting_lowers
  exact ⟨f, e, hf, lowerMethod_ssa counting_built counting_finish counting_noThrow counting_pinnedDominateUses hf⟩

end Example

end NativeBackend
