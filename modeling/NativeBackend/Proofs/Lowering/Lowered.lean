import Mathlib.Data.List.Perm.Subperm
import NativeBackend.Proofs.Lowering.LowerMethod

namespace NativeBackend.Lowering

/-- What holds when an event comes after others. -/
inductive Guard (x : LoweringInput) (h : List Event) : Event → Prop where
  | entered {n : NodeId} {b : BlockId} : ¬ Done h n → x.graph.kind? n = some (.action (.blockEntry b)) →
      Guard x h (.entered n)
  | bound {n : NodeId} {o : Operand} : ¬ Done h n → Immediate x.graph n o → Guard x h (.bound n o)
  | emit {n : NodeId} {e : Event} : Emits x h n e → (∀ i ∈ x.graph.inputs n, Done h i) → Guard x h e
  | phi {n : NodeId} {type : Ty} {table : PhiId} {t : IrType} {l : Local} : ¬ Done h n →
      x.graph.kind? n = some (.value ⟨type, .phi table⟩) → type.target = .ok t → Guard x h (.phi n l t)
  | incoming {n v : NodeId} {predecessor : BlockId} {o : Operand} :
      (predecessor, v) ∈ x.graph.phiInputs x.schedule.reachable n → Bound h v o →
      Guard x h (.incoming n predecessor o)
  | ended {b : BlockId} {n : NodeId} {t : TerminatorNode} {t' : Terminator} : x.graph.terminator b = .ok n →
      x.graph.kind? n = some (.terminator t) → Ends x.graph (Bound h) t t' → (∀ i ∈ t.inputs, Done h i) →
      Guard x h (.terminated n t.successors t')
  | thrown {b : BlockId} {n value dependency : NodeId} {handler : Option BlockId} :
      x.graph.terminator b = .ok n →
      x.graph.kind? n = some (.terminator (.throw value handler dependency)) →
      Guard x h (.terminated n [] .unreachable)

def Valid (x : LoweringInput) : List Event → List Event → Prop
  | _, [] => True
  | h, e :: w => Guard x h e ∧ Valid x (h ++ [e]) w

variable {x : LoweringInput} {h w w' : List Event} {ts : List Task} {bs : List BlockId} {n : NodeId}

theorem valid_append : Valid x h (w ++ w') ↔ Valid x h w ∧ Valid x (h ++ w) w' := by
  induction w generalizing h with
  | nil => simp [Valid]
  | cons e w ih => simp [Valid, ih, and_assoc]

theorem Valid.guard (hv : Valid x h w) {before after : List Event} {e : Event} (hw : w = before ++ e :: after) :
    Guard x (h ++ before) e := by
  subst hw
  exact (valid_append.1 hv).2.1

theorem Valid.of_isPrefix {before : List Event} (hv : Valid x [] h) (hpre : before <+: h) : Valid x [] before := by
  obtain ⟨after, rfl⟩ := hpre
  exact (valid_append.1 hv).1

theorem Valid.guard_of_isPrefix {before : List Event} {e : Event} (hv : Valid x [] h) (hpre : before ++ [e] <+: h) :
    Guard x before e := by
  obtain ⟨after, rfl⟩ := hpre
  simpa using hv.guard (List.append_assoc before [e] after)

theorem Lowers.valid (hl : Lowers x h ts w) : Valid x h w := by
  induction hl with
  | nil => trivial
  | known _ _ ih => exact ih
  | entered hn hk _ ih => exact ⟨.entered hn hk, ih⟩
  | bound hn ho _ ih => exact ⟨.bound hn ho, ih⟩
  | emit hn hin he _ ih ih' =>
      refine valid_append.2 ⟨ih, .emit he fun i hi => hin.done (List.mem_map_of_mem hi), ?_⟩
      simpa using ih'
  | late _ _ _ _ _ _ ih ih' => exact valid_append.2 ⟨ih, ih'⟩
  | phi hn hk ht _ _ ih ih' =>
      refine ⟨.phi hn hk ht, valid_append.2 ⟨ih, ?_⟩⟩
      simpa using ih'
  | incoming hv _ ho _ ih ih' =>
      refine valid_append.2 ⟨ih, .incoming hv ho, ?_⟩
      simpa using ih'

theorem LowersBlocks.valid (hl : LowersBlocks x h bs w) : Valid x h w := by
  induction hl with
  | nil => trivial
  | ended _ hterm hk hl he _ ih =>
      refine valid_append.2 ⟨hl.valid, .ended hterm hk he fun i hi => hl.done (List.mem_map_of_mem hi), ?_⟩
      simpa using ih
  | thrown _ hterm hk _ ih => exact ⟨.thrown hterm hk, ih⟩

theorem Guard.blocks_lt (hg : x.graph.WellFormed) (hs : Schedule.Spec x.graph x.schedule) {e : Event}
    (he : Guard x h e) {b : BlockId} (hb : b ∈ e.blocks x) : b < x.graph.blocks.size := by
  cases he with
  | entered | bound => cases hb
  | emit he =>
      cases he with
      | value | action =>
          rw [List.mem_singleton.1 hb]
          exact hs.blockOf_lt hg _
  | phi =>
      rw [List.mem_singleton.1 hb]
      exact hs.blockOf_lt hg _
  | incoming hv =>
      rw [List.mem_singleton.1 hb]
      have hmem := (Graph.mem_phiInputs.1 hv).1
      rw [hs.reachable] at hmem
      exact ((Graph.mem_reachable hg).1 hmem).lt hg
  | ended _ hk =>
      rcases List.mem_cons.1 hb with rfl | hb
      · exact hs.blockOf_lt hg _
      · obtain ⟨node, hn, hk⟩ := Option.map_eq_some_iff.1 hk
        exact (hg.node _ node hn).targets _ hk b hb
  | thrown =>
      rw [List.mem_singleton.1 hb]
      exact hs.blockOf_lt hg _

theorem Valid.exists_guard (hv : Valid x h w) {e : Event} (he : e ∈ w) :
    ∃ before, before <+: h ++ w ∧ Guard x before e := by
  obtain ⟨before, after, hw⟩ := List.append_of_mem he
  refine ⟨h ++ before, ?_, hv.guard hw⟩
  rw [hw]
  exact ⟨e :: after, by simp⟩

theorem Guard.terminated {targets : List BlockId} {t' : Terminator}
    (he : Guard x h (.terminated n targets t')) : ∃ b, x.graph.terminator b = .ok n ∧
      ((∃ t, x.graph.kind? n = some (.terminator t) ∧ targets = t.successors ∧ Ends x.graph (Bound h) t t' ∧
        ∀ i ∈ t.inputs, Done h i) ∨
      ∃ value handler dependency,
        x.graph.kind? n = some (.terminator (.throw value handler dependency))) := by
  generalize heq : Event.terminated n targets t' = e at he
  cases he with
  | ended hn hk he hin =>
      cases heq
      exact ⟨_, hn, .inl ⟨_, hk, rfl, he, hin⟩⟩
  | thrown hn hk =>
      cases heq
      exact ⟨_, hn, .inr ⟨_, _, _, hk⟩⟩
  | emit hem => cases hem <;> cases heq
  | entered | bound | phi | incoming => cases heq

structure Lowered (x : LoweringInput) (f : Function) (order : List BlockId) (h : List Event) : Prop where
  schedule : Schedule.compute x.graph = .ok x.schedule
  blocks : f.blocks = order.map (render x h)
  lowers : LowersBlocks x [] order h
  nodup : order.Nodup
  mem : ∀ b, b ∈ order ↔ Mentioned x h b
  head : order.head? = some x.graph.entry
  isValue : ∀ n o, Bound h n o → x.graph.isValue n = true ∧ x.graph.Legal n
  isAction : ∀ e ∈ h, ∀ n, e.effect? = some n → x.graph.isValue n = false
  params : f.signature.params.length = x.graph.method.functionType.params.length
  locals : ∃ k, h.filterMap Event.local? =
    (List.range' x.graph.method.functionType.params.length k).map Local.mk
  phis : (h.filterMap Event.phi?).Nodup
  incoming : ∀ n predecessor o, .incoming n predecessor o ∈ h → ∃ l t, .phi n l t ∈ h

theorem length_mapM_target {types : List Ty} {ts : List IrType} (hts : types.mapM Ty.target = .ok ts) :
    ts.length = types.length := by
  induction types generalizing ts with
  | nil =>
      cases hts
      rfl
  | cons type types ih =>
      rw [List.mapM_cons] at hts
      cases ht : type.target with
      | error e =>
          rw [ht] at hts
          cases hts
      | ok t =>
          cases hrest : types.mapM Ty.target with
          | error e =>
              rw [ht, hrest] at hts
              cases hts
          | ok rest =>
              rw [ht, hrest] at hts
              cases hts
              rw [List.length_cons, List.length_cons, ih hrest]

theorem length_params_target {f : FunctionType} {s : Signature} (hs : f.target = .ok s) :
    s.params.length = f.params.length := by
  rw [FunctionType.target] at hs
  cases hparams : f.params.mapM Ty.target with
  | error e =>
      rw [hparams] at hs
      cases hs
  | ok params =>
      cases hreturns : f.returns.target with
      | error e =>
          rw [hparams, hreturns] at hs
          cases hs
      | ok returns =>
          rw [hparams, hreturns] at hs
          cases hs
          exact length_mapM_target hparams

theorem reflects_start (x : LoweringInput) (e : Emission) :
    Reflects x [] { emission := e, blocks := ensure x.graph.entry []
                    nextLocal := x.graph.method.functionType.params.length } := by
  have hempty : Filled x [] (fun _ => False) [] :=
    ⟨List.nodup_nil, by simp [keys], by simp, by simp⟩
  refine ⟨(hempty.ensure x.graph.entry).congr fun c => ?_, ?_, ?_, by simp, ?_, by simp, ⟨0, rfl, rfl⟩, by simp,
    by simp⟩
  · simp [Mentioned]
  · intro n o ho
    simp at ho
  · rintro n - o ⟨e, he, -⟩
    cases he
  · rintro n o ⟨e, he, -⟩
    cases he

theorem Filled.map_snd {present : BlockId → Prop} {blocks : List (BlockId × BasicBlock)}
    (hf : Filled x h present blocks) : blocks.map (·.2) = (keys blocks).map (render x h) := by
  rw [keys, List.map_map]
  exact List.map_congr_left fun p hp => hf.content p.1 p.2 hp

theorem lowerGraph_eq_ok (hg : x.graph.WellFormed) (hschedule : Schedule.compute x.graph = .ok x.schedule)
    {e : Emission} {s' : LoweringState}
    (hgraph : lowerGraph x { emission := e, nextLocal := x.graph.method.functionType.params.length } = .ok ⟨⟩ s') :
    ∃ h, Does x [] h { emission := e, blocks := ensure x.graph.entry []
                       nextLocal := x.graph.method.functionType.params.length } s' ∧
      LowersBlocks x [] (keys s'.blocks) h ∧ (keys s'.blocks).length ≤ x.graph.blocks.size := by
  rw [lowerGraph, Steps.bind_of_ok (discover_apply _ _)] at hgraph
  obtain ⟨h, hd, hl⟩ := lowerBlocks_eq_ok (lowerValue_lowers x (maxDepth x.graph)) (reflects_start x e) hgraph
  have hr' : Reflects x h s' := by simpa using hd.reflects
  have hspec := Schedule.compute_spec hg hschedule
  have hlt : ∀ b ∈ keys s'.blocks, b < x.graph.blocks.size := by
    intro b hb
    rcases (hr'.blocks.mem b).1 hb with rfl | ⟨ev, hev, hb⟩
    · exact hg.entry
    · obtain ⟨before, -, hguard⟩ := hl.valid.exists_guard hev
      exact hguard.blocks_lt hg hspec hb
  have hsize : (keys s'.blocks).length ≤ x.graph.blocks.size := by
    have hsubset : keys s'.blocks ⊆ List.range x.graph.blocks.size := fun b hb => List.mem_range.2 (hlt b hb)
    simpa using (hr'.blocks.nodup.subperm hsubset).length_le
  rw [List.drop_zero, List.take_of_length_le hsize] at hl
  exact ⟨h, hd, hl, hsize⟩

theorem lowerMethod_of_schedule {g : Graph} {signature : Signature} {s : Schedule}
    (hsignature : g.method.functionType.target = .ok signature) (hschedule : Schedule.compute g = .ok s) :
    lowerMethod g = fun e =>
      match lowerGraph ⟨g, s⟩ { emission := e, nextLocal := signature.params.length } with
      | .ok _ s => .ok ⟨g.method.symbol, signature, s.blocks.map (·.2), s.nextLocal⟩ s.emission
      | .error err s => .error err s.emission := by
  funext e
  cases hgraph : lowerGraph ⟨g, s⟩ { emission := e, nextLocal := signature.params.length } with
  | ok _ s' => simp only [lowerMethod, hsignature, hschedule, hgraph]
  | error err s' => simp only [lowerMethod, hsignature, hschedule, hgraph]

theorem exists_lowerGraph {g : Graph} {e e' : Emission} {f : Function} (hf : lowerMethod g e = .ok f e') :
    ∃ signature s s', g.method.functionType.target = .ok signature ∧ Schedule.compute g = .ok s ∧
      lowerGraph ⟨g, s⟩ { emission := e, nextLocal := g.method.functionType.params.length } = .ok ⟨⟩ s' ∧
      f = ⟨g.method.symbol, signature, s'.blocks.map (·.2), s'.nextLocal⟩ ∧ e' = s'.emission := by
  cases hsignature : g.method.functionType.target with
  | error err =>
      rw [lowerMethod, hsignature] at hf
      cases hf
  | ok signature =>
      cases hschedule : Schedule.compute g with
      | error err =>
          rw [lowerMethod, hsignature, hschedule] at hf
          cases hf
      | ok s =>
          rw [lowerMethod_of_schedule hsignature hschedule] at hf
          dsimp only at hf
          split at hf
          case h_2 => cases hf
          case h_1 s' hgraph =>
            cases hf
            rw [length_params_target hsignature] at hgraph
            exact ⟨signature, s, s', rfl, rfl, hgraph, rfl, rfl⟩

theorem Does.lowered {signature : Signature} {e : Emission} {s' : LoweringState}
    (hd : Does x [] h { emission := e, blocks := ensure x.graph.entry []
                        nextLocal := x.graph.method.functionType.params.length } s')
    (hl : LowersBlocks x [] (keys s'.blocks) h) (hschedule : Schedule.compute x.graph = .ok x.schedule)
    (hsignature : x.graph.method.functionType.target = .ok signature) :
    Lowered x ⟨x.graph.method.symbol, signature, s'.blocks.map (·.2), s'.nextLocal⟩ (keys s'.blocks) h := by
  have hr' : Reflects x h s' := by simpa using hd.reflects
  refine ⟨hschedule, hr'.blocks.map_snd, hl, hr'.blocks.nodup, hr'.blocks.mem, ?_, hr'.isValue, hr'.isAction,
    length_params_target hsignature, ?_, hr'.phis, hr'.incoming⟩
  · obtain ⟨more, hmore⟩ := hd.grows
    rw [← hmore]
    rfl
  · obtain ⟨k, hk, -⟩ := hr'.locals
    exact ⟨k, hk⟩

/-- Lowering a method is a run over the blocks that it finds. -/
theorem lowerMethod_eq_ok {g : Graph} (hg : g.WellFormed) {e e' : Emission} {f : Function}
    (hf : lowerMethod g e = .ok f e') : ∃ s order h, Lowered ⟨g, s⟩ f order h := by
  obtain ⟨signature, s, s', hsignature, hschedule, hgraph, rfl, -⟩ := exists_lowerGraph hf
  obtain ⟨h, hd, hl, -⟩ := lowerGraph_eq_ok (x := ⟨g, s⟩) hg hschedule hgraph
  exact ⟨s, _, h, hd.lowered hl hschedule hsignature⟩

end NativeBackend.Lowering
