import NativeBackend.Proofs.Lowering.Complete

namespace NativeBackend.Lowering

def Event.emitted? (g : Graph) : Event → Option NodeId
  | .computed n _ | .performed n _ => if g.isEffect n then some n else none
  | _ => none

def emitted (g : Graph) (w : List Event) : List NodeId := w.filterMap (Event.emitted? g)

def Task.target : Task → NodeId
  | .need n => n
  | .incoming _ _ v => v

variable {x : LoweringInput} {g : Graph} {h w w' : List Event} {ts : List Task} {bs : List BlockId} {n m : NodeId}

@[simp]
theorem emitted_append : emitted g (w ++ w') = emitted g w ++ emitted g w' := List.filterMap_append

@[simp]
theorem emitted_nil : emitted g [] = [] := rfl

theorem emitted_cons (e : Event) : emitted g (e :: w) = (e.emitted? g).toList ++ emitted g w := by
  rw [emitted, List.filterMap_cons]
  cases e.emitted? g <;> rfl

theorem Event.emitted?_eq_some {e : Event} :
    e.emitted? g = some n ↔ g.isEffect n = true ∧ ∃ i, e = .computed n i ∨ e = .performed n i := by
  cases e with
  | computed m i | performed m i =>
      simp only [emitted?, Option.ite_none_right_eq_some, Option.some.injEq]
      constructor
      · rintro ⟨heffect, rfl⟩
        exact ⟨heffect, i, by simp⟩
      · rintro ⟨heffect, i', heq | heq⟩ <;> cases heq
        exact ⟨heffect, rfl⟩
  | entered | bound | phi | incoming | terminated => simp [emitted?]

theorem mem_emitted : n ∈ emitted g w ↔
    g.isEffect n = true ∧ ∃ i, .computed n i ∈ w ∨ .performed n i ∈ w := by
  rw [emitted, List.mem_filterMap]
  simp only [Event.emitted?_eq_some]
  constructor
  · rintro ⟨e, he, heffect, i, rfl | rfl⟩
    · exact ⟨heffect, i, .inl he⟩
    · exact ⟨heffect, i, .inr he⟩
  · rintro ⟨heffect, i, he | he⟩
    · exact ⟨_, he, heffect, i, .inl rfl⟩
    · exact ⟨_, he, heffect, i, .inr rfl⟩

theorem done_append : Done (h ++ w) n ↔ Done h n ∨ Done w n := by
  simp only [Done, bound_append, List.mem_append, or_and_right, exists_or]
  exact or_or_or_comm

theorem done_singleton {e : Event} : Done [e] n ↔ e.effect? = some n ∨ ∃ o, e.operand? = some (n, o) := by
  simp only [Done, bound_singleton, List.mem_singleton, exists_eq_left]

theorem not_done_nil : ¬ Done [] n := by
  rintro (⟨e, he, -⟩ | ⟨o, e, he, -⟩) <;> cases he

theorem Emits.done_singleton {e : Event} (he : Emits x h m e) : Done [e] n ↔ n = m := by
  rw [Lowering.done_singleton]
  cases he <;> simp [Event.effect?, Event.operand?, eq_comm]

theorem Emits.phi?_eq_none {e : Event} (he : Emits x h n e) : x.graph.phi? n = none := by
  cases hp : x.graph.phi? n with
  | none => rfl
  | some p =>
      obtain ⟨type, table, hk, -⟩ := Graph.phi?_eq_some hp
      cases he with
      | value _ _ hi | action _ hi => exact absurd hk hi.not_phi

theorem Emits.emitted? {e : Event} (he : Emits x h n e) :
    e.emitted? x.graph = if x.graph.isEffect n then some n else none := by
  cases he <;> rfl

theorem Immediate.isEffect {o : Operand} (ho : Immediate g n o) : g.isEffect n = false := by
  cases ho with
  | literal hk | parameter hk | pointerLiteral hk | catchException hk =>
      rw [Graph.isEffect, hk]
      rfl

theorem isEffect_of_phi {type : Ty} {table : PhiId} (hk : g.kind? n = some (.value ⟨type, .phi table⟩)) :
    g.isEffect n = false := by
  rw [Graph.isEffect, hk]
  rfl

theorem isEffect_of_marker {b : BlockId} (hk : g.kind? n = some (.action (.blockEntry b))) :
    g.isEffect n = false := by
  rw [Graph.isEffect, hk]
  rfl

theorem Valid.done_effect (hv : Valid x h w) (hn : x.graph.isEffect n = true) :
    Done (h ++ w) n ↔ Done h n ∨ n ∈ emitted x.graph w := by
  rw [done_append]
  refine or_congr_right ⟨?_, ?_⟩
  · have hemitted : ∀ e ∈ w, e.effect? = some n ∨ (∃ o, e.operand? = some (n, o)) → n ∈ emitted x.graph w := by
      intro e he hen
      obtain ⟨before, -, hguard⟩ := hv.exists_guard he
      cases hguard with
      | entered _ hk =>
          simp only [Event.effect?, Event.operand?, Option.some.injEq, reduceCtorEq, exists_false, or_false] at hen
          rw [← hen, isEffect_of_marker hk] at hn
          cases hn
      | bound _ ho =>
          simp only [Event.effect?, Event.operand?, Option.some.injEq, Prod.mk.injEq, reduceCtorEq, false_or,
            exists_and_left, exists_eq', and_true] at hen
          rw [← hen, ho.isEffect] at hn
          cases hn
      | phi _ hk =>
          simp only [Event.effect?, Event.operand?, Option.some.injEq, Prod.mk.injEq, reduceCtorEq, false_or,
            exists_and_left, exists_eq', and_true] at hen
          rw [← hen, isEffect_of_phi hk] at hn
          cases hn
      | emit hem =>
          have hnode := hem.done_singleton.1 (Lowering.done_singleton.2 hen)
          subst hnode
          refine List.mem_filterMap.2 ⟨e, he, ?_⟩
          rw [hem.emitted?, if_pos hn]
      | incoming | ended | thrown => simp [Event.effect?, Event.operand?] at hen
    rintro (⟨e, he, hen⟩ | ⟨o, e, he, hen⟩)
    · exact hemitted e he (.inl hen)
    · exact hemitted e he (.inr ⟨o, hen⟩)
  · intro hmem
    obtain ⟨-, i, he | he⟩ := mem_emitted.1 hmem
    · exact .inr ⟨_, _, he, rfl⟩
    · exact .inl ⟨_, he, rfl⟩

theorem phi?_eq_none_of_marker {b : BlockId} (hk : g.kind? n = some (.action (.blockEntry b))) :
    g.phi? n = none := by
  rw [Graph.phi?, hk]

theorem Immediate.phi?_eq_none {o : Operand} (ho : Immediate g n o) : g.phi? n = none := by
  cases ho with
  | literal hk | parameter hk | pointerLiteral hk | catchException hk => rw [Graph.phi?, hk]

theorem inputs_of_phi?_ne_none (hphi : g.phi? n ≠ none) : g.inputs n = [] := by
  obtain ⟨p, hp⟩ := Option.ne_none_iff_exists'.1 hphi
  obtain ⟨type, table, hk, -⟩ := Graph.phi?_eq_some hp
  exact Graph.inputs_of_kind hk

theorem emitted_done (hn : n ∈ emitted g w) : Done w n := by
  obtain ⟨-, i, he | he⟩ := mem_emitted.1 hn
  · exact .inr ⟨_, _, he, rfl⟩
  · exact .inl ⟨_, he, rfl⟩

@[simp]
theorem map_target_need (ns : List NodeId) : (ns.map Task.need).map Task.target = ns := by
  rw [List.map_map]
  exact List.map_id ns

theorem notMem_emitted (hn : g.isEffect n = false) : n ∉ emitted g w := by
  intro hmem
  rw [(mem_emitted.1 hmem).1] at hn
  cases hn

def doneAfter (h : List Event) : Set NodeId := {n | Done h n}

theorem mem_doneAfter : n ∈ doneAfter h ↔ Done h n := Iff.rfl

theorem doneAfter_nil : doneAfter [] = ∅ := Set.eq_empty_iff_forall_notMem.2 fun _ => not_done_nil

theorem doneAfter_snoc {e : Event} (he : ∀ m, Done [e] m ↔ m = n) :
    doneAfter (h ++ [e]) = insert n (doneAfter h) := by
  ext m
  exact (done_append.trans (or_congr_right (he m))).trans or_comm

theorem doneAfter_snoc_of_not {e : Event} (he : ∀ m, ¬ Done [e] m) : doneAfter (h ++ [e]) = doneAfter h := by
  ext m
  exact done_append.trans (or_iff_left (he m))

theorem done_entered : Done [.entered n] m ↔ m = n := by
  simp [done_singleton, Event.effect?, Event.operand?, eq_comm]

theorem done_bound {o : Operand} : Done [.bound n o] m ↔ m = n := by
  simp [done_singleton, Event.effect?, Event.operand?, eq_comm]

theorem done_phi {l : Local} {t : IrType} : Done [.phi n l t] m ↔ m = n := by
  simp [done_singleton, Event.effect?, Event.operand?, eq_comm]

theorem not_done_incoming {predecessor : BlockId} {o : Operand} : ¬ Done [.incoming n predecessor o] m := by
  simp [done_singleton, Event.effect?, Event.operand?]

theorem not_done_terminated {targets : List BlockId} {t : Terminator} : ¬ Done [.terminated n targets t] m := by
  simp [done_singleton, Event.effect?, Event.operand?]

/-- Events that emit no effect twice, none that is done, and none that is being worked off. -/
structure EmitsOnce (x : LoweringInput) (active : List NodeId) (h w : List Event) : Prop where
  nodup : (emitted x.graph w).Nodup
  inactive : ∀ n ∈ emitted x.graph w, n ∉ active
  fresh : ∀ n ∈ emitted x.graph w, ¬ Done h n

section

variable {active : List NodeId} {e : Event}

theorem EmitsOnce.of_silent (hw : emitted x.graph w = []) : EmitsOnce x active h w := by
  constructor <;> simp [hw]

theorem EmitsOnce.of_cons (ho : EmitsOnce x (n :: active) h w) : EmitsOnce x active h w :=
  ⟨ho.nodup, fun m hm ha => ho.inactive m hm (List.mem_cons_of_mem _ ha), ho.fresh⟩

theorem EmitsOnce.cons (ho : EmitsOnce x active h w) (hn : n ∉ emitted x.graph w) :
    EmitsOnce x (n :: active) h w := by
  refine ⟨ho.nodup, fun m hm ha => ?_, ho.fresh⟩
  rcases List.mem_cons.1 ha with rfl | ha
  · exact hn hm
  · exact ho.inactive m hm ha

theorem emitsOnce_append (hv : Valid x h w) :
    EmitsOnce x active h (w ++ w') ↔ EmitsOnce x active h w ∧ EmitsOnce x active (h ++ w) w' := by
  constructor
  · rintro ⟨hnodup, hinactive, hfresh⟩
    rw [emitted_append] at hnodup hinactive hfresh
    obtain ⟨hnodup, hnodup', hdisjoint⟩ := List.nodup_append.1 hnodup
    refine ⟨⟨hnodup, fun n hn => hinactive n (List.mem_append_left _ hn),
      fun n hn => hfresh n (List.mem_append_left _ hn)⟩,
      ⟨hnodup', fun n hn => hinactive n (List.mem_append_right _ hn), fun n hn hd => ?_⟩⟩
    rcases (hv.done_effect (mem_emitted.1 hn).1).1 hd with hd | hmem
    · exact hfresh n (List.mem_append_right _ hn) hd
    · exact hdisjoint n hmem n hn rfl
  · rintro ⟨ho, ho'⟩
    constructor
    · rw [emitted_append]
      refine List.nodup_append.2 ⟨ho.nodup, ho'.nodup, ?_⟩
      rintro n hn m hm rfl
      exact ho'.fresh n hm (done_append.2 (.inr (emitted_done hn)))
    · intro n hn
      rw [emitted_append] at hn
      exact (List.mem_append.1 hn).elim (ho.inactive n) (ho'.inactive n)
    · intro n hn hd
      rw [emitted_append] at hn
      rcases List.mem_append.1 hn with hn | hn
      · exact ho.fresh n hn hd
      · exact ho'.fresh n hn (hd.append w)

theorem emitsOnce_cons (he : Guard x h e) (hsilent : e.emitted? x.graph = none) :
    EmitsOnce x active h (e :: w) ↔ EmitsOnce x active (h ++ [e]) w := by
  have hv : Valid x h [e] := ⟨he, trivial⟩
  have hone : EmitsOnce x active h [e] := .of_silent (by simp [emitted_cons, hsilent])
  exact (emitsOnce_append hv).trans (and_iff_right hone)

theorem emitsOnce_snoc (hv : Valid x h w) (he : Emits x (h ++ w) n e) (hnot : ¬ Done h n) :
    EmitsOnce x active h (w ++ [e]) ↔
      (x.graph.isEffect n = true → n ∉ active) ∧ EmitsOnce x (n :: active) h w := by
  rw [emitsOnce_append hv]
  cases heffect : x.graph.isEffect n with
  | false =>
      have hone : emitted x.graph [e] = [] := by simp [emitted_cons, he.emitted?, heffect]
      exact ⟨fun ⟨ho, _⟩ => ⟨nofun, ho.cons (notMem_emitted heffect)⟩, fun ⟨_, ho⟩ => ⟨ho.of_cons, .of_silent hone⟩⟩
  | true =>
      have hone : emitted x.graph [e] = [n] := by simp [emitted_cons, he.emitted?, heffect]
      have hn : n ∈ emitted x.graph [e] := hone ▸ List.mem_singleton_self n
      constructor
      · rintro ⟨ho, ho'⟩
        refine ⟨fun _ => ho'.inactive n hn, ho.cons fun hmem => ?_⟩
        exact ho'.fresh n hn (done_append.2 (.inr (emitted_done hmem)))
      · rintro ⟨hactive, ho⟩
        refine ⟨ho.of_cons, by simp [hone], ?_, ?_⟩
        · simpa [hone] using hactive rfl
        · intro m hm hd
          cases List.mem_singleton.1 (hone ▸ hm)
          rcases (hv.done_effect heffect).1 hd with hd | hmem
          · exact hnot hd
          · exact ho.inactive n hmem List.mem_cons_self

end

theorem Emits.not_marker {e : Event} (he : Emits x h n e) {b : BlockId} :
    x.graph.kind? n ≠ some (.action (.blockEntry b)) := by
  intro hk
  cases he with
  | value hk' => simp_all
  | action _ hi => cases hi <;> simp_all

theorem Guard.emits {e : Event} (he : Guard x h e) (hn : e.emitted? x.graph = some n) :
    Emits x h n e ∧ ∀ i ∈ x.graph.inputs n, Done h i := by
  cases he with
  | @emit m _ hem hin =>
      rw [hem.emitted?, Option.ite_none_right_eq_some] at hn
      cases hn.2
      exact ⟨hem, hin⟩
  | entered | bound | phi | incoming | ended | thrown => cases hn

theorem Valid.exists_done_before (hv : Valid x h w) (hn : n ∈ emitted x.graph w) :
    ∃ before e after, w = before ++ e :: after ∧ e.emitted? x.graph = some n ∧ Emits x (h ++ before) n e ∧
      ∀ i ∈ x.graph.inputs n, Done (h ++ before) i := by
  obtain ⟨e, he, hen⟩ := List.mem_filterMap.1 hn
  obtain ⟨before, after, rfl⟩ := List.append_of_mem he
  exact ⟨before, e, after, rfl, hen, (hv.guard rfl).emits hen⟩

theorem Lowers.notMem_emitted_of_dependency (hg : x.graph.WellFormed) {d : NodeId}
    (hl : Lowers x h [.need d] w) (hd : (x.graph.kind? n).bind (·.effectDependency?) = some d)
    (hnodup : (emitted x.graph w).Nodup) : n ∉ emitted x.graph w := by
  induction d using Nat.strongRecOn generalizing n w with
  | ind d ih =>
      intro hmem
      have hinputs := Graph.dependency_mem_inputs hd
      have hlt : d < n := (Graph.input_lt hg hinputs).1
      cases hl with
      | known _ hnil =>
          cases hnil
          cases hmem
      | entered _ _ hnil | bound _ _ hnil =>
          cases hnil
          cases hmem
      | phi _ hk =>
          rcases Graph.marker_or_effect hg hd with ⟨b, hb⟩ | heffect
          · rw [hk] at hb
            cases hb
          · rw [isEffect_of_phi hk] at heffect
            cases heffect
      | @emit _ u _ _ e _ hnot hin he hnil =>
          cases hnil
          have heffect : x.graph.isEffect d = true :=
            (Graph.marker_or_effect hg hd).resolve_left fun ⟨b, hb⟩ => he.not_marker hb
          have hlast : emitted x.graph [e] = [d] := by
            rw [emitted_cons, he.emitted?, if_pos heffect]
            rfl
          rw [emitted_append, hlast] at hmem hnodup
          have hu := (List.mem_append.1 hmem).resolve_right fun hn =>
            absurd (List.mem_singleton.1 hn) (Nat.ne_of_gt hlt)
          obtain ⟨before, e', after, rfl, -, -, hdone⟩ := hin.valid.exists_done_before hu
          have hbefore := (valid_append.1 hin.valid).1
          have hdmem := ((hbefore.done_effect heffect).1 (hdone d hinputs)).resolve_left hnot
          refine (List.nodup_append.1 hnodup).2.2 d ?_ d (List.mem_singleton_self d) rfl
          rw [emitted_append]
          exact List.mem_append_left _ hdmem
      | @late _ u _ _ inputs _ hnot hpre hlen hin hdone hnil =>
          cases hnil
          rw [List.append_nil] at hmem hnodup
          cases inputs with
          | nil =>
              cases hin
              cases hmem
          | cons d' rest =>
              have heffect : x.graph.isEffect d = true := by
                refine (Graph.marker_or_effect hg hd).resolve_left ?_
                rintro ⟨b, hb⟩
                rw [Graph.inputs_of_kind hb] at hpre
                exact absurd hpre.length_le (by simp [NodeKind.inputs, ActionNode.inputs])
              obtain ⟨c, hc⟩ := Graph.isEffect_iff.1 heffect
              obtain ⟨others, hothers⟩ := Graph.exists_inputs_eq hc
              rw [hothers, List.cons_prefix_cons] at hpre
              obtain ⟨rfl, -⟩ := hpre
              have hrest : rest = [] := List.eq_nil_of_length_eq_zero (by simpa using hlen heffect)
              subst hrest
              refine ih _ (Graph.input_lt hg (Graph.dependency_mem_inputs hc)).1 hin hc hnodup ?_
              exact ((hin.valid.done_effect heffect).1 hdone).resolve_left hnot

theorem Lowers.late_not_effect (hg : x.graph.WellFormed) {inputs : List NodeId}
    (hl : Lowers x h (inputs.map .need) w) (hnot : ¬ Done h n) (hdone : Done (h ++ w) n)
    (hpre : inputs <+: x.graph.inputs n) (hlen : x.graph.isEffect n = true → inputs.length ≤ 1)
    (hnodup : (emitted x.graph w).Nodup) : x.graph.isEffect n = false := by
  by_contra heffect
  rw [Bool.not_eq_false] at heffect
  have hmem := ((hl.valid.done_effect heffect).1 hdone).resolve_left hnot
  obtain ⟨d, hd⟩ := Graph.isEffect_iff.1 heffect
  obtain ⟨others, hothers⟩ := Graph.exists_inputs_eq hd
  cases inputs with
  | nil =>
      cases hl
      cases hmem
  | cons d' rest =>
      rw [hothers, List.cons_prefix_cons] at hpre
      obtain ⟨rfl, -⟩ := hpre
      cases List.eq_nil_of_length_eq_zero (show rest.length = 0 by simpa using hlen heffect)
      exact hl.notMem_emitted_of_dependency hg hd hnodup hmem

/-- A search over the targets of tasks does not come to an effect that it is working on exactly when the
tasks emit every effect once, and then it knows what is done. -/
theorem Lowers.visits_iff (hg : x.graph.WellFormed) (hreachable : x.schedule.reachable = x.graph.reachable)
    (hl : Lowers x h ts w) {active : List NodeId} {known : Set NodeId} :
    x.graph.Visits active (doneAfter h) (ts.map Task.target) known ↔
      EmitsOnce x active h w ∧ known = doneAfter (h ++ w) := by
  induction hl generalizing active known with
  | nil =>
      rw [List.map_nil, Graph.Visits.nil_iff, List.append_nil]
      exact (and_iff_right (.of_silent rfl)).symm
  | known hd _ ih =>
      rw [List.map_cons, Task.target, Graph.Visits.known_iff (mem_doneAfter.2 hd)]
      exact ih
  | @entered h w n b ts hnot hk _ ih =>
      have hin : x.graph.inputs n = [] := by simp [Graph.inputs_of_kind hk, NodeKind.inputs, ActionNode.inputs]
      rw [List.map_cons, Task.target, Graph.Visits.leaf_iff (mt mem_doneAfter.1 hnot) (phi?_eq_none_of_marker hk)
        (isEffect_of_marker hk) hin, ← doneAfter_snoc fun _ => done_entered, ih,
        emitsOnce_cons (.entered hnot hk) rfl, ← List.append_cons]
  | @bound h w n o ts hnot ho _ ih =>
      rw [List.map_cons, Task.target, Graph.Visits.leaf_iff (mt mem_doneAfter.1 hnot) ho.phi?_eq_none ho.isEffect
        ho.inputs, ← doneAfter_snoc fun _ => done_bound, ih, emitsOnce_cons (.bound hnot ho) rfl,
        ← List.append_cons]
  | @emit h w w' n e ts hnot hl he _ ih ih' =>
      rw [map_target_need] at ih
      have hv : Valid x h (w ++ [e]) :=
        valid_append.2 ⟨hl.valid, .emit he fun i hi => hl.done (List.mem_map_of_mem hi), trivial⟩
      rw [List.map_cons, Task.target, Graph.Visits.node_iff (mt mem_doneAfter.1 hnot) he.phi?_eq_none,
        List.append_cons w, emitsOnce_append hv, emitsOnce_snoc hl.valid he hnot]
      have hdone : doneAfter (h ++ w ++ [e]) = insert n (doneAfter (h ++ w)) :=
        doneAfter_snoc fun _ => he.done_singleton
      simp only [ih, and_assoc, exists_and_left, exists_eq_left]
      rw [← hdone, ih', List.append_assoc, List.append_assoc]
  | @late h w w' n inputs ts hnot hpre hlen hl hd hl' ih ih' =>
      rw [map_target_need] at ih
      have hdw : Done w n := (done_append.1 hd).resolve_left hnot
      have hphi : x.graph.phi? n = none := by
        by_contra hsome
        rw [inputs_of_phi?_ne_none hsome, List.prefix_nil] at hpre
        subst hpre
        cases hl
        exact not_done_nil hdw
      obtain ⟨rest, hinputs⟩ := hpre
      have hrest : ∀ i ∈ rest, i ∈ doneAfter (h ++ w) := fun i hi =>
        hl.valid.inputs_done hdw i (hinputs ▸ List.mem_append_right _ hi)
      have hmem : insert n (doneAfter (h ++ w)) = doneAfter (h ++ w) := Set.insert_eq_of_mem hd
      have hnodup : (emitted x.graph w).Nodup → x.graph.isEffect n = false :=
        hl.late_not_effect hg hnot hd ⟨rest, hinputs⟩ hlen
      rw [List.map_cons, Task.target, Graph.Visits.node_iff (mt mem_doneAfter.1 hnot) hphi, ← hinputs,
        emitsOnce_append hl.valid]
      constructor
      · rintro ⟨-, known', hin, hrest'⟩
        obtain ⟨known₁, hin, hin'⟩ := hin.split
        obtain ⟨honce, rfl⟩ := ih.1 hin
        cases (Graph.Visits.of_known_iff hrest).1 hin'
        rw [hmem] at hrest'
        obtain ⟨honce', rfl⟩ := ih'.1 hrest'
        exact ⟨⟨honce.of_cons, honce'⟩, by simp⟩
      · rintro ⟨⟨honce, honce'⟩, rfl⟩
        have heffect := hnodup honce.nodup
        refine ⟨fun h => absurd (heffect.symm.trans h) Bool.false_ne_true, doneAfter (h ++ w), ?_, ?_⟩
        · exact (ih.2 ⟨honce.cons (notMem_emitted heffect), rfl⟩).append ((Graph.Visits.of_known_iff hrest).2 rfl)
        · rw [hmem]
          exact ih'.2 ⟨honce', by simp⟩
  | @phi h w w' n table type t l ts hnot hk ht hl hl' ih ih' =>
      obtain ⟨p, hp, -⟩ := Graph.phi?_of_kind hg hk
      have hv : Valid x h (.phi n l t :: w) := ⟨.phi hnot hk ht, hl.valid⟩
      have hinputs : (phiTasks x n).map Task.target = (x.graph.phiInputs x.graph.reachable n).map (·.2) := by
        rw [phiTasks, List.map_map, hreachable]
        rfl
      rw [List.map_cons, Task.target, Graph.Visits.phi_iff (mt mem_doneAfter.1 hnot) (by simp [hp]),
        ← doneAfter_snoc (e := .phi n l t) fun _ => done_phi, ← hinputs, emitsOnce_append hv,
        emitsOnce_cons (.phi hnot hk ht) rfl]
      simp only [ih, and_assoc, exists_and_left, exists_eq_left]
      rw [← List.append_cons, ih', List.append_assoc]
  | @incoming h w w' n v predecessor o ts hv hl ho hl' ih ih' =>
      rw [List.map_singleton, Task.target] at ih
      have hvalid : Valid x h (w ++ [.incoming n predecessor o]) := valid_append.2 ⟨hl.valid, .incoming hv ho, trivial⟩
      have hdone : doneAfter (h ++ w ++ [.incoming n predecessor o]) = doneAfter (h ++ w) :=
        doneAfter_snoc_of_not fun _ => not_done_incoming
      rw [List.map_cons, Task.target, ← List.singleton_append, Graph.Visits.append_iff, List.append_cons w,
        emitsOnce_append hvalid, emitsOnce_append hl.valid]
      simp only [ih, and_assoc, exists_and_left, exists_eq_left]
      rw [← hdone, ih', List.append_assoc, List.append_assoc]
      exact and_congr_right fun _ => (and_iff_right (.of_silent rfl)).symm

theorem endInputs_eq {b : BlockId} {t : TerminatorNode} (hn : g.terminator b = .ok n)
    (hk : g.kind? n = some (.terminator t)) : g.endInputs b = t.inputs := by
  rw [Graph.endInputs, hn]
  exact Graph.inputs_of_kind hk

theorem LowersBlocks.visits_iff (hg : x.graph.WellFormed) (hreachable : x.schedule.reachable = x.graph.reachable)
    (hthrow : x.graph.NoThrow) (hl : LowersBlocks x h bs w) (hbs : ∀ b ∈ bs, x.graph.Reaches b)
    {known : Set NodeId} :
    x.graph.Visits [] (doneAfter h) (bs.flatMap x.graph.endInputs) known ↔
      EmitsOnce x [] h w ∧ known = doneAfter (h ++ w) := by
  induction hl generalizing known with
  | nil =>
      rw [List.flatMap_nil, Graph.Visits.nil_iff, List.append_nil]
      exact (and_iff_right (.of_silent rfl)).symm
  | @ended h w w' b bs n t t' _ hn hk hl he _ ih =>
      have hin := fun known => @Lowers.visits_iff x h w _ hg hreachable hl [] known
      rw [map_target_need] at hin
      have hv : Valid x h (w ++ [.terminated n t.successors t']) :=
        valid_append.2 ⟨hl.valid, .ended hn hk he fun i hi => hl.done (List.mem_map_of_mem hi), trivial⟩
      have hdone : doneAfter (h ++ w ++ [.terminated n t.successors t']) = doneAfter (h ++ w) :=
        doneAfter_snoc_of_not fun _ => not_done_terminated
      replace ih := fun known => @ih (fun c hc => hbs c (List.mem_cons_of_mem _ hc)) known
      rw [List.flatMap_cons, endInputs_eq hn hk, Graph.Visits.append_iff, List.append_cons w, emitsOnce_append hv,
        emitsOnce_append hl.valid]
      simp only [hin, and_assoc, exists_and_left, exists_eq_left]
      rw [← hdone, ih, List.append_assoc, List.append_assoc]
      exact and_congr_right fun _ => (and_iff_right (.of_silent rfl)).symm
  | thrown _ hn hk _ _ => exact absurd hk (hthrow _ _ _ _ _ (hbs _ List.mem_cons_self) hn)

/-- Effects are emitted once exactly when a search over the blocks in order does not come to an effect that
it is working on. -/
theorem Lowered.nodup_emitted_iff {f : Function} {order : List BlockId} (hl : Lowered x f order h)
    (hg : x.graph.WellFormed) (hthrow : x.graph.NoThrow) (hu : x.graph.Usable) :
    (emitted x.graph h).Nodup ↔ ∃ known, x.graph.Visits [] ∅ (order.flatMap x.graph.endInputs) known := by
  have hs := hl.spec hg
  have hbs : ∀ b ∈ order, x.graph.Reaches b := fun b hb => (hl.mem_iff_reaches hg hthrow hu).1 hb
  rw [← doneAfter_nil]
  simp only [hl.lowers.visits_iff hg hs.reachable hthrow hbs]
  constructor
  · exact fun hnodup => ⟨_, ⟨hnodup, fun _ _ => List.not_mem_nil, fun _ _ => not_done_nil⟩, rfl⟩
  · rintro ⟨known, honce, -⟩
    exact honce.nodup

end NativeBackend.Lowering
