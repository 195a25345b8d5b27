import NativeBackend.Proofs.Lowering.Lowered

namespace NativeBackend

def Graph.NoThrow (g : Graph) : Prop :=
  ∀ (b : BlockId) (n value dependency : NodeId) (handler : Option BlockId), g.Reaches b →
    g.terminator b = .ok n → g.kind? n ≠ some (.terminator (.throw value handler dependency))

theorem Graph.noThrow_of_all {g : Graph}
    (hall : g.nodes.all (fun x => !(x.kind matches .terminator (.throw ..))) = true) : g.NoThrow := by
  intro b n value dependency handler _ _ hk
  obtain ⟨x, hx, hkind⟩ := Option.map_eq_some_iff.1 hk
  obtain ⟨hlt, rfl⟩ := Array.getElem?_eq_some_iff.1 hx
  have := Array.all_eq_true.1 hall n hlt
  simp [hkind] at this

theorem Graph.successors_of_terminator {g : Graph} {b : BlockId} {n : NodeId} {t : TerminatorNode}
    (hn : g.terminator b = .ok n) (hk : g.kind? n = some (.terminator t)) : g.successors b = t.successors := by
  rw [terminator] at hn
  rw [successors]
  cases hb : g.blocks[b]?.bind (·.terminator) with
  | none =>
      rw [hb] at hn
      cases hn
  | some m =>
      rw [hb] at hn
      cases hn
      rw [Option.bind_some, hk]

namespace Lowering

variable {x : LoweringInput} {h w : List Event} {ts : List Task} {bs : List BlockId} {n : NodeId}

theorem Lowers.incoming_of_task (hl : Lowers x h ts w) {v : NodeId} {predecessor : BlockId}
    (hmem : .incoming n predecessor v ∈ ts) :
    ∃ o, .incoming n predecessor o ∈ w ∧ Bound (h ++ w) v o := by
  induction hl with
  | nil => cases hmem
  | known _ _ ih =>
      rcases List.mem_cons.1 hmem with heq | hmem
      · cases heq
      · exact ih hmem
  | entered _ _ _ ih | bound _ _ _ ih =>
      rcases List.mem_cons.1 hmem with heq | hmem
      · cases heq
      · obtain ⟨o, ho, hb⟩ := ih hmem
        exact ⟨o, List.mem_cons_of_mem _ ho, by simpa using hb⟩
  | emit _ _ _ _ _ ih =>
      rcases List.mem_cons.1 hmem with heq | hmem
      · cases heq
      · obtain ⟨o, ho, hb⟩ := ih hmem
        exact ⟨o, by simp [ho], by simpa using hb⟩
  | late _ _ _ _ _ _ _ ih =>
      rcases List.mem_cons.1 hmem with heq | hmem
      · cases heq
      · obtain ⟨o, ho, hb⟩ := ih hmem
        exact ⟨o, by simp [ho], by simpa using hb⟩
  | phi _ _ _ _ _ _ ih =>
      rcases List.mem_cons.1 hmem with heq | hmem
      · cases heq
      · obtain ⟨o, ho, hb⟩ := ih hmem
        exact ⟨o, by simp [ho], by simpa using hb⟩
  | @incoming h w w' m u p o ts _ _ hu _ _ ih =>
      rcases List.mem_cons.1 hmem with heq | hmem
      · cases heq
        refine ⟨o, by simp, ?_⟩
        have := hu.append (.incoming n predecessor o :: w')
        simpa using this
      · obtain ⟨o, ho, hb⟩ := ih hmem
        exact ⟨o, by simp [ho], by simpa using hb⟩

theorem Lowers.phi_complete (hl : Lowers x h ts w) {l : Local} {t : IrType} (hphi : .phi n l t ∈ w) {v : NodeId}
    {b : BlockId} (hv : (b, v) ∈ x.graph.phiInputs x.schedule.reachable n) :
    ∃ o, .incoming n b o ∈ w ∧ Bound (h ++ w) v o := by
  induction hl with
  | nil => cases hphi
  | known _ _ ih => exact ih hphi
  | entered _ _ _ ih | bound _ _ _ ih =>
      rcases List.mem_cons.1 hphi with heq | hphi
      · cases heq
      · obtain ⟨o, ho, hb⟩ := ih hphi
        exact ⟨o, List.mem_cons_of_mem _ ho, by simpa using hb⟩
  | @emit h w w' m e ts _ _ he _ ih ih' =>
      rcases List.mem_append.1 hphi with hphi | hphi
      · obtain ⟨o, ho, hb⟩ := ih hphi
        exact ⟨o, List.mem_append_left _ ho, by simpa using hb.append (e :: w')⟩
      · rcases List.mem_cons.1 hphi with rfl | hphi
        · cases he
        · obtain ⟨o, ho, hb⟩ := ih' hphi
          exact ⟨o, by simp [ho], by simpa using hb⟩
  | @late h w w' m inputs ts _ _ _ _ _ _ ih ih' =>
      rcases List.mem_append.1 hphi with hphi | hphi
      · obtain ⟨o, ho, hb⟩ := ih hphi
        exact ⟨o, List.mem_append_left _ ho, by simpa using hb.append w'⟩
      · obtain ⟨o, ho, hb⟩ := ih' hphi
        exact ⟨o, by simp [ho], by simpa using hb⟩
  | @phi h w w' m table type t' l' ts _ _ _ hin _ ih ih' =>
      rcases List.mem_append.1 hphi with hphi | hphi
      · rcases List.mem_cons.1 hphi with heq | hphi
        · cases heq
          obtain ⟨o, ho, hb⟩ := hin.incoming_of_task (List.mem_map_of_mem hv)
          exact ⟨o, by simp [ho], by simpa using hb.append w'⟩
        · obtain ⟨o, ho, hb⟩ := ih hphi
          exact ⟨o, by simp [ho], by simpa using hb.append w'⟩
      · obtain ⟨o, ho, hb⟩ := ih' hphi
        exact ⟨o, by simp [ho], by simpa using hb⟩
  | @incoming h w w' m u p o ts _ _ _ _ ih ih' =>
      rcases List.mem_append.1 hphi with hphi | hphi
      · obtain ⟨o', ho, hb⟩ := ih hphi
        exact ⟨o', List.mem_append_left _ ho, by simpa using hb.append (.incoming m p o :: w')⟩
      · rcases List.mem_cons.1 hphi with heq | hphi
        · cases heq
        · obtain ⟨o', ho, hb⟩ := ih' hphi
          exact ⟨o', by simp [ho], by simpa using hb⟩

theorem LowersBlocks.phi_complete (hl : LowersBlocks x h bs w) {l : Local} {t : IrType} (hphi : .phi n l t ∈ w)
    {v : NodeId} {b : BlockId} (hv : (b, v) ∈ x.graph.phiInputs x.schedule.reachable n) :
    ∃ o, .incoming n b o ∈ w ∧ Bound (h ++ w) v o := by
  induction hl with
  | nil => cases hphi
  | @ended h w w' c bs m u t' _ _ _ hl _ _ ih =>
      rcases List.mem_append.1 hphi with hphi | hphi
      · obtain ⟨o, ho, hb⟩ := hl.phi_complete hphi hv
        exact ⟨o, List.mem_append_left _ ho, by simpa using hb.append (.terminated m u.successors t' :: w')⟩
      · rcases List.mem_cons.1 hphi with heq | hphi
        · cases heq
        · obtain ⟨o, ho, hb⟩ := ih hphi
          exact ⟨o, by simp [ho], by simpa using hb⟩
  | thrown _ _ _ _ ih =>
      rcases List.mem_cons.1 hphi with heq | hphi
      · cases heq
      · obtain ⟨o, ho, hb⟩ := ih hphi
        exact ⟨o, List.mem_cons_of_mem _ ho, by simpa using hb⟩

theorem LowersBlocks.ended_of_mem (hl : LowersBlocks x h bs w) {b : BlockId} (hb : b ∈ bs) :
    ∃ n t, x.graph.terminator b = .ok n ∧ x.graph.kind? n = some (.terminator t) ∧
      ((∃ t', .terminated n t.successors t' ∈ w) ∨
        ∃ value handler dependency, t = .throw value handler dependency) := by
  induction hl with
  | nil => cases hb
  | @ended h w w' c bs m t t' _ hterm hk _ _ _ ih =>
      rcases List.mem_cons.1 hb with rfl | hb
      · exact ⟨m, t, hterm, hk, .inl ⟨t', by simp⟩⟩
      · obtain ⟨n, t, hn, hk, hor⟩ := ih hb
        refine ⟨n, t, hn, hk, hor.imp_left ?_⟩
        rintro ⟨t', ht'⟩
        exact ⟨t', by simp [ht']⟩
  | @thrown h w c bs m value dependency handler _ hterm hk _ ih =>
      rcases List.mem_cons.1 hb with rfl | hb
      · exact ⟨m, _, hterm, hk, .inr ⟨value, handler, dependency, rfl⟩⟩
      · obtain ⟨n, t, hn, hk, hor⟩ := ih hb
        refine ⟨n, t, hn, hk, hor.imp_left ?_⟩
        rintro ⟨t', ht'⟩
        exact ⟨t', List.mem_cons_of_mem _ ht'⟩

def Event.node : Event → NodeId
  | .entered n | .bound n _ | .computed n _ | .performed n _ | .phi n _ _ | .incoming n _ _
  | .terminated n _ _ => n

def Task.Needed (g : Graph) : Task → Prop
  | .need n | .incoming n _ _ => g.Needed n

theorem Emits.node {e : Event} (he : Emits x h n e) : e.node = n := by
  cases he <;> rfl

def Task.Concerns (P : NodeId → Prop) : Task → Prop
  | .need n | .incoming n _ _ => P n

/-- What is handed on to inputs, and from phis to what flows into them, holds of all that is lowered. -/
theorem Lowers.closed {P : NodeId → Prop} (hinput : ∀ n i, P n → i ∈ x.graph.inputs n → P i)
    (hphi : ∀ n v b, P n → (b, v) ∈ x.graph.phiInputs x.schedule.reachable n → P v) (hl : Lowers x h ts w)
    (hts : ∀ t ∈ ts, t.Concerns P) : ∀ e ∈ w, P e.node := by
  induction hl with
  | nil => exact nofun
  | known _ _ ih => exact ih fun t ht => hts t (List.mem_cons_of_mem _ ht)
  | entered _ _ _ ih | bound _ _ _ ih =>
      intro e he
      rcases List.mem_cons.1 he with rfl | he
      · exact hts _ List.mem_cons_self
      · exact ih (fun t ht => hts t (List.mem_cons_of_mem _ ht)) e he
  | @emit h w w' m e' ts _ _ hem _ ih ih' =>
      have hm : P m := hts _ List.mem_cons_self
      intro e he
      rcases List.mem_append.1 he with he | he
      · refine ih (fun t ht => ?_) e he
        obtain ⟨i, hi, rfl⟩ := List.mem_map.1 ht
        exact hinput m i hm hi
      · rcases List.mem_cons.1 he with rfl | he
        · rw [hem.node]
          exact hm
        · exact ih' (fun t ht => hts t (List.mem_cons_of_mem _ ht)) e he
  | @late h w w' m inputs ts _ hpre _ _ _ _ ih ih' =>
      have hm : P m := hts _ List.mem_cons_self
      intro e he
      rcases List.mem_append.1 he with he | he
      · refine ih (fun t ht => ?_) e he
        obtain ⟨i, hi, rfl⟩ := List.mem_map.1 ht
        exact hinput m i hm (hpre.subset hi)
      · exact ih' (fun t ht => hts t (List.mem_cons_of_mem _ ht)) e he
  | @phi h w w' m table type t l ts _ _ _ _ _ ih ih' =>
      have hm : P m := hts _ List.mem_cons_self
      intro e he
      rcases List.mem_append.1 he with he | he
      · rcases List.mem_cons.1 he with rfl | he
        · exact hm
        · refine ih (fun t ht => ?_) e he
          obtain ⟨p, -, rfl⟩ := List.mem_map.1 ht
          exact hm
      · exact ih' (fun t ht => hts t (List.mem_cons_of_mem _ ht)) e he
  | @incoming h w w' m v p o ts hv _ _ _ ih ih' =>
      have hm : P m := hts _ List.mem_cons_self
      intro e he
      rcases List.mem_append.1 he with he | he
      · refine ih (fun t ht => ?_) e he
        rw [List.mem_singleton.1 ht]
        exact hphi m v p hm hv
      · rcases List.mem_cons.1 he with rfl | he
        · exact hm
        · exact ih' (fun t ht => hts t (List.mem_cons_of_mem _ ht)) e he

theorem Lowers.needed (hreachable : x.schedule.reachable = x.graph.reachable) (hl : Lowers x h ts w)
    (hts : ∀ t ∈ ts, t.Needed x.graph) : ∀ e ∈ w, x.graph.Needed e.node := by
  refine hl.closed (fun n i hn hi => hn.input hi) (fun n v b hn hv => ?_) fun t ht => ?_
  · rw [hreachable] at hv
    exact hn.phiInput hv
  · have hneeded := hts t ht
    cases t <;> exact hneeded

theorem Bound.of_isPrefix {before : List Event} (hpre : before <+: h) {o : Operand} (hb : Bound before n o) :
    Bound h n o := by
  obtain ⟨after, rfl⟩ := hpre
  exact hb.append after

theorem Done.of_isPrefix {before : List Event} (hpre : before <+: h) (hd : Done before n) : Done h n := by
  obtain ⟨after, rfl⟩ := hpre
  exact hd.append after

theorem Selects.not_phi {R : NodeId → Operand → Prop} {i : Instruction} (hi : Selects x.graph R n i) {type : Ty}
    {table : PhiId} : x.graph.kind? n ≠ some (.value ⟨type, .phi table⟩) := by
  intro hk
  cases hi <;> simp_all

/-- A node that is done by a run has an event of it, which came when its inputs were done. -/
theorem Valid.inputs_done (hv : Valid x h w) (hn : Done w n) : ∀ i ∈ x.graph.inputs n, Done (h ++ w) i := by
  intro i hi
  rcases hn with ⟨e, he, hen⟩ | ⟨o, e, he, hen⟩
  · obtain ⟨before, hpre, hguard⟩ := hv.exists_guard he
    cases hguard with
    | entered _ hk =>
        cases hen
        rw [Graph.inputs_of_kind hk] at hi
        cases hi
    | emit hem hin =>
        cases hem with
        | value => cases hen
        | action =>
            cases hen
            exact (hin i hi).of_isPrefix hpre
    | bound | phi | incoming | ended | thrown => cases hen
  · obtain ⟨before, hpre, hguard⟩ := hv.exists_guard he
    cases hguard with
    | bound _ ho =>
        cases hen
        rw [ho.inputs] at hi
        cases hi
    | emit hem hin =>
        cases hem with
        | value =>
            cases hen
            exact (hin i hi).of_isPrefix hpre
        | action => cases hen
    | phi _ hk =>
        cases hen
        rw [Graph.inputs_of_kind hk] at hi
        cases hi
    | entered | incoming | ended | thrown => cases hen

theorem Valid.phi_of_done (hv : Valid x [] h) (hn : Done h n) {type : Ty} {table : PhiId}
    (hk : x.graph.kind? n = some (.value ⟨type, .phi table⟩)) : ∃ l t, .phi n l t ∈ h := by
  rcases hn with ⟨e, he, hen⟩ | ⟨o, e, he, hen⟩
  · obtain ⟨before, hpre, hguard⟩ := hv.exists_guard he
    cases hguard with
    | entered _ hk' =>
        cases hen
        rw [hk] at hk'
        cases hk'
    | emit hem hin =>
        cases hem with
        | value => cases hen
        | action hk' =>
            cases hen
            rw [hk] at hk'
            cases hk'
    | bound | phi | incoming | ended | thrown => cases hen
  · obtain ⟨before, hpre, hguard⟩ := hv.exists_guard he
    cases hguard with
    | bound _ ho =>
        cases hen
        cases ho <;> simp_all
    | emit hem hin =>
        cases hem with
        | value _ _ hi =>
            cases hen
            exact absurd hk hi.not_phi
        | action => cases hen
    | @phi m _ _ t l =>
        cases hen
        exact ⟨l, t, he⟩
    | entered | incoming | ended | thrown => cases hen

namespace Lowered

variable {f : Function} {order : List BlockId}

theorem spec (hl : Lowered x f order h) (hg : x.graph.WellFormed) : Schedule.Spec x.graph x.schedule :=
  Schedule.compute_spec hg hl.schedule

theorem valid (hl : Lowered x f order h) : Valid x [] h := hl.lowers.valid

theorem exists_guard (hl : Lowered x f order h) {e : Event} (he : e ∈ h) :
    ∃ before, before <+: h ∧ Guard x before e := hl.valid.exists_guard he

theorem ended (hl : Lowered x f order h) (hthrow : x.graph.NoThrow) {b : BlockId} (hb : b ∈ order)
    (hreach : x.graph.Reaches b) : ∃ n t t', x.graph.terminator b = .ok n ∧
      x.graph.kind? n = some (.terminator t) ∧ .terminated n t.successors t' ∈ h := by
  obtain ⟨n, t, hn, hk, ⟨t', ht'⟩ | ⟨value, handler, dependency, rfl⟩⟩ := hl.lowers.ended_of_mem hb
  · exact ⟨n, t, t', hn, hk, ht'⟩
  · exact absurd hk (hthrow b n value dependency handler hreach hn)

theorem mem_of_reaches (hl : Lowered x f order h) (hthrow : x.graph.NoThrow) {b : BlockId}
    (hb : x.graph.Reaches b) : b ∈ order := by
  induction hb with
  | start hmem =>
      rw [List.mem_singleton.1 hmem]
      exact (hl.mem _).2 (.inl rfl)
  | step hb hmem ih =>
      obtain ⟨n, t, t', hn, hk, ht'⟩ := hl.ended hthrow ih hb
      rw [Graph.successors_of_terminator hn hk] at hmem
      exact (hl.mem _).2 (.inr ⟨_, ht', List.mem_cons_of_mem _ hmem⟩)

theorem done_of_needed (hl : Lowered x f order h) (hg : x.graph.WellFormed) (hthrow : x.graph.NoThrow)
    (hn : x.graph.Needed n) : Done h n ∨ ∃ b, x.graph.Reaches b ∧ x.graph.terminator b = .ok n := by
  induction hn with
  | terminator hb hn => exact .inr ⟨_, hb, hn⟩
  | @input n i _ hi ih =>
      rcases ih with hd | ⟨b, hb, hn⟩
      · exact .inl (hl.valid.inputs_done hd i hi)
      · obtain ⟨m, t, t', hm, hk, ht'⟩ := hl.ended hthrow (hl.mem_of_reaches hthrow hb) hb
        rw [hn] at hm
        cases hm
        rw [Graph.inputs_of_kind hk] at hi
        obtain ⟨before, hpre, hguard⟩ := hl.exists_guard ht'
        obtain ⟨_, _, ⟨u, hk', _, _, hin⟩ | ⟨_, _, _, hk'⟩⟩ := hguard.terminated
        · rw [hk] at hk'
          cases hk'
          exact .inl ((hin i hi).of_isPrefix hpre)
        · exact absurd hk' (hthrow b _ _ _ _ hb hn)
  | @phiInput n v b _ hv ih =>
      have hs := hl.spec hg
      obtain ⟨-, p, hphi, -⟩ := Graph.mem_phiInputs.1 hv
      obtain ⟨type, table, hk, -⟩ := Graph.phi?_eq_some hphi
      rcases ih with hd | ⟨c, hc, hn⟩
      · obtain ⟨l, t, hmem⟩ := hl.valid.phi_of_done hd hk
        rw [← hs.reachable] at hv
        obtain ⟨o, -, ho⟩ := hl.lowers.phi_complete hmem hv
        exact .inl (by simpa using ho.done)
      · obtain ⟨node, t, hnode, ht, -⟩ := Graph.terminator_eq_ok hg hn
        rw [Graph.kind?_of_getElem? hnode, ht] at hk
        cases hk

theorem legal_of_done (hl : Lowered x f order h) (hn : Done h n) : x.graph.Legal n := by
  rcases hn with ⟨e, he, hen⟩ | ⟨o, ho⟩
  · obtain ⟨before, hpre, hguard⟩ := hl.exists_guard he
    cases hguard with
    | entered _ hk =>
        cases hen
        intro m hm
        rw [Graph.inputs_of_kind hk] at hm
        cases hm
    | emit hem hin =>
        cases hem with
        | value => cases hen
        | action _ hi =>
            cases hen
            intro m hm
            exact (hi.reads hm).imp_left fun ⟨o, ho⟩ => (hl.isValue m o (ho.of_isPrefix hpre)).1
    | bound | phi | incoming | ended | thrown => cases hen
  · exact (hl.isValue n o ho).2

theorem usable (hl : Lowered x f order h) (hg : x.graph.WellFormed) (hthrow : x.graph.NoThrow)
    (hpinned : ∀ (n : NodeId) (b c : BlockId), x.graph.Needed n → x.graph.isValue n = true →
      x.graph.pinned? n = some b → x.graph.UsedIn n c → x.graph.Reaches c → x.graph.Dominates b c) :
    x.graph.Usable where
  legal n hn := by
    rcases hl.done_of_needed hg hthrow hn with hd | ⟨b, hb, hterm⟩
    · exact hl.legal_of_done hd
    · obtain ⟨m, t, t', hm, hk, ht'⟩ := hl.ended hthrow (hl.mem_of_reaches hthrow hb) hb
      rw [hterm] at hm
      cases hm
      obtain ⟨before, hpre, hguard⟩ := hl.exists_guard ht'
      obtain ⟨_, _, ⟨u, hk', _, he, _⟩ | ⟨_, _, _, hk'⟩⟩ := hguard.terminated
      · intro i hi
        rw [Graph.inputs_of_kind hk'] at hi
        rcases he.reads hi with ⟨o, ho⟩ | rfl
        · exact .inl (hl.isValue i o (ho.of_isPrefix hpre)).1
        · exact .inr (by rw [hk']; rfl)
      · exact absurd hk' (hthrow b _ _ _ _ hb hterm)
  phiInput n v b hn hv := by
    have hs := hl.spec hg
    obtain ⟨-, p, hphi, -⟩ := Graph.mem_phiInputs.1 hv
    obtain ⟨type, table, hk, -⟩ := Graph.phi?_eq_some hphi
    rcases hl.done_of_needed hg hthrow hn with hd | ⟨c, hc, hterm⟩
    · obtain ⟨l, t, hmem⟩ := hl.valid.phi_of_done hd hk
      rw [← hs.reachable] at hv
      obtain ⟨o, -, ho⟩ := hl.lowers.phi_complete hmem hv
      exact (hl.isValue v o (by simpa using ho)).1
    · obtain ⟨node, t, hnode, ht, -⟩ := Graph.terminator_eq_ok hg hterm
      rw [Graph.kind?_of_getElem? hnode, ht] at hk
      cases hk
  pinned := hpinned

end Lowered

theorem Guard.reaches (hg : x.graph.WellFormed) (hu : x.graph.Usable) (hs : Schedule.Spec x.graph x.schedule)
    {e : Event} (he : Guard x h e) (hn : x.graph.Needed e.node) {b : BlockId} (hb : b ∈ e.blocks x) :
    x.graph.Reaches b := by
  have hblock := hs.reaches_blockOf hg hu hn
  generalize he' : e = e' at he
  cases he with
  | entered | bound =>
      subst he'
      cases hb
  | emit hem =>
      cases hem with
      | value | action =>
          subst he'
          rw [List.mem_singleton.1 hb]
          exact hblock
  | phi =>
      subst he'
      rw [List.mem_singleton.1 hb]
      exact hblock
  | incoming hv =>
      subst he'
      rw [List.mem_singleton.1 hb]
      have hmem := (Graph.mem_phiInputs.1 hv).1
      rw [hs.reachable] at hmem
      exact (Graph.mem_reachable hg).1 hmem
  | ended hterm hk =>
      subst he'
      rcases List.mem_cons.1 hb with rfl | hb
      · exact hblock
      · obtain ⟨node, t, hnode, ht, hpinned⟩ := Graph.terminator_eq_ok hg hterm
        have hc := (hu.reaches hg hn).1 _ ((Graph.pinned?_of_getElem? hnode).trans hpinned)
        rw [← Graph.successors_of_terminator hterm hk] at hb
        exact .step hc hb
  | thrown =>
      subst he'
      rw [List.mem_singleton.1 hb]
      exact hblock

theorem LowersBlocks.needed (hg : x.graph.WellFormed) (hu : x.graph.Usable) (hs : Schedule.Spec x.graph x.schedule)
    (hl : LowersBlocks x h bs w) (hh : ∀ b, Mentioned x h b → x.graph.Reaches b) :
    (∀ b ∈ bs, x.graph.Reaches b) ∧ (∀ e ∈ w, x.graph.Needed e.node) ∧
      ∀ b, Mentioned x (h ++ w) b → x.graph.Reaches b := by
  have hmentioned : ∀ {h w : List Event}, Valid x h w → (∀ b, Mentioned x h b → x.graph.Reaches b) →
      (∀ e ∈ w, x.graph.Needed e.node) → ∀ b, Mentioned x (h ++ w) b → x.graph.Reaches b := by
    intro h w hv hh hw b hb
    rcases hb with rfl | ⟨e, he, hb⟩
    · exact hh _ (.inl rfl)
    · rcases List.mem_append.1 he with he | he
      · exact hh b (.inr ⟨e, he, hb⟩)
      · obtain ⟨before, -, hguard⟩ := hv.exists_guard he
        exact hguard.reaches hg hu hs (hw e he) hb
  induction hl with
  | nil => exact ⟨nofun, nofun, by simpa using hh⟩
  | @ended h w w' b bs n t t' hb hterm hk hl he hl' ih =>
      have hreach := hh b hb
      have hn : x.graph.Needed n := .terminator hreach hterm
      have hw : ∀ e ∈ w ++ [.terminated n t.successors t'], x.graph.Needed e.node := by
        intro e he
        rcases List.mem_append.1 he with he | he
        · refine hl.needed hs.reachable (fun task htask => ?_) e he
          obtain ⟨i, hi, rfl⟩ := List.mem_map.1 htask
          refine hn.input ?_
          rw [Graph.inputs_of_kind hk]
          exact hi
        · rw [List.mem_singleton.1 he]
          exact hn
      have hv : Valid x h (w ++ [.terminated n t.successors t']) :=
        valid_append.2 ⟨hl.valid, .ended hterm hk he fun i hi => hl.done (List.mem_map_of_mem hi), trivial⟩
      obtain ⟨hbs, hneeded, hall⟩ := ih (by simpa using hmentioned hv hh hw)
      refine ⟨?_, ?_, by simpa using hall⟩
      · intro c hc
        rcases List.mem_cons.1 hc with rfl | hc
        · exact hreach
        · exact hbs c hc
      · intro e he
        rw [List.append_cons] at he
        rcases List.mem_append.1 he with he | he
        · exact hw e he
        · exact hneeded e he
  | @thrown h w b bs n value dependency handler hb hterm hk hl' ih =>
      have hreach := hh b hb
      have hn : x.graph.Needed n := .terminator hreach hterm
      have hw : ∀ e ∈ [Event.terminated n [] .unreachable], x.graph.Needed e.node := by
        intro e he
        rw [List.mem_singleton.1 he]
        exact hn
      obtain ⟨hbs, hneeded, hall⟩ := ih (hmentioned ⟨.thrown hterm hk, trivial⟩ hh hw)
      refine ⟨?_, ?_, by simpa using hall⟩
      · intro c hc
        rcases List.mem_cons.1 hc with rfl | hc
        · exact hreach
        · exact hbs c hc
      · intro e he
        rcases List.mem_cons.1 he with rfl | he
        · exact hn
        · exact hneeded e he

namespace Lowered

variable {f : Function} {order : List BlockId}

theorem mem_iff_reaches (hl : Lowered x f order h) (hg : x.graph.WellFormed) (hthrow : x.graph.NoThrow)
    (hu : x.graph.Usable) {b : BlockId} : b ∈ order ↔ x.graph.Reaches b := by
  have hs := hl.spec hg
  refine ⟨fun hb => ?_, hl.mem_of_reaches hthrow⟩
  refine (hl.lowers.needed hg hu hs ?_).1 b hb
  rintro c (rfl | ⟨e, he, -⟩)
  · exact .start (List.mem_singleton_self _)
  · cases he

theorem needed (hl : Lowered x f order h) (hg : x.graph.WellFormed) (hu : x.graph.Usable) {e : Event}
    (he : e ∈ h) : x.graph.Needed e.node := by
  have hs := hl.spec hg
  refine (hl.lowers.needed hg hu hs ?_).2.1 e he
  rintro c (rfl | ⟨e, he, -⟩)
  · exact .start (List.mem_singleton_self _)
  · cases he

end Lowered

end Lowering

end NativeBackend
