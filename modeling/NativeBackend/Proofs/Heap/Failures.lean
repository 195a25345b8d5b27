import NativeBackend.Proofs.Heap.Closure
import NativeBackend.Proofs.Heap.FieldValues

namespace NativeBackend.Heap

open Steps

section

variable {h h' : Heap} {e : Error}

theorem reference_ne_error {target : Option ObjectId} : reference target h ≠ .error e h' := by
  obtain ⟨c, h₁, hok⟩ := reference_isOk target h
  rw [hok]
  rintro ⟨⟩

theorem references_ne_error {targets : List (Option ObjectId)} : references targets h ≠ .error e h' := by
  induction targets generalizing h with
  | nil => rintro ⟨⟩
  | cons target rest ih =>
      intro herror
      rcases bind_eq_error.1 herror with hfirst | ⟨c, h₁, -, hrest⟩
      · exact reference_ne_error hfirst
      · rcases bind_eq_error.1 hrest with hrest | ⟨cs, h₂, -, hdone⟩
        · exact ih hrest
        · cases hdone

theorem valueLiteral_eq_error {d : Descriptor} {value : HeapValue} (hv : valueLiteral d value h = .error e h') :
    h' = h ∧ value.fits d = false ∧ e = .internal (.withText (value.textIn h.store) (.unserializable · d.text)) := by
  have hmisfit : value.fits d = false := by
    refine Bool.eq_false_iff.2 fun hfits => ?_
    obtain ⟨r, h₁, hok⟩ := (valueLiteral_isOk_iff d value h).2 hfits
    cases hv.symm.trans hok
  unfold valueLiteral at hv
  split at hv
  case h_9 | h_10 =>
    rcases bind_eq_error.1 hv with href | ⟨c, h₁, -, hdone⟩
    · exact absurd href reference_ne_error
    · cases hdone
  case h_11 =>
    cases hv
    exact ⟨rfl, hmisfit, rfl⟩
  all_goals cases hv

theorem fieldLiterals_eq_error {cls : ClassDef} {values : List (String × HeapValue)} {finish cursor : Int}
    {fs : List Field} (hf : fieldLiterals cls values finish cursor fs h = .error e h') :
    Extends (fun id => ∃ f ∈ fs, (fieldValue values f).RefersTo id) h h' := by
  induction fs generalizing cursor h with
  | nil => cases hf
  | cons f rest ih =>
      rw [fieldLiterals] at hf
      split at hf
      · cases hf
        exact .refl _
      rcases bind_eq_error.1 hf with hvalue | ⟨⟨type, c⟩, h₁, hvalue, hf⟩
      · rw [(valueLiteral_eq_error hvalue).1]
        exact .refl _
      · have hfirst : Extends (fun id => ∃ g ∈ f :: rest, (fieldValue values g).RefersTo id) h h₁ :=
          (valueLiteral_eq_ok hvalue).1.mono fun id hid => ⟨f, List.mem_cons_self, hid⟩
        rcases bind_eq_error.1 hf with hrest | ⟨literals, h₂, -, hdone⟩
        · refine hfirst.trans ((ih hrest).mono ?_)
          rintro id ⟨g, hg, hid⟩
          exact ⟨g, List.mem_cons_of_mem _ hg, hid⟩
        · cases hdone

theorem arrayLiteral_ne_error {a : HeapArray} : arrayLiteral a h ≠ .error e h' := by
  intro hl
  rcases bind_eq_error.1 hl with helements | ⟨elements, h₁, -, hdone⟩
  · cases a with
    | reference elements =>
        rcases bind_eq_error.1 helements with hrefs | ⟨cs, h₁, -, hdone⟩
        · exact references_ne_error hrefs
        · cases hdone
    | _ => cases helements
  · cases hdone

theorem literal_eq_error {o : HeapObject} (hl : literal o h = .error e h') : Extends (o.PointsTo ·) h h' := by
  cases o with
  | instanceOf cls values =>
      rcases bind_eq_error.1 hl with hfields | ⟨literals, h₁, -, hdone⟩
      · refine (fieldLiterals_eq_error hfields).mono ?_
        rintro id ⟨f, hf, hid⟩
        exact ⟨f, List.mem_mergeSort.1 hf, hid⟩
      · cases hdone
  | arrayOf a => exact absurd hl arrayLiteral_ne_error

end

/-- Emission fails at an object that cannot be written, or whose symbol is taken. The object is passed all the same. -/
theorem emitNext_eq_error {h : Heap} {m : Module} {id : ObjectId} {e : Error} {s' : Heap × Module}
    (hnext : emitNext id (h, m) = .error e s') : ∃ o, h.store[id]? = some o ∧ s'.2 = m ∧
      Extends (o.PointsTo ·) { h with emitted := h.emitted + 1 } s'.1 ∧
      (literal o { h with emitted := h.emitted + 1 } = .error e s'.1 ∨
        heapSymbol h.emitted ∈ m.data ∧ e = .internal (.duplicateData (heapSymbol h.emitted))) := by
  rw [emitNext] at hnext
  cases ho : h.store[id]? with
  | none =>
      simp only [ho] at hnext
      cases hnext
  | some o =>
      simp only [ho] at hnext
      cases hl : literal o { h with emitted := h.emitted + 1 } with
      | error e' h₁ =>
          simp only [hl] at hnext
          cases hnext
          exact ⟨o, rfl, rfl, literal_eq_error hl, .inl hl⟩
      | ok literal h₁ =>
          obtain ⟨type, value⟩ := literal
          simp only [hl] at hnext
          cases hadd : m.addVariable (heapSymbol h.emitted) type value .internal with
          | error e' =>
              simp only [hadd] at hnext
              cases hnext
              exact ⟨o, rfl, rfl, (literal_eq_ok hl).1, .inr (Module.define_eq_error hadd)⟩
          | ok m' =>
              simp only [hadd] at hnext
              cases hnext

theorem emitFrom_eq_error {P : Heap × Module → Prop}
    (hstep : ∀ s s' id, P s → s.1.interned[s.1.emitted]? = some id → Heap.emitNext id s = .ok () s' → P s')
    {s s' : Heap × Module} {e : Error} (hs : P s) {steps : Nat} (h : emitFrom steps s = .error e s') :
    ∃ s₁ id, P s₁ ∧ s₁.1.interned[s₁.1.emitted]? = some id ∧ Heap.emitNext id s₁ = .error e s' := by
  induction steps generalizing s with
  | zero => cases h
  | succ steps ih =>
      cases hid : s.1.interned[s.1.emitted]? with
      | none =>
          rw [emitFrom_of_none steps hid] at h
          cases h
      | some id =>
          rw [emitFrom_of_some steps hid] at h
          rcases bind_eq_error.1 h with hfailed | ⟨_, s₁, hnext, h₁⟩
          · exact ⟨s, id, hs, hid, hfailed⟩
          · rcases bind_eq_error.1 h₁ with hrest | ⟨_, _, -, hdone⟩
            · exact ih (hstep s s₁ id hs hid hnext) hrest
            · cases hdone

theorem Numbered.mono {h h' : Heap} {c : Constant} (hc : Numbered h c) (hinit : h.interned <+: h'.interned) :
    Numbered h' c := by
  intro name hname
  obtain ⟨k, hk, rfl⟩ := hc name hname
  exact ⟨k, hk.trans_le hinit.length_le, rfl⟩

theorem passed_cons_iff {lost : List Nat} {n k : Nat} : k < n + 1 ∧ k ∉ n :: lost ↔ k < n ∧ k ∉ lost := by
  rw [List.mem_cons, not_or]
  constructor
  · rintro ⟨hk, hother, hkept⟩
    exact ⟨by omega, hkept⟩
  · rintro ⟨hk, hkept⟩
    exact ⟨by omega, by omega, hkept⟩

theorem Settled.emitNext_error {m : Module} {lost : List Nat} {s s' : Heap × Module} {id : ObjectId} {e : Error}
    (hs : Settled m lost s) (hid : s.1.interned[s.1.emitted]? = some id)
    (hnext : Heap.emitNext id s = .error e s') :
    Settled m (s.1.emitted :: lost) s' ∧ s'.1.emitted = s.1.emitted + 1 ∧ s.1.interned <+: s'.1.interned ∧
      s'.2 = s.2 := by
  obtain ⟨o, ho, hmodule, hextends, -⟩ := emitNext_eq_error hnext
  obtain ⟨more, hmore, -⟩ := hextends.interned
  have hemitted : s'.1.emitted = s.1.emitted + 1 := hextends.emitted
  have hinit : s.1.interned <+: s'.1.interned := ⟨more, hmore.symm⟩
  have hl := hs.linked
  have hlinked : Linked s'.1 := Linked.extend (h := { s.1 with emitted := s.1.emitted + 1 })
    ⟨hl.nodup, hl.interned, hl.refers⟩ hextends fun target htarget => hl.refers id o ho target htarget.refersTo
  refine ⟨⟨hlinked, ?_, fun k hk => ?_, fun name => ?_, fun k hk hkept => ?_⟩, hemitted, hinit, hmodule⟩
  · have hroom := (List.getElem?_eq_some_iff.1 hid).1
    rw [hemitted]
    exact hroom.trans_le hinit.length_le
  · rw [hemitted]
    rcases List.mem_cons.1 hk with rfl | hk
    · exact Nat.lt_succ_self _
    · exact Nat.lt_succ_of_lt (hs.passed k hk)
  · rw [hmodule, hemitted, hs.names]
    simp only [← and_assoc, passed_cons_iff]
  · obtain ⟨hk, hkept⟩ := passed_cons_iff.1 ⟨hemitted ▸ hk, hkept⟩
    exact hs.fresh k hk hkept

/-- What was emitted mentions numbers that were given out. -/
structure Accounted (m : Module) (lost : List Nat) (s : Heap × Module) : Prop where
  settled : Settled m lost s
  written : ∀ k < s.1.emitted, k ∉ lost → ∃ d, s.2.data[heapSymbol k]? = some d ∧ Numbered s.1 d.value

namespace Accounted

variable {m : Module} {lost : List Nat} {s s' : Heap × Module} {id : ObjectId} {e : Error}

theorem emitNext (hs : Accounted m lost s) (hid : s.1.interned[s.1.emitted]? = some id)
    (hnext : Heap.emitNext id s = .ok () s') : Accounted m lost s' := by
  obtain ⟨o, type, value, ho, hl, hadd⟩ := hs.settled.linked.serialized hid hnext
  obtain ⟨-, hemitted, -⟩ := hs.settled.linked.emitNext hid hnext
  obtain ⟨hdata, hkeeps⟩ := addVariable_eq_ok hadd
  obtain ⟨more, hmore, -⟩ := (literal_eq_ok hl).1.interned
  refine ⟨hs.settled.emitNext hid hnext, fun k hk hkept => ?_⟩
  rw [hemitted] at hk
  rcases Nat.lt_succ_iff_lt_or_eq.1 hk with hk | rfl
  · obtain ⟨d, hd, hnumbered⟩ := hs.written k hk hkept
    exact ⟨d, hkeeps _ d hd, hnumbered.mono ⟨more, hmore.symm⟩⟩
  · exact ⟨_, hdata, literal_numbered hl⟩

theorem emitNext_error (hs : Accounted m lost s) (hid : s.1.interned[s.1.emitted]? = some id)
    (hnext : Heap.emitNext id s = .error e s') : Accounted m (s.1.emitted :: lost) s' := by
  obtain ⟨hsettled, hemitted, hinit, hmodule⟩ := hs.settled.emitNext_error hid hnext
  refine ⟨hsettled, fun k hk hkept => ?_⟩
  obtain ⟨hk, hkept⟩ := passed_cons_iff.1 ⟨hemitted ▸ hk, hkept⟩
  obtain ⟨d, hd, hnumbered⟩ := hs.written k hk hkept
  exact ⟨d, hmodule ▸ hd, hnumbered.mono hinit⟩

theorem emit (hs : Accounted m lost s) {n : Nat} (h : Heap.emit s = .ok n s') : Accounted m lost s' :=
  emitFrom_induct (fun _ _ _ hs => hs.emitNext) hs ((emit_apply s).symm.trans h)

/-- An emission that fails loses one number more: that of an object which cannot be written, or whose symbol the
module had at first. -/
theorem emit_error (hs : Accounted m lost s) (h : Heap.emit s = .error e s') :
    ∃ k id o, s'.1.emitted = k + 1 ∧ k ∉ lost ∧ Accounted m (k :: lost) s' ∧ s'.1.interned[k]? = some id ∧
      s.1.store[id]? = some o ∧ ((∃ h h', h.store = s.1.store ∧ literal o h = .error e h') ∨
        heapSymbol k ∈ m.data ∧ e = .internal (.duplicateData (heapSymbol k))) := by
  obtain ⟨s₁, id, ⟨hs₁, hbefore⟩, hid, hnext⟩ := emitFrom_eq_error
    (P := fun now => Accounted m lost now ∧ Emitted s now)
    (fun _ _ _ hs hid hnext => ⟨hs.1.emitNext hid hnext, hs.2.emitNext hid hnext⟩) ⟨hs, .refl s⟩
    ((emit_apply s).symm.trans h)
  obtain ⟨-, hemitted, hinit, -⟩ := hs₁.settled.emitNext_error hid hnext
  obtain ⟨o, ho, -, -, hreason⟩ := emitNext_eq_error hnext
  have hpassed : ∀ k ∈ lost, k < s₁.1.emitted := hs₁.settled.passed
  refine ⟨s₁.1.emitted, id, o, hemitted, fun hlost => Nat.lt_irrefl _ (hpassed _ hlost),
    hs₁.emitNext_error hid hnext, keeps_of_isPrefix hinit _ _ hid, hbefore.store ▸ ho, hreason.imp ?_ ?_⟩
  · intro hl
    exact ⟨{ s₁.1 with emitted := s₁.1.emitted + 1 }, _, hbefore.store, hl⟩
  · rintro ⟨hmem, rfl⟩
    refine ⟨((hs₁.settled.names _).1 hmem).resolve_right ?_, rfl⟩
    rintro ⟨k, hk, -, hsame⟩
    exact absurd (heapSymbol_inj hsame) (by omega)

theorem request {h : Heap} {m' : Module} (hs : Accounted m lost (h, m')) {r : Request} (hknown : r.Known h) :
    Accounted m lost (r.apply h, m') := by
  obtain ⟨-, hemitted, hinit⟩ := hs.settled.linked.request hknown
  refine ⟨hs.settled.request hknown, fun k hk hkept => ?_⟩
  rw [hemitted] at hk
  obtain ⟨d, hd, hnumbered⟩ := hs.written k hk hkept
  exact ⟨d, hd, hnumbered.mono hinit⟩

end Accounted

/-- Calls on a heap and a module in any order, emissions that fail among them. The numbers at which emissions failed
are listed, the latest first. -/
inductive History (start : Heap × Module) : List Nat → Heap × Module → Prop
  | start : History start [] start
  | request {lost : List Nat} {h : Heap} {m : Module} {r : Request} : History start lost (h, m) → r.Known h →
      History start lost (r.apply h, m)
  | emit {lost : List Nat} {s s' : Heap × Module} {n : Nat} : History start lost s → Heap.emit s = .ok n s' →
      History start lost s'
  | failed {lost : List Nat} {s s' : Heap × Module} {e : Error} : History start lost s →
      Heap.emit s = .error e s' → History start ((s'.1.emitted - 1) :: lost) s'

theorem History.accounted {m : Module} {lost : List Nat} {s : Heap × Module} (hr : History ({}, m) lost s) :
    Accounted m lost s := by
  induction hr with
  | start => exact ⟨.start m, fun k hk => absurd hk (Nat.not_lt_zero k)⟩
  | request _ hknown ih => exact ih.request hknown
  | emit _ hemit ih => exact ih.emit hemit
  | failed _ hfailed ih =>
      obtain ⟨k, -, -, hemitted, -, hafter, -⟩ := ih.emit_error hfailed
      rw [hemitted, Nat.add_sub_cancel]
      exact hafter

/-- After any calls, an emission that fails loses one object for good, and one that succeeds has defined all others: a
number has its data exactly if no emission ever failed at it, or if the module had data under its symbol at first.
What was written mentions numbers that were given out, lost ones included. -/
theorem emit_defines_iff {m : Module} {lost : List Nat} {s : Heap × Module} (hr : History ({}, m) lost s) :
    (∀ e s', emit s = .error e s' → ∃ k id o, s'.1.emitted = k + 1 ∧ k ∉ lost ∧ s'.1.interned[k]? = some id ∧
      s.1.store[id]? = some o ∧ ((∃ h h', h.store = s.1.store ∧ literal o h = .error e h') ∨
        heapSymbol k ∈ m.data ∧ e = .internal (.duplicateData (heapSymbol k)))) ∧
    ∀ n s', emit s = .ok n s' → ∀ k < s'.1.length,
      (heapSymbol k ∈ s'.2.data ↔ heapSymbol k ∈ m.data ∨ k ∉ lost) ∧
      (k ∉ lost → ∃ d, s'.2.data[heapSymbol k]? = some d ∧
        ∀ name ∈ d.value.symbols, ∃ j < s'.1.length, name = heapSymbol j) := by
  have hs := hr.accounted
  refine ⟨fun e s' hfailed => ?_, fun n s' hemit k hk => ?_⟩
  · obtain ⟨k, id, o, hemitted, hnew, -, hplace⟩ := hs.emit_error hfailed
    exact ⟨k, id, o, hemitted, hnew, hplace⟩
  · have hafter := hs.emit hemit
    obtain ⟨-, -, -, hall⟩ := hs.settled.linked.emit hemit
    have hpassed : k < s'.1.emitted := hk.trans_le hall
    refine ⟨?_, hafter.written k hpassed⟩
    rw [hafter.settled.names]
    refine or_congr_right ⟨?_, fun hkept => ⟨k, hpassed, hkept, rfl⟩⟩
    rintro ⟨j, -, hkept, hsame⟩
    exact heapSymbol_inj hsame ▸ hkept

def measured : ClassDef := ⟨"Base", 20, .concrete, none, [], [], [⟨"x", .long, false, 8⟩], 16⟩

def shortened : ClassDef := ⟨"Derived", 21, .concrete, some measured, [], [], [⟨"x", .int, false, 16⟩], 24⟩

theorem built_shortened : shortened.Built := by
  refine @ClassDef.Built.of_build "Derived" 21 .concrete (some measured) [] [] [⟨"x", "I", false⟩] shortened ?_
    (by decide) rfl
  rintro a ⟨⟩
  exact @ClassDef.Built.of_build "Base" 20 .concrete none [] [] [⟨"x", "J", false⟩] measured (by rintro _ ⟨⟩)
    (by decide) rfl

def misfit : List Request := [.allocate (.instanceOf shortened []), .setField 0 "x" (.int 7)]

def misfitFirst : List Request := misfit ++ [.intern 0, .allocate (.arrayOf (.reference [some 0])), .intern 1]

def misfitLast : List Request := misfit ++ [.allocate (.arrayOf (.reference [some 0])), .intern 1]

theorem History.applyAll {start : Heap × Module} {lost : List Nat} {h : Heap} {m : Module} {requests : List Request}
    (hr : History start lost (h, m)) (hknown : AllKnown h requests) :
    History start lost (Heap.applyAll h requests, m) := by
  induction requests generalizing h with
  | nil => exact hr
  | cons r rest ih => exact ih (hr.request hknown.1) hknown.2

def emitAgain {α : Type} (s : Heap × Module) (read : Heap × Module → Nat → Heap × Module → α) : Option α :=
  match emit s with
  | .ok .. => none
  | .error _ s₁ =>
    match emit s₁ with
    | .ok n s₂ => some (read s₁ n s₂)
    | .error .. => none

theorem exists_of_emitAgain {α : Type} {s : Heap × Module} {read : Heap × Module → Nat → Heap × Module → α} {a : α}
    (h : emitAgain s read = some a) :
    ∃ e s₁ n s₂, emit s = .error e s₁ ∧ emit s₁ = .ok n s₂ ∧ read s₁ n s₂ = a := by
  rw [emitAgain] at h
  split at h
  · cases h
  · split at h
    · exact ⟨_, _, _, _, ‹_›, ‹_›, Option.some.inj h⟩
    · cases h

theorem not_refersTo_misfit (id : ObjectId) : ¬ (HeapObject.instanceOf shortened []).RefersTo id := by
  rintro ⟨name, hmem⟩
  cases hmem

theorem refersTo_pair {id : ObjectId} (h : (HeapObject.arrayOf (.reference [some 0])).RefersTo id) : id = 0 := by
  obtain ⟨v, hv, rfl⟩ := h
  simpa [HeapArray.values] using hv

theorem emit_defines_after_misfit :
    ∃ s s' d, History ({}, blank) [0] s ∧ emit s = .ok 1 s' ∧ s'.1.length = 2 ∧ heapSymbol 0 ∉ s'.2.data ∧
      s'.2.data[heapSymbol 1]? = some d ∧ ∀ name ∈ d.value.symbols, ∃ j < s'.1.length, name = heapSymbol j := by
  have hruns : emitAgain (applyAll {} misfitFirst, blank) (fun s₁ n s₂ => (s₁.1.emitted, n, s₂.1.length)) =
      some (1, 1, 2) := by cbv
  have hmade : History ({}, blank) [] (applyAll {} misfitFirst, blank) := by
    refine History.start.applyAll ⟨fun id hid => absurd hid (not_refersTo_misfit id), ⟨Nat.zero_lt_one, ?_⟩,
      Nat.zero_lt_one, fun id hid => (refersTo_pair hid).trans_lt Nat.zero_lt_one, Nat.one_lt_two, trivial⟩
    rintro target ⟨⟩
  obtain ⟨e, s, n, s', hfailed, hemit, hread⟩ := exists_of_emitAgain hruns
  obtain ⟨hpassed, rfl, hlength⟩ : s.1.emitted = 1 ∧ n = 1 ∧ s'.1.length = 2 := by simpa using hread
  have hhistory := hmade.failed hfailed
  rw [hpassed] at hhistory
  obtain ⟨-, hdefines⟩ := emit_defines_iff hhistory
  obtain ⟨hfirst, -⟩ := hdefines 1 s' hemit 0 (by omega)
  obtain ⟨-, hwritten⟩ := hdefines 1 s' hemit 1 (by omega)
  obtain ⟨d, hd, hnames⟩ := hwritten (by decide)
  exact ⟨s, s', d, hhistory, hemit, hlength, by simp [hfirst, blank], hd, hnames⟩

/-- Where the array comes first it is written and the instance is not. The next emission has nothing to do and says
so, and the array refers to a symbol that is not defined. -/
theorem not_emit_defines_of_misfit :
    HeapObject.create shortened = .ok (.instanceOf shortened []) ∧ shortened.Built ∧
      ∃ s e s₁ s₂ d, History ({}, blank) [] s ∧ emit s = .error e s₁ ∧ emit s₁ = .ok 0 s₂ ∧ s₂.1.length = 2 ∧
        heapSymbol 1 ∉ s₂.2.data ∧ s₂.2.data[heapSymbol 0]? = some d ∧ heapSymbol 1 ∈ d.value.symbols := by
  have hruns : emitAgain (applyAll {} misfitLast, blank) (fun _ n s₂ => (n, s₂.1.length,
      s₂.2.data.contains (heapSymbol 1), (s₂.2.data[heapSymbol 0]?).map (·.value.symbols))) =
      some (0, 2, false, some [heapSymbol 1]) := by cbv
  have hmade : History ({}, blank) [] (applyAll {} misfitLast, blank) := by
    refine History.start.applyAll ⟨fun id hid => absurd hid (not_refersTo_misfit id), ⟨Nat.zero_lt_one, ?_⟩,
      fun id hid => (refersTo_pair hid).trans_lt Nat.zero_lt_one, Nat.one_lt_two, trivial⟩
    rintro target ⟨⟩
  obtain ⟨e, s₁, n, s₂, hfailed, hemit, hread⟩ := exists_of_emitAgain hruns
  obtain ⟨rfl, hlength, hmissing, hfirst⟩ : n = 0 ∧ s₂.1.length = 2 ∧ s₂.2.data.contains (heapSymbol 1) = false ∧
      (s₂.2.data[heapSymbol 0]?).map (·.value.symbols) = some [heapSymbol 1] := by simpa using hread
  obtain ⟨d, hd, hsymbols⟩ := Option.map_eq_some_iff.1 hfirst
  refine ⟨rfl, built_shortened, _, e, s₁, s₂, d, hmade, hfailed, hemit, hlength, fun hmem => ?_, hd,
    by simp [hsymbols]⟩
  rw [Std.TreeMap.contains_iff_mem.2 hmem] at hmissing
  cases hmissing

end NativeBackend.Heap
