import NativeBackend.Proofs.Heap.Endless
import NativeBackend.Proofs.Heap.Failures

namespace NativeBackend

open Steps

theorem Fault.withText_eq_endless {text : Option String} {fault : String → Fault} (h : ∀ t, fault t ≠ .endless) :
    withText text fault = .endless ↔ text = none := by
  cases text with
  | none => exact ⟨fun _ => rfl, fun _ => rfl⟩
  | some t => exact ⟨fun heq => absurd heq (h t), by simp⟩

namespace Heap

theorem valueLiteral_of_misfit {d : Descriptor} {value : HeapValue} (hmisfit : value.fits d = false) (h : Heap) :
    valueLiteral d value h = .error (.internal (.withText (value.textIn h.store) (.unserializable · d.text))) h := by
  cases hv : valueLiteral d value h with
  | ok r h' =>
      have hfits := (valueLiteral_isOk_iff d value h).1 ⟨r, h', hv⟩
      rw [hmisfit] at hfits
      cases hfits
  | error e h' =>
      obtain ⟨rfl, -, rfl⟩ := valueLiteral_eq_error hv
      rfl

/-- Writing fields one behind the other comes to one with a value of another kind, and the message about it has no
end. -/
inductive Stuck (store : Array HeapObject) (values : List (String × HeapValue)) : Int → List Field → Prop
  | here {cursor : Int} {f : Field} {rest : List Field} {target : ObjectId} (hplace : cursor ≤ f.offset)
      (hmisfit : (fieldValue values f).fits f.descriptor = false) (hrefers : (fieldValue values f).RefersTo target)
      (hcircular : Circular store target) : Stuck store values cursor (f :: rest)
  | behind {cursor : Int} {f : Field} {rest : List Field} (hplace : cursor ≤ f.offset)
      (hfits : (fieldValue values f).fits f.descriptor = true) (hrest : Stuck store values (f.offset + f.size) rest) :
      Stuck store values cursor (f :: rest)

theorem Stuck.exists_misfit {store : Array HeapObject} {values : List (String × HeapValue)} {cursor : Int}
    {fs : List Field} (h : Stuck store values cursor fs) :
    ∃ f ∈ fs, (fieldValue values f).fits f.descriptor = false ∧
      ∃ target, (fieldValue values f).RefersTo target ∧ Circular store target := by
  induction h with
  | here _ hmisfit hrefers hcircular => exact ⟨_, List.mem_cons_self, hmisfit, _, hrefers, hcircular⟩
  | behind _ _ _ ih =>
      obtain ⟨f, hf, hmisfit⟩ := ih
      exact ⟨f, List.mem_cons_of_mem _ hf, hmisfit⟩

theorem fieldLiterals_endless_iff {cls : ClassDef} {values : List (String × HeapValue)} {finish cursor : Int}
    {fs : List Field} {h : Heap} :
    (∃ h', fieldLiterals cls values finish cursor fs h = .error (.internal .endless) h') ↔
      Stuck h.store values cursor fs := by
  induction fs generalizing cursor h with
  | nil =>
      constructor
      · rintro ⟨h', ⟨⟩⟩
      · rintro ⟨⟩
  | cons f rest ih =>
      rw [fieldLiterals]
      split
      · rename_i hcursor
        constructor
        · rintro ⟨h', ⟨⟩⟩
        · intro hstuck
          cases hstuck <;> omega
      rename_i hcursor
      change (∃ h', (valueLiteral f.descriptor (fieldValue values f) >>= _) h = _) ↔ _
      cases hfits : (fieldValue values f).fits f.descriptor with
      | false =>
          have hfault : ∀ text, Fault.unserializable text f.descriptor.text ≠ .endless := by simp
          rw [bind_of_error (valueLiteral_of_misfit hfits h)]
          simp only [EStateM.Result.error.injEq, Error.internal.injEq, exists_and_left, exists_eq', and_true,
            Fault.withText_eq_endless hfault, textIn_eq_none_iff]
          constructor
          · rintro ⟨target, hrefers, hcircular⟩
            exact .here (Int.not_lt.1 hcursor) hfits hrefers hcircular
          · rintro (⟨-, -, hrefers, hcircular⟩ | ⟨-, hfits', -⟩)
            · exact ⟨_, hrefers, hcircular⟩
            · rw [hfits] at hfits'
              cases hfits'
      | true =>
          obtain ⟨literal, h₁, hvalue⟩ := (valueLiteral_isOk_iff f.descriptor (fieldValue values f) h).2 hfits
          have hstore : h₁.store = h.store := (valueLiteral_eq_ok hvalue).1.store
          rw [bind_of_ok hvalue]
          constructor
          · rintro ⟨h', hf⟩
            rcases bind_eq_error.1 hf with hrest | ⟨literals, h₂, -, hdone⟩
            · exact .behind (Int.not_lt.1 hcursor) hfits (hstore ▸ ih.1 ⟨h', hrest⟩)
            · cases hdone
          · rintro (⟨-, hmisfit, -, -⟩ | ⟨-, -, hrest⟩)
            · rw [hfits] at hmisfit
              cases hmisfit
            · obtain ⟨h', hrest⟩ := ih.2 (hstore.symm ▸ hrest)
              exact ⟨h', bind_of_error hrest _⟩

end Heap

def HeapObject.Stuck (store : Array HeapObject) : HeapObject → Prop
  | .instanceOf cls values => Heap.Stuck store values 4 (cls.instanceFields.mergeSort (·.offset ≤ ·.offset))
  | .arrayOf _ => False

namespace Heap

theorem literal_endless_iff {o : HeapObject} {h : Heap} :
    (∃ h', literal o h = .error (.internal .endless) h') ↔ o.Stuck h.store := by
  cases o with
  | arrayOf a => exact ⟨fun ⟨_, hl⟩ => arrayLiteral_ne_error hl, False.elim⟩
  | instanceOf cls values =>
      rw [HeapObject.Stuck, ← @fieldLiterals_endless_iff cls values (max cls.instanceSize objectHeaderSize)]
      constructor
      · rintro ⟨h', hl⟩
        rcases bind_eq_error.1 hl with hfields | ⟨literals, h₁, -, hdone⟩
        · exact ⟨h', hfields⟩
        · cases hdone
      · rintro ⟨h', hfields⟩
        exact ⟨h', bind_of_error hfields _⟩

section

variable {s s' mid : Heap × Module} {id : ObjectId} {k : Nat} {e : Error}

theorem emitFrom_add (hpassed : emitFrom k s = .ok k mid) (j : Nat) :
    emitFrom (k + j) s = ((· + k) <$> emitFrom j) mid := by
  induction k generalizing s with
  | zero =>
      cases hpassed
      rw [map_apply, Nat.zero_add]
      cases emitFrom j mid <;> rfl
  | succ k ih =>
      cases hid : s.1.interned[s.1.emitted]? with
      | none =>
          rw [emitFrom_of_none k hid] at hpassed
          cases hpassed
      | some id =>
          rw [emitFrom_of_some k hid] at hpassed
          obtain ⟨_, s₁, hnext, hpassed⟩ := bind_eq_ok.1 hpassed
          obtain ⟨n, s₂, hrest, hdone⟩ := bind_eq_ok.1 hpassed
          cases hdone
          rw [Nat.add_right_comm, emitFrom_of_some _ hid, bind_of_ok hnext, map_apply]
          have hstep := ih hrest
          rw [map_apply] at hstep
          cases hj : emitFrom j mid with
          | ok n s₃ =>
              rw [hj] at hstep
              rw [bind_of_ok hstep]
              rfl
          | error e s₃ =>
              rw [hj] at hstep
              rw [bind_of_error hstep]

theorem emitFrom_one (hid : s.1.interned[s.1.emitted]? = some id) (hnext : Heap.emitNext id s = .ok () s') :
    emitFrom 1 s = .ok 1 s' := by
  rw [emitFrom_of_some 0 hid, bind_of_ok hnext]
  rfl

/-- An emission never returns exactly if, behind objects that it emits, it comes to one at which it is stuck. -/
theorem emit_endless_iff (hl : Linked s.1) :
    (∃ s', emit s = .error (.internal .endless) s') ↔ ∃ k mid id o, emitFrom k s = .ok k mid ∧
      mid.1.interned[mid.1.emitted]? = some id ∧ s.1.store[id]? = some o ∧ o.Stuck s.1.store := by
  constructor
  · rintro ⟨s', hfailed⟩
    rw [emit_apply] at hfailed
    obtain ⟨mid, id, ⟨hemitted, k, hpassed⟩, hid, hnext⟩ := emitFrom_eq_error
      (P := fun now => Emitted s now ∧ ∃ k, emitFrom k s = .ok k now)
      (fun now s' id ⟨hnow, k, hpassed⟩ hid hnext => ⟨hnow.emitNext hid hnext, k + 1, by
        rw [emitFrom_add hpassed 1, map_apply, emitFrom_one hid hnext, Nat.add_comm k 1]⟩)
      ⟨.refl s, 0, rfl⟩ hfailed
    obtain ⟨o, ho, -, -, hliteral | ⟨-, hother⟩⟩ := emitNext_eq_error hnext
    · have hstuck := literal_endless_iff.1 ⟨_, hliteral⟩
      rw [hemitted.store] at ho hstuck
      exact ⟨k, mid, id, o, hpassed, hid, ho, hstuck⟩
    · cases hother
  · rintro ⟨k, mid, id, o, hpassed, hid, ho, hstuck⟩
    have hstore : mid.1.store = s.1.store :=
      (emitFrom_induct (fun _ _ _ hs => hs.emitNext) (Emitted.refl s) hpassed).store
    rw [← hstore] at ho hstuck
    obtain ⟨h', hliteral⟩ := (@literal_endless_iff o { mid.1 with emitted := mid.1.emitted + 1 }).2 hstuck
    have hnext : Heap.emitNext id mid = .error (.internal .endless) (h', mid.2) := by
      simp only [Heap.emitNext, ho, hliteral]
    refine ⟨(h', mid.2), ?_⟩
    rw [← hl.emitFrom_of_le (show s.1.store.size ≤ k + (s.1.store.size + 1) by omega), emitFrom_add hpassed,
      map_apply, emitFrom_of_some _ hid, bind_of_error hnext]

/-- It returns if no field gets a value of another kind that leads to a circle. -/
theorem emit_ne_endless (hl : Linked s.1) (h : ∀ (id : ObjectId) cls values,
    s.1.store[id]? = some (.instanceOf cls values) → ∀ f ∈ cls.instanceFields,
      (fieldValue values f).fits f.descriptor = true ∨
        ∀ target, (fieldValue values f).RefersTo target → ¬ Circular s.1.store target) :
    emit s ≠ .error (.internal .endless) s' := by
  intro hfailed
  obtain ⟨_, _, id, o, -, -, ho, hstuck⟩ := (emit_endless_iff hl).1 ⟨s', hfailed⟩
  cases o with
  | arrayOf a => exact hstuck
  | instanceOf cls values =>
      obtain ⟨f, hf, hmisfit, target, hrefers, hcircular⟩ := hstuck.exists_misfit
      rcases h id cls values ho f (List.mem_mergeSort.1 hf) with hfits | hnone
      · rw [hmisfit] at hfits
        cases hfits
      · exact hnone target hrefers hcircular

end

/-- Emission is the exact closure of the interned objects, after any calls. It needs no more steps than there are
objects, and it returns unless it comes to an object at which it is stuck. A symbol that was given out stays, and
where emission succeeds all interned objects are in the module, each once. -/
theorem emit_closure {m : Module} {calls : List EmitCall} {s : Heap × Module} (hr : Run ({}, m) calls s) :
    (∀ steps ≥ s.1.store.size, emitFrom steps s = emit s) ∧
      ((∃ s', emit s = .error (.internal .endless) s') ↔ ∃ k mid id o, emitFrom k s = .ok k mid ∧
        mid.1.interned[mid.1.emitted]? = some id ∧ s.1.store[id]? = some o ∧ o.Stuck s.1.store) ∧
      (∀ more s', Run s more s' → ∀ id ∈ s.1.interned, id ∈ s'.1.interned ∧ s'.1.symbolOf id = s.1.symbolOf id) ∧
      ∀ n s', emit s = .ok n s' → Closure m calls ⟨s, n, s'⟩ :=
  ⟨fun _ hsteps => hr.settled.linked.emitFrom_of_le hsteps, emit_endless_iff hr.settled.linked,
    fun _ _ hmore _ => hr.symbolOf_stays hmore, fun _ _ => hr.closure⟩

/-- Two arrays are linked to a ring, and the first one is given a number. -/
def makeRing : List Request :=
  [.allocate (.arrayOf (.reference [none])), .allocate (.arrayOf (.reference [some 0])), .setElement 0 0 (some 1),
    .intern 0]

def makeList : List Request :=
  [.allocate (.arrayOf (.reference [some 1, none])), .setElement 1 0 (some 2), .pointerTo 2]

def emitTwice : EStateM Error (Heap × Module) (Nat × Nat × Nat) := do
  let n ← emit
  modify fun (h, m) => (applyAll h makeList, m)
  let n' ← emit
  return (n, n', (← get).1.length)

/-- The second emission serializes the new array only. The array that was changed in between stays as it was. -/
theorem emit_closure_of_ring : ∃ calls s s', Run ({}, blank) calls s ∧ calls.map (·.count) = [2] ∧
    (∀ steps ≥ s.1.store.size, emitFrom steps s = emit s) ∧ emit s = .ok 1 s' ∧ s'.1.length = 3 ∧
      Closure blank calls ⟨s, 1, s'⟩ := by
  have htwice : answer? (emitTwice (applyAll {} makeRing, blank)) = some (2, 1, 3) := by decide +kernel
  have hring : Run ({}, blank) [] (applyAll {} makeRing, blank) := by
    refine Run.start.applyAll ⟨?_, ?_, ⟨by decide, ?_⟩, Nat.zero_lt_two, trivial⟩
    · rintro id ⟨v, hv, rfl⟩
      simp [HeapArray.values] at hv
    · rintro id ⟨v, hv, rfl⟩
      obtain rfl : id = 0 := by simpa [HeapArray.values] using hv
      decide
    · rintro target ⟨⟩
      decide
  cases hfirst : emit (applyAll {} makeRing, blank) with
  | error e s =>
      rw [emitTwice, bind_of_error hfirst] at htwice
      cases htwice
  | ok n s =>
      rw [emitTwice, bind_of_ok hfirst, bind_of_ok (modify_apply _ _)] at htwice
      obtain ⟨⟨store, interned, strings, emitted⟩, m⟩ := s
      obtain rfl : store = _ := (emitted_of_emit hfirst).store
      have hlist := @Run.applyAll _ _ _ _ makeList (hring.emit hfirst) <| by
        refine ⟨?_, ⟨show 1 < 3 by decide, ?_⟩, show 2 < 3 by decide, trivial⟩
        · rintro id ⟨v, hv, rfl⟩
          obtain rfl : id = 1 := by simpa [HeapArray.values] using hv
          exact show 1 < 2 by decide
        · rintro target ⟨⟩
          exact show 2 < 3 by decide
      cases hsecond : emit (applyAll ⟨_, interned, strings, emitted⟩ makeList, m) with
      | error e s' =>
          rw [bind_of_error hsecond] at htwice
          cases htwice
      | ok n' s' =>
          rw [bind_of_ok hsecond] at htwice
          obtain ⟨rfl, rfl, hlength⟩ : n = 2 ∧ n' = 1 ∧ s'.1.length = 3 := by
            change some (n, n', s'.1.length) = some (2, 1, 3) at htwice
            simpa using htwice
          obtain ⟨hsteps, -, -, hclosure⟩ := emit_closure hlist
          exact ⟨_, _, s', hlist, rfl, hsteps, hsecond, hlength, hclosure 1 s' hsecond⟩

def chained : ClassDef :=
  ⟨"Derived", 21, .concrete, some measured, [], [], [⟨"x", .object "Derived", false, 16⟩], 24⟩

theorem built_chained : chained.Built := by
  refine @ClassDef.Built.of_build "Derived" 21 .concrete (some measured) [] [] [⟨"x", "LDerived;", false⟩] chained ?_
    (by decide) rfl
  rintro a ⟨⟩
  exact @ClassDef.Built.of_build "Base" 20 .concrete none [] [] [⟨"x", "J", false⟩] measured (by rintro _ ⟨⟩)
    (by decide) rfl

def makeLoop : List Request :=
  [.allocate (.instanceOf chained []), .setField 0 "x" (.reference (some 0)), .intern 0]

/-- An instance refers to itself under the name of a field that hides a number. Each call before succeeds, and
emission does not return. -/
theorem not_emit_closure_of_loop : HeapObject.create chained = .ok (.instanceOf chained []) ∧ chained.Built ∧
    (HeapObject.instanceOf chained []).setField #[.instanceOf chained []] "x" (.reference (some 0)) =
      .ok (.instanceOf chained [("x", .reference (some 0))]) ∧
    ∃ s, Run ({}, blank) [] s ∧ s.1.interned = [0] ∧ ∃ s', emit s = .error (.internal .endless) s' := by
  have hloop : Run ({}, blank) [] (applyAll {} makeLoop, blank) := by
    refine Run.start.applyAll ⟨?_, ⟨Nat.zero_lt_one, ?_⟩, Nat.zero_lt_one, trivial⟩
    · rintro id ⟨name, hmem⟩
      cases hmem
    · rintro target ⟨⟩
      exact Nat.zero_lt_one
  refine ⟨rfl, built_chained, rfl, _, hloop, rfl, (emit_endless_iff hloop.settled.linked).2 ?_⟩
  refine ⟨0, _, 0, .instanceOf chained [("x", .reference (some 0))], rfl, rfl, rfl, ?_⟩
  rw [HeapObject.Stuck, mergeSort_instanceFields built_chained]
  have hrefers : RefersIn (applyAll {} makeLoop).store 0 0 := ⟨_, rfl, "x", List.mem_cons_self⟩
  exact .here (by decide) rfl rfl ⟨0, .refl, .single hrefers⟩

end Heap

end NativeBackend
