import NativeBackend.Proofs.Dispatch.VtableEmission

namespace NativeBackend

namespace Emission

open Steps

variable {Inv : Emission → Prop} {symbolOf : ClassDef → EmitM (Option String)}

section

variable {Slot : ClassDef → Option String → Prop} {Refused : Error → Prop}

/-- Every concrete class gets what its own table is asked for with, and no slot is asked for twice. Only a
class whose table is refused ends the filling. -/
theorem fillSlots_run (array : String) {classes : List ClassDef}
    (hstep : ∀ c ∈ classes, c.isConcrete = true → ∀ e, Inv e →
      (∃ symbol e', symbolOf c e = .ok symbol e' ∧ Inv e' ∧ Slot c symbol) ∨
        ∃ err e', symbolOf c e = .error err e' ∧ Refused err)
    (hnodup : (classes.map (·.typeId)).Nodup) {slots : Array (Option String)}
    (hfree : ∀ c ∈ classes, slots[c.typeId]? = some none) {e : Emission} (he : Inv e) :
    (∃ slots' e', fillSlots array symbolOf classes slots e = .ok slots' e' ∧ Inv e' ∧ slots'.size = slots.size ∧
      (∀ c ∈ classes, c.isConcrete = true → ∃ symbol, slots'[c.typeId]? = some symbol ∧ Slot c symbol) ∧
      ∀ id, (∀ c ∈ classes, c.isConcrete = true → c.typeId ≠ id) → slots'[id]? = slots[id]?) ∨
    ∃ err e', fillSlots array symbolOf classes slots e = .error err e' ∧ Refused err := by
  induction classes generalizing slots e with
  | nil => exact .inl ⟨slots, e, rfl, he, rfl, by simp, by simp⟩
  | cons c classes ih =>
      have hrest := fun d hd => hstep d (List.mem_cons_of_mem c hd)
      obtain ⟨hnew, hnodup'⟩ := List.nodup_cons.1 hnodup
      have hother : ∀ d ∈ classes, d.typeId ≠ c.typeId := by
        intro d hd heq
        exact hnew (List.mem_map.2 ⟨d, hd, heq⟩)
      cases hk : c.isConcrete with
      | false =>
          have hskip : fillSlots array symbolOf (c :: classes) slots e =
              fillSlots array symbolOf classes slots e := by simp [fillSlots, hk]
          rw [hskip]
          refine (ih hrest hnodup' (fun d hd => hfree d (List.mem_cons_of_mem _ hd)) he).imp_left ?_
          rintro ⟨slots', e', hfill, hinv, hsize, hset, hkeep⟩
          refine ⟨slots', e', hfill, hinv, hsize, ?_, fun id hid => ?_⟩
          · intro d hd hdk
            rcases List.mem_cons.1 hd with rfl | hd
            · simp [hk] at hdk
            · exact hset d hd hdk
          · exact hkeep id fun d hd => hid d (List.mem_cons_of_mem _ hd)
      | true =>
          have hslot := hfree c List.mem_cons_self
          have hlt : c.typeId < slots.size := (Array.getElem?_eq_some_iff.1 hslot).1
          have htaken : (slots.getD c.typeId none).isSome = false := by
            rw [Array.getD_eq_getD_getElem?, hslot]
            rfl
          simp only [fillSlots, hk, htaken, if_true, Bool.false_eq_true, if_false]
          rcases hstep c List.mem_cons_self hk e he with
            ⟨symbol, e₁, hsymbol, he₁, hgood⟩ | ⟨err, e₁, hsymbol, hrefused⟩
          · have hfilled : ∀ id, id ≠ c.typeId → (slots.setIfInBounds c.typeId symbol)[id]? = slots[id]? := by
              intro id hid
              exact Array.getElem?_setIfInBounds_ne (Ne.symm hid)
            have hfree' : ∀ d ∈ classes, (slots.setIfInBounds c.typeId symbol)[d.typeId]? = some none := by
              intro d hd
              rw [hfilled _ (hother d hd)]
              exact hfree d (List.mem_cons_of_mem _ hd)
            have hrun : ∀ r, fillSlots array symbolOf classes (slots.setIfInBounds c.typeId symbol) e₁ = r →
                (do
                  let symbol ← symbolOf c
                  fillSlots array symbolOf classes (slots.setIfInBounds c.typeId symbol)) e = r :=
              fun r h => (bind_of_ok hsymbol _).trans h
            rcases ih hrest hnodup' hfree' he₁ with
              ⟨slots', e', hfill, hinv, hsize, hset, hkeep⟩ | ⟨err, e', hfill, hbad⟩
            · refine .inl ⟨slots', e', hrun _ hfill, hinv, hsize.trans Array.size_setIfInBounds, ?_, ?_⟩
              · intro d hd hdk
                rcases List.mem_cons.1 hd with rfl | hd
                · refine ⟨symbol, ?_, hgood⟩
                  rw [hkeep _ fun k hk _ => hother k hk]
                  exact Array.getElem?_setIfInBounds_self_of_lt hlt
                · exact hset d hd hdk
              · intro id hid
                rw [hkeep id fun d hd => hid d (List.mem_cons_of_mem _ hd)]
                exact hfilled id (Ne.symm (hid c List.mem_cons_self hk))
            · exact .inr ⟨err, e', hrun _ hfill, hbad⟩
          · exact .inr ⟨err, e₁, bind_of_error hsymbol _, hrefused⟩

theorem emitGlobalArray_run {p : Program} (hp : p.Accepted) (symbol : String)
    (hstep : ∀ c ∈ p.classes, c.isConcrete = true → ∀ e, Inv e →
      (∃ symbol e', symbolOf c e = .ok symbol e' ∧ Inv e' ∧ Slot c symbol) ∨
        ∃ err e', symbolOf c e = .error err e' ∧ Refused err)
    (hfree : ∀ e, Inv e → e.module.data[symbol]? = none) {e : Emission} (he : Inv e) :
    (∃ e₁ m entries, emitGlobalArray p symbol symbolOf e = .ok () { e₁ with module := m } ∧ Inv e₁ ∧
      m.data = e₁.module.data.insert symbol
        ⟨symbol, .array entries.length .ptr, .array .ptr entries, .global, true⟩ ∧
      entries.length = p.maxTypeId + 1 ∧
      (∀ c ∈ p.classes, c.isConcrete = true → ∃ symbol, entries[c.typeId]? = some (slotConstant symbol) ∧
        Slot c symbol) ∧
      ∀ id ≤ p.maxTypeId, (∀ c ∈ p.classes, c.isConcrete = true → c.typeId ≠ id) →
        entries[id]? = some .null) ∨
    ∃ err e', emitGlobalArray p symbol symbolOf e = .error err e' ∧ Refused err := by
  have hnone : ∀ id ≤ p.maxTypeId,
      (Array.replicate (p.maxTypeId + 1) (none : Option String))[id]? = some none := by
    intro id hid
    rw [Array.getElem?_replicate, if_pos (by omega)]
  rw [emitGlobalArray]
  rcases fillSlots_run symbol hstep hp.nodup_typeId (fun c hc => hnone _ (Program.typeId_le_max hc)) he with
    ⟨slots, e₁, hfill, he₁, hsize, hset, hkeep⟩ | ⟨err, e', hfill, hrefused⟩
  · have hentry : ∀ id : Nat, (slots.toList.map slotConstant)[id]? = slots[id]?.map slotConstant := by
      intro id
      rw [List.getElem?_map, Array.getElem?_toList]
    obtain ⟨m, hm, hdata⟩ := addData_eq_ok (hfree e₁ he₁) (.array (slots.toList.map slotConstant).length .ptr)
      (.array .ptr (slots.toList.map slotConstant)) .global
    refine .inl ⟨e₁, m, slots.toList.map slotConstant, ?_, he₁, hdata, ?_, ?_, ?_⟩
    · rw [bind_of_ok hfill]
      exact updateModule_of_ok hm
    · rw [List.length_map, Array.length_toList, hsize, Array.size_replicate]
    · intro c hc hk
      obtain ⟨symbol, hslot, hgood⟩ := hset c hc hk
      exact ⟨symbol, by rw [hentry, hslot]; rfl, hgood⟩
    · intro id hid hno
      rw [hentry, hkeep id hno, hnone id hid]
      rfl
  · exact .inr ⟨err, e', bind_of_error hfill _, hrefused⟩

end

variable {table : ClassDef → Option String}

theorem emitGlobalArray_eq_ok {p : Program} (hp : p.Accepted) (symbol : String)
    (hstep : ∀ c ∈ p.classes, c.isConcrete = true → ∀ e, Inv e → ∃ e', symbolOf c e = .ok (table c) e' ∧ Inv e')
    (hfree : ∀ e, Inv e → e.module.data[symbol]? = none) {e : Emission} (he : Inv e) :
    ∃ e₁ m entries, emitGlobalArray p symbol symbolOf e = .ok () { e₁ with module := m } ∧ Inv e₁ ∧
      m.data = e₁.module.data.insert symbol
        ⟨symbol, .array entries.length .ptr, .array .ptr entries, .global, true⟩ ∧
      entries.length = p.maxTypeId + 1 ∧
      (∀ c ∈ p.classes, c.isConcrete = true → entries[c.typeId]? = some (slotConstant (table c))) ∧
      ∀ id ≤ p.maxTypeId, (∀ c ∈ p.classes, c.isConcrete = true → c.typeId ≠ id) →
        entries[id]? = some .null := by
  have hstep' : ∀ c ∈ p.classes, c.isConcrete = true → ∀ e, Inv e →
      (∃ symbol e', symbolOf c e = .ok symbol e' ∧ Inv e' ∧ symbol = table c) ∨
        ∃ err e', symbolOf c e = .error err e' ∧ False := by
    intro c hc hk e he
    obtain ⟨e', hsymbol, he'⟩ := hstep c hc hk e he
    exact .inl ⟨_, e', hsymbol, he', rfl⟩
  obtain ⟨e₁, m, entries, hrun, he₁, hdata, hlength, hset, hnull⟩ | ⟨_, _, -, ⟨⟩⟩ :=
    emitGlobalArray_run hp symbol hstep' hfree he
  refine ⟨e₁, m, entries, hrun, he₁, hdata, hlength, fun c hc hk => ?_, hnull⟩
  obtain ⟨_, hentry, rfl⟩ := hset c hc hk
  exact hentry

end Emission

end NativeBackend
