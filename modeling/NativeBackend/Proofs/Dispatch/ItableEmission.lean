import NativeBackend.Proofs.Dispatch.ItableSymbols
import NativeBackend.Proofs.Dispatch.VtableEmission

namespace NativeBackend

namespace Emission

open Steps

def itableData (live : Reachability) (c i : ClassDef) : DataDefinition :=
  tableData (c.itableSymbol i) ((DispatchTable.ofInterface live i).slots.map (SlotTarget.ofSelector c))

def dictionaryData (idType : IrType) (c : ClassDef) (interfaces : List ClassDef) : DataDefinition :=
  ⟨c.dictionarySymbol, .array (interfaces.length + 1) (.struct false [.ptr, idType]),
    .array (.struct false [.ptr, idType]) (interfaces.map (dictionaryEntry idType c) ++ [.zero]), .internal, true⟩

def CachedItables (p : Program) (e : Emission) : Prop :=
  ∀ id t, e.tables.itables[id]? = some t →
    ∃ i ∈ p.classes, i.typeId = id ∧ t = DispatchTable.ofInterface e.tables.live i

variable {p : Program}

theorem itable_eq_ok (hp : p.Accepted) {i : ClassDef} (hi : i ∈ p.classes) (hk : i.isInterface = true)
    {e : Emission} (he : CachedItables p e) :
    ∃ cache, itable i e = .ok (.ofInterface e.tables.live i) { e with tables.itables := cache } ∧
      CachedItables p { e with tables.itables := cache } := by
  simp only [itable, hk, Bool.not_true, Bool.false_eq_true, if_false]
  rw [bind_of_ok (get_apply e)]
  cases ht : e.tables.itables[i.typeId]? with
  | some t =>
      obtain ⟨j, hj, hid, rfl⟩ := he _ _ ht
      rw [hp.eq_of_typeId hj hi hid]
      exact ⟨e.tables.itables, rfl, he⟩
  | none =>
      refine ⟨e.tables.itables.insert i.typeId (.ofInterface e.tables.live i), rfl, ?_⟩
      intro id t h
      obtain ⟨hid, rfl⟩ | ⟨-, h⟩ := Maps.getElem?_insert_eq_some.1 h
      · exact ⟨i, hi, hid, rfl⟩
      · exact he id t h

theorem anyItable_eq_ok (hp : p.Accepted) {interfaces : List ClassDef}
    (hin : ∀ i ∈ interfaces, i ∈ p.classes ∧ i.isInterface = true) {e : Emission} (he : CachedItables p e) :
    ∃ cache, anyItable interfaces e =
        .ok (interfaces.any fun i => !(DispatchTable.ofInterface e.tables.live i).isEmpty)
          { e with tables.itables := cache } ∧
      CachedItables p { e with tables.itables := cache } := by
  induction interfaces generalizing e with
  | nil => exact ⟨e.tables.itables, rfl, he⟩
  | cons i rest ih =>
      obtain ⟨cache, hitable, hcached⟩ := itable_eq_ok hp (hin i List.mem_cons_self).1 (hin i List.mem_cons_self).2 he
      rw [anyItable, bind_of_ok hitable, List.any_cons]
      cases hempty : (DispatchTable.ofInterface e.tables.live i).isEmpty with
      | true => exact ih (fun j hj => hin j (List.mem_cons_of_mem _ hj)) hcached
      | false => exact ⟨cache, rfl, hcached⟩

theorem hasItables_eq_ok (hp : p.Dispatchable) {c : ClassDef} (hc : c ∈ p.classes) {e : Emission}
    (he : CachedItables p e) :
    ∃ cache, hasItables c e = .ok (!(c.liveInterfaces e.tables.live).isEmpty) { e with tables.itables := cache } ∧
      CachedItables p { e with tables.itables := cache } := by
  obtain ⟨cache, hany, hcached⟩ := anyItable_eq_ok hp.accepted (fun i hi => hp.interface hc hi) he
  refine ⟨cache, ?_, hcached⟩
  rw [hasItables, hany]
  congr 1
  rw [Bool.eq_iff_iff]
  simp [ClassDef.liveInterfaces, List.filter_eq_nil_iff]

theorem emitItablesOf_eq_ok (hp : p.Accepted) {c : ClassDef} {interfaces : List ClassDef}
    (hin : ∀ i ∈ interfaces, i ∈ p.classes ∧ i.isInterface = true)
    (hdistinct : (interfaces.map c.itableSymbol).Nodup) {e : Emission}
    (hnew : ∀ i ∈ interfaces, e.module.data[c.itableSymbol i]? = none) (he : CachedItables p e) :
    ∃ e', emitItablesOf c interfaces e =
        .ok (interfaces.filter fun i => !(DispatchTable.ofInterface e.tables.live i).isEmpty) e' ∧
      CachedItables p e' ∧ e'.tables.live = e.tables.live ∧ e'.tables.emitted = e.tables.emitted ∧
      e'.tables.typeIdSize = e.tables.typeIdSize ∧
      (∀ i ∈ interfaces, (DispatchTable.ofInterface e.tables.live i).isEmpty = false →
        e'.module.data[c.itableSymbol i]? = some (itableData e.tables.live c i)) ∧
      ∀ name, name ∉ interfaces.map c.itableSymbol → e'.module.data[name]? = e.module.data[name]? := by
  induction interfaces generalizing e with
  | nil => exact ⟨e, rfl, he, rfl, rfl, rfl, by simp, fun _ _ => rfl⟩
  | cons i rest ih =>
      have hrest : ∀ j ∈ rest, j ∈ p.classes ∧ j.isInterface = true := fun j hj => hin j (List.mem_cons_of_mem _ hj)
      obtain ⟨hnot, hdistinct'⟩ := List.nodup_cons.1 hdistinct
      have hne : ∀ j ∈ rest, c.itableSymbol j ≠ c.itableSymbol i := fun j hj heq =>
        hnot (List.mem_map.2 ⟨j, hj, heq⟩)
      obtain ⟨cache, hitable, hcached⟩ := itable_eq_ok hp (hin i List.mem_cons_self).1 (hin i List.mem_cons_self).2 he
      rw [emitItablesOf, bind_of_ok hitable, List.filter_cons]
      cases hempty : (DispatchTable.ofInterface e.tables.live i).isEmpty with
      | true =>
          obtain ⟨e', hrun, hcached', hlive, hemitted, hsize, hdefined, hkeep⟩ :=
            @ih hrest hdistinct' { e with tables.itables := cache }
              (fun j hj => hnew j (List.mem_cons_of_mem _ hj)) hcached
          refine ⟨e', by simpa using hrun, hcached', hlive, hemitted, hsize, ?_, ?_⟩
          · intro j hj hjne
            rcases List.mem_cons.1 hj with rfl | hj
            · rw [hempty] at hjne
              cases hjne
            · exact hdefined j hj hjne
          · intro name hname
            exact hkeep name fun h => hname (List.mem_cons_of_mem _ h)
      | false =>
          simp only [Bool.false_eq_true, if_false, Bool.not_false, if_true]
          obtain ⟨d, hreport⟩ := reportMissing_eq_ok c "itable"
            (resolvedSlots c (DispatchTable.ofInterface e.tables.live i).slots) { e with tables.itables := cache }
          obtain ⟨m, hm, hdata⟩ := @defineTable_eq_ok (c.itableSymbol i)
            { e with tables.itables := cache, diagnostics := d } (hnew i List.mem_cons_self)
            ((DispatchTable.ofInterface e.tables.live i).slots.map (SlotTarget.ofSelector c))
          have hother : ∀ name, name ≠ c.itableSymbol i → m.data[name]? = e.module.data[name]? := by
            intro name hname
            rw [hdata, Maps.getElem?_insert_of_ne (Ne.symm hname)]
          obtain ⟨e', hrun, hcached', hlive, hemitted, hsize, hdefined, hkeep⟩ :=
            @ih hrest hdistinct' { e with
                tables.itables := cache
                tables.statistics := { e.tables.statistics with
                  itables := e.tables.statistics.itables + 1
                  itableSlots := e.tables.statistics.itableSlots +
                    (DispatchTable.ofInterface e.tables.live i).slots.length }
                diagnostics := d
                module := m }
              (fun j hj => (hother _ (hne j hj)).trans (hnew j (List.mem_cons_of_mem _ hj))) hcached
          refine ⟨e', ?_, hcached', hlive, hemitted, hsize, ?_, ?_⟩
          · rw [bind_of_ok hreport, bind_of_ok hm]
            refine (bind_of_ok (modify_apply _ _) _).trans ((bind_of_ok hrun _).trans rfl)
          · intro j hj hjne
            rcases List.mem_cons.1 hj with rfl | hj
            · rw [hkeep _ hnot, hdata]
              exact Std.TreeMap.getElem?_insert_self
            · exact hdefined j hj hjne
          · intro name hname
            rw [List.map_cons, List.mem_cons, not_or] at hname
            exact (hkeep name hname.2).trans (hother name hname.1)

structure HoldsItables (live : Reachability) (idType : IrType) (m : Module) (c : ClassDef) : Prop where
  dictionary : m.data[c.dictionarySymbol]? = some (dictionaryData idType c (c.liveInterfaces live))
  itable : ∀ i ∈ c.liveInterfaces live, m.data[c.itableSymbol i]? = some (itableData live c i)

theorem HoldsItables.congr {live : Reachability} {idType : IrType} {m m' : Module} {c : ClassDef}
    (h : HoldsItables live idType m c) (hsame : ∀ name ∈ c.dispatchSymbols, m'.data[name]? = m.data[name]?) :
    HoldsItables live idType m' c where
  dictionary := (hsame _ List.mem_cons_self).trans h.dictionary
  itable i hi := (hsame _ (ClassDef.itableSymbol_mem (ClassDef.mem_liveInterfaces.1 hi).1)).trans (h.itable i hi)

structure NoItables (p : Program) (e : Emission) : Prop where
  itables : e.tables.itables = ∅
  emitted : ∀ c ∈ p.classes, c.dictionarySymbol ∉ e.tables.emitted
  data : ∀ c ∈ p.classes, ∀ name ∈ c.dispatchSymbols, e.module.data[name]? = none
  array : e.module.data[itableArraySymbol]? = none

/-- What holds between the emissions of itables: the dictionaries marked as emitted are there with
their itables, and the symbols of all other classes are free. -/
structure ItablesEmitted (p : Program) (live : Reachability) (idType : IrType) (done : List ClassDef)
    (e : Emission) : Prop where
  live_eq : e.tables.live = live
  width : IrType.ofBytes? e.tables.typeIdSize = some idType
  cached : CachedItables p e
  held : ∀ c ∈ p.classes, c.isConcrete = true → c.dictionarySymbol ∈ e.tables.emitted →
    HoldsItables live idType e.module c
  free : ∀ c ∈ p.classes, c.isConcrete = true → c.dictionarySymbol ∉ e.tables.emitted →
    ∀ name ∈ c.dispatchSymbols, e.module.data[name]? = none
  done : ∀ c ∈ done, c.isConcrete = true → c.liveInterfaces live ≠ [] → c.dictionarySymbol ∈ e.tables.emitted
  array : e.module.data[itableArraySymbol]? = none

theorem ItablesEmitted.of_noItables {e : Emission} {idType : IrType}
    (hwidth : IrType.ofBytes? e.tables.typeIdSize = some idType) (h : NoItables p e) :
    ItablesEmitted p e.tables.live idType [] e where
  live_eq := rfl
  width := hwidth
  cached id t ht := by simp [h.itables] at ht
  held c hc _ hmem := absurd hmem (h.emitted c hc)
  free c hc _ _ := h.data c hc
  done c hc := by simp at hc
  array := h.array

theorem ItablesEmitted.hasItables_eq_ok (hp : p.Dispatchable) {live : Reachability} {idType : IrType}
    {done : List ClassDef} {e : Emission} (h : ItablesEmitted p live idType done e) {c : ClassDef}
    (hc : c ∈ p.classes) :
    ∃ e', hasItables c e = .ok (!(c.liveInterfaces live).isEmpty) e' ∧ ItablesEmitted p live idType done e' ∧
      e'.module = e.module ∧ e'.tables.emitted = e.tables.emitted := by
  obtain ⟨rfl, hwidth, hcached, hheld, hfree, hdone, harray⟩ := h
  obtain ⟨cache, hhas, hcached⟩ := Emission.hasItables_eq_ok hp hc hcached
  exact ⟨_, hhas, ⟨rfl, hwidth, hcached, hheld, hfree, hdone, harray⟩, rfl, rfl⟩

theorem ItablesEmitted.cons {live : Reachability} {idType : IrType} {done : List ClassDef} {e : Emission}
    (h : ItablesEmitted p live idType done e) {c : ClassDef}
    (hdone : c.isConcrete = true → c.liveInterfaces live ≠ [] → c.dictionarySymbol ∈ e.tables.emitted) :
    ItablesEmitted p live idType (c :: done) e :=
  { h with
    done := fun d hd hdk hdne => by
      rcases List.mem_cons.1 hd with rfl | hd
      · exact hdone hdk hdne
      · exact h.done d hd hdk hdne }

theorem ItablesEmitted.define (hp : p.Dispatchable) {live : Reachability} {idType : IrType} {done : List ClassDef}
    {e : Emission} (h : ItablesEmitted p live idType done e) {c : ClassDef} (hc : c ∈ p.classes)
    (hk : c.isConcrete = true) (hnew : c.dictionarySymbol ∉ e.tables.emitted) :
    ∃ e₁ m, emitItablesOf c c.allInterfaces
        { e with tables.emitted := c.dictionarySymbol :: e.tables.emitted } = .ok (c.liveInterfaces live) e₁ ∧
      e₁.module.addData c.dictionarySymbol (dictionaryData idType c (c.liveInterfaces live)).type
        (dictionaryData idType c (c.liveInterfaces live)).value .internal = .ok m ∧
      ∀ statistics, ItablesEmitted p live idType (c :: done)
        { e₁ with module := m, tables.statistics := statistics } := by
  obtain ⟨rfl, hwidth, hcached, hheld, hfree, hdone, harray⟩ := h
  have hempty := hfree c hc hk hnew
  obtain ⟨hnot, hdistinct⟩ := List.nodup_cons.1 (hp.nodup_dispatchSymbols hc hk)
  obtain ⟨e₁, hrun, hcached₁, hlive₁, hemitted₁, hsize₁, hdefined, hkeep⟩ :=
    @emitItablesOf_eq_ok p hp.accepted c c.allInterfaces (fun i hi => hp.interface hc hi) hdistinct
      { e with tables.emitted := c.dictionarySymbol :: e.tables.emitted }
      (fun i hi => hempty _ (ClassDef.itableSymbol_mem hi)) hcached
  obtain ⟨m, hm, hdata⟩ := @addData_eq_ok e₁.module c.dictionarySymbol
    ((hkeep _ hnot).trans (hempty _ List.mem_cons_self))
    (dictionaryData idType c (c.liveInterfaces e.tables.live)).type
    (dictionaryData idType c (c.liveInterfaces e.tables.live)).value .internal
  have hother : ∀ name, name ∉ c.dispatchSymbols → m.data[name]? = e.module.data[name]? := by
    intro name hname
    rw [ClassDef.dispatchSymbols, List.mem_cons, not_or] at hname
    rw [hdata, Maps.getElem?_insert_of_ne (Ne.symm hname.1)]
    exact hkeep name hname.2
  have hothers : ∀ d ∈ p.classes, d.isConcrete = true → d ≠ c → ∀ name ∈ d.dispatchSymbols,
      m.data[name]? = e.module.data[name]? := fun d hd hdk hne name hname =>
    hother name fun hmem => hne (hp.eq_of_mem_dispatchSymbols hd hdk hc hk hname hmem)
  have hholds : HoldsItables e.tables.live idType m c := by
    refine ⟨?_, fun i hi => ?_⟩
    · rw [hdata]
      exact Std.TreeMap.getElem?_insert_self
    · have hi' := List.mem_filter.1 hi
      rw [hdata, Maps.getElem?_insert_of_ne]
      · exact hdefined i hi'.1 (by simpa using hi'.2)
      · exact fun heq => hnot (heq ▸ List.mem_map_of_mem hi'.1)
  refine ⟨e₁, m, hrun, hm, fun statistics => ⟨hlive₁, ?_, hcached₁, ?_, ?_, ?_, ?_⟩⟩
  · rw [← hwidth]
    exact congrArg IrType.ofBytes? hsize₁
  · intro d hd hdk hmem
    by_cases hdc : d = c
    · exact hdc ▸ hholds
    · have hmem' : d.dictionarySymbol ∈ e.tables.emitted := by
        rw [hemitted₁] at hmem
        refine (List.mem_cons.1 hmem).resolve_left fun heq => hdc ?_
        exact hp.eq_of_mem_dispatchSymbols hd hdk hc hk List.mem_cons_self (heq ▸ List.mem_cons_self)
      exact (hheld d hd hdk hmem').congr (hothers d hd hdk hdc)
  · intro d hd hdk hmem name hname
    rw [hemitted₁, List.mem_cons, not_or] at hmem
    exact (hothers d hd hdk (fun heq => hmem.1 (heq ▸ rfl)) name hname).trans (hfree d hd hdk hmem.2 name hname)
  · intro d hd hdk hdne
    rw [hemitted₁]
    rcases List.mem_cons.1 hd with rfl | hd
    · exact List.mem_cons_self
    · exact List.mem_cons_of_mem _ (hdone d hd hdk hdne)
  · exact (hother _ (itableArraySymbol_notMem c)).trans harray

theorem emitItables_eq_ok (hp : p.Dispatchable) {live : Reachability} {idType : IrType} {done : List ClassDef}
    {e : Emission} (h : ItablesEmitted p live idType done e) {c : ClassDef} (hc : c ∈ p.classes) :
    ∃ e', emitItables c e = .ok () e' ∧ ItablesEmitted p live idType (c :: done) e' := by
  rw [emitItables]
  cases hk : c.isConcrete with
  | false => exact ⟨e, rfl, h.cons fun hk' => by simp [hk] at hk'⟩
  | true =>
      obtain ⟨e₁, hhas, h₁, -, -⟩ := h.hasItables_eq_ok hp hc
      simp only [Bool.not_true, Bool.false_eq_true, if_false]
      rw [bind_of_ok hhas]
      cases hnone : (c.liveInterfaces live).isEmpty with
      | true => exact ⟨e₁, rfl, h₁.cons fun _ hne => absurd (List.isEmpty_iff.1 hnone) hne⟩
      | false =>
          simp only [Bool.not_false, Bool.not_true, Bool.false_eq_true, if_false]
          by_cases hknown : c.dictionarySymbol ∈ e₁.tables.emitted
          · rw [bind_of_ok (markEmitted_of_mem hknown)]
            exact ⟨e₁, rfl, h₁.cons fun _ _ => hknown⟩
          · obtain ⟨e₂, m, hrun, hm, h₂⟩ := h₁.define hp hc hk hknown
            rw [bind_of_ok (markEmitted_of_notMem hknown)]
            simp only [Bool.not_true, Bool.false_eq_true, if_false]
            rw [bind_of_ok (get_apply _)]
            simp only [h₁.width]
            rw [bind_of_ok hrun, bind_of_ok (updateModule_of_ok (by simpa [dictionaryData] using hm))]
            exact ⟨_, rfl, h₂ _⟩

theorem emitItables_all_eq_ok (hp : p.Dispatchable) {live : Reachability} {idType : IrType} {done : List ClassDef}
    {e : Emission} (h : ItablesEmitted p live idType done e) {order : List ClassDef}
    (horder : ∀ c ∈ order, c ∈ p.classes) :
    ∃ e', order.forM emitItables e = .ok () e' ∧ ItablesEmitted p live idType (order.reverse ++ done) e' := by
  induction order generalizing done e with
  | nil => exact ⟨e, rfl, h⟩
  | cons c order ih =>
      obtain ⟨e₁, h₁, hdone₁⟩ := emitItables_eq_ok hp h (horder c List.mem_cons_self)
      obtain ⟨e₂, h₂, hdone₂⟩ := ih hdone₁ fun d hd => horder d (List.mem_cons_of_mem _ hd)
      exact ⟨e₂, (bind_of_ok h₁ _).trans h₂, by simpa using hdone₂⟩

end Emission

end NativeBackend
