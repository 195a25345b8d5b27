import NativeBackend.Proofs.Dispatch.TypeIdArray

namespace NativeBackend

namespace Emission

open Steps

variable {p : Program}

theorem vtableArraySymbol_ne (live : Reachability) (c : ClassDef) :
    vtableArraySymbol ≠ (DispatchTable.ofClass live c).symbol := by
  intro h
  have := congrArg (fun s => s.toList.head?) h
  simp [vtableArraySymbol, DispatchTable.ofClass] at this

theorem emitVtableArray_eq_ok (hp : p.Accepted) {live : Reachability} {done : List ClassDef}
    {e : Emission} (h : VtablesEmitted p live done e) :
    ∃ e' entries, emitVtableArray p e = .ok () e' ∧ Cached p e' ∧ e'.tables.live = live ∧
      e'.module.data = e.module.data.insert vtableArraySymbol
        ⟨vtableArraySymbol, .array entries.length .ptr, .array .ptr entries, .global, true⟩ ∧
      entries.length = p.maxTypeId + 1 ∧
      (∀ c ∈ p.classes, c.isConcrete = true →
        entries[c.typeId]? = some (.symbol (DispatchTable.ofClass live c).symbol)) ∧
      ∀ id ≤ p.maxTypeId, (∀ c ∈ p.classes, c.isConcrete = true → c.typeId ≠ id) →
        entries[id]? = some .null := by
  have hstep : ∀ c ∈ p.classes, c.isConcrete = true →
      ∀ e₁, VtablesEmitted p live done e₁ ∧ e₁.module = e.module →
        ∃ e₂, (do return some (← vtable c).symbol : EmitM (Option String)) e₁ =
            .ok (some (DispatchTable.ofClass live c).symbol) e₂ ∧
          VtablesEmitted p live done e₂ ∧ e₂.module = e.module := by
    intro c hc hk e₁ h₁
    obtain ⟨e₂, hv, h₂, -, hmodule⟩ := h₁.1.vtable_eq_ok hp hc (ClassDef.isInterface_of_isConcrete hk)
    exact ⟨e₂, (bind_of_ok hv _).trans rfl, h₂, hmodule.trans h₁.2⟩
  have hfree : ∀ e₁, VtablesEmitted p live done e₁ ∧ e₁.module = e.module →
      e₁.module.data[vtableArraySymbol]? = none := by
    intro e₁ h₁
    cases hd : e₁.module.data[vtableArraySymbol]? with
    | none => rfl
    | some d =>
        obtain ⟨c, hc⟩ := h₁.1.named _ (h₁.1.marked _ _ hd)
        exact absurd hc (vtableArraySymbol_ne live c)
  obtain ⟨e₁, m, entries, hrun, h₁, hdata, hlength, hconcrete, hnull⟩ :=
    emitGlobalArray_eq_ok hp vtableArraySymbol hstep hfree ⟨h, rfl⟩
  exact ⟨_, entries, hrun, h₁.1.cached, h₁.1.live_eq, h₁.2 ▸ hdata, hlength, hconcrete, hnull⟩

theorem vtableIndex_eq_ok (hp : p.Accepted) {c : ClassDef} (hc : c ∈ p.classes)
    (hi : c.isInterface = false) {e : Emission} (he : Cached p e) (location : Option SourceInfo)
    {m : Method} {i : Nat} (h : (DispatchTable.ofClass e.tables.live c).index? m = some i) :
    ∃ e', vtableIndex location m c e = .ok i e' ∧ e'.diagnostics = e.diagnostics := by
  obtain ⟨cache, hv, -⟩ := vtable_eq_ok hp hc hi he
  refine ⟨{ e with tables.vtables := cache }, ?_, rfl⟩
  rw [vtableIndex, bind_of_ok hv]
  simp only [h]
  rfl

structure Fresh (e : Emission) : Prop where
  vtables : e.tables.vtables = ∅
  emitted : e.tables.emitted = []
  data : e.module.data = ∅

def slotSymbol? (d : DataDefinition) (i : Nat) : Option String :=
  match d.value with
  | .struct _ fields =>
      match fields[i]? with
      | some (_, .symbol name) => some name
      | _ => none
  | _ => none

def callTarget (k : Method) : String :=
  if k.isAbstract then Routine.raiseAbstractMethodError.symbol
  else if k.hasBody then k.symbol
  else Routine.raiseUnsatisfiedLinkError.symbol

theorem symbol_ofMethod (k : Method) : (SlotTarget.ofMethod k).symbol = callTarget k := by
  simp only [SlotTarget.ofMethod, callTarget]
  split
  · rfl
  · split <;> rfl

theorem slotSymbol?_vtableData {live : Reachability} {c : ClassDef} {k : Method} {i : Nat}
    (h : (DispatchTable.ofClass live c).slots[i]? = some k) :
    slotSymbol? (vtableData live c) i = some (callTarget k) := by
  simp [slotSymbol?, vtableData, tableData, SlotTarget.tableConstant, h, symbol_ofMethod]

/-- A call of a virtual method through any class reaches the most derived declaration on the runtime
class: both agree on the slot, and the array of vtables leads to it. Other entries are null. -/
theorem virtual_call_reaches_most_derived (hp : p.Accepted)
    (hclosed : ∀ c ∈ p.classes, ∀ a ∈ c.ancestors, a ∈ p.classes)
    (hnames : (p.classes.map (·.dottedName)).Nodup) {e₀ : Emission} (hfresh : e₀.Fresh)
    {order : List ClassDef} (horder : ∀ c, c ∈ order ↔ c ∈ p.classes) :
    ∃ e entries, (do order.forM emitVtable; emitVtableArray p) e₀ = .ok () e ∧
      e.module.data[vtableArraySymbol]? =
        some ⟨vtableArraySymbol, .array entries.length .ptr, .array .ptr entries, .global, true⟩ ∧
      (∀ c ∈ p.classes, c.isConcrete = true → ∀ a ∈ c.lineage, a.isInterface = false →
        ∀ m ∈ a.instanceMethods, e₀.tables.live.liveMethod m = true → ∀ location,
          ∃ i e₁ e₂ table k, vtableIndex location m a e = .ok i e₁ ∧ e₁.diagnostics = e.diagnostics ∧
            vtableIndex location m c e = .ok i e₂ ∧ e₂.diagnostics = e.diagnostics ∧
            entries[c.typeId]? = some (.symbol table.name) ∧ e.module.data[table.name]? = some table ∧
            c.mostDerived? m = some k ∧ slotSymbol? table i = some (callTarget k)) ∧
      entries.length = p.maxTypeId + 1 ∧
      ∀ id ≤ p.maxTypeId, (∀ c ∈ p.classes, c.isConcrete = true → c.typeId ≠ id) →
        entries[id]? = some .null := by
  obtain ⟨e₁, hrun₁, h₁⟩ := emitVtables_eq_ok hp hnames
    (.of_fresh hfresh.vtables hfresh.emitted hfresh.data) fun c hc => (horder c).1 hc
  obtain ⟨e, entries, hrun, hcached, hlive, hdata, hlength, hconcrete, hnull⟩ :=
    emitVtableArray_eq_ok hp h₁
  refine ⟨e, entries, (bind_of_ok hrun₁ _).trans hrun, ?_, ?_, hlength, hnull⟩
  · rw [hdata]
    exact Std.TreeMap.getElem?_insert_self
  · intro c hc hk a ha hai m hm hlivem location
    have hci := ClassDef.isInterface_of_isConcrete hk
    have hap : a ∈ p.classes := by
      rw [ClassDef.lineage_eq] at ha
      rcases List.mem_cons.1 ha with rfl | ha
      · exact hc
      · exact hclosed c hc a ha
    obtain ⟨i, hi⟩ := DispatchTable.index?_ofClass e₀.tables.live hm hlivem
    have hic := DispatchTable.index?_ofClass_of_mem_lineage e₀.tables.live ha hi
    obtain ⟨k, hslot⟩ : ∃ k, (DispatchTable.ofClass e₀.tables.live c).slots[i]? = some k := by
      have hlt := (List.findIdx?_eq_some_iff_getElem.1 hic).1
      exact ⟨_, List.getElem?_eq_getElem hlt⟩
    have hmarked : (DispatchTable.ofClass e₀.tables.live c).symbol ∈ e₁.tables.emitted :=
      h₁.done c (by simp [(horder c).2 hc]) hk
    obtain ⟨e₂, hindex₂, hdiagnostics₂⟩ := vtableIndex_eq_ok hp hap hai hcached location (hlive ▸ hi)
    obtain ⟨e₃, hindex₃, hdiagnostics₃⟩ := vtableIndex_eq_ok hp hc hci hcached location (hlive ▸ hic)
    refine ⟨i, e₂, e₃, vtableData e₀.tables.live c, k, hindex₂, hdiagnostics₂, hindex₃, hdiagnostics₃,
      hconcrete c hc hk, ?_, ?_, slotSymbol?_vtableData hslot⟩
    · rw [hdata, Std.TreeMap.getElem?_insert, if_neg]
      · exact h₁.defined c hc hmarked
      · intro heq
        exact vtableArraySymbol_ne e₀.tables.live c (Std.compare_eq_iff_eq.1 heq)
    · rw [← DispatchTable.getElem?_slots_ofClass e₀.tables.live c hlivem hic, hslot]

def speak (enclosing : String) (flags : MethodFlags) : Method :=
  .declare enclosing "speak" ⟨[], .void⟩ flags true

def animal : ClassDef :=
  ⟨"zoo/Animal", 19, .abstractClass, none, [], [speak "zoo/Animal" { isAbstract := true }], [], 8⟩

def dog : ClassDef := ⟨"zoo/Dog", 20, .concrete, some animal, [], [speak "zoo/Dog" {}], [], 8⟩

def emptyZoo : Emission where
  tables := { live := .everything, pointerSize := 8, typeIdSize := 4 }
  module := { name := "zoo", pie := false }

theorem virtual_call_of_abstract_method_reaches_override :
    ∃ e i e₁ table, (do [animal, dog].forM emitVtable; emitVtableArray ⟨[animal, dog]⟩) emptyZoo = .ok () e ∧
      vtableIndex none (speak "zoo/Animal" { isAbstract := true }) animal e = .ok i e₁ ∧
      e.module.data[table.name]? = some table ∧ slotSymbol? table i = some "zoo.Dog.speak()V" := by
  have hp : Program.Accepted ⟨[animal, dog]⟩ :=
    .add (.add .empty (show Program.add {} animal = .ok ⟨[animal]⟩ from rfl))
      (show Program.add ⟨[animal]⟩ dog = .ok ⟨[animal, dog]⟩ from rfl)
  have hdotted : [animal, dog].map (·.dottedName) = ["zoo.Animal", "zoo.Dog"] := by cbv
  have hlineage : dog.lineage = [dog, animal] := rfl
  have hmethods : animal.instanceMethods = [speak "zoo/Animal" { isAbstract := true }] := rfl
  obtain ⟨e, entries, hrun, -, hcall, -⟩ := virtual_call_reaches_most_derived hp
    (by simp [animal, dog, ClassDef.ancestors, ClassDef.lineageOf, ClassDef.lineage])
    (by rw [hdotted]; decide) (show emptyZoo.Fresh from ⟨rfl, rfl, rfl⟩) (fun c => Iff.rfl)
  obtain ⟨i, e₁, e₂, table, k, hindex, -, -, -, -, htable, hk, hslot⟩ := hcall dog (by simp) rfl animal
    (by simp [hlineage]) rfl (speak "zoo/Animal" { isAbstract := true }) (by simp [hmethods]) rfl none
  have hdog : dog.mostDerived? (speak "zoo/Animal" { isAbstract := true }) = some (speak "zoo/Dog" {}) := rfl
  rw [hdog] at hk
  cases hk
  have htarget : callTarget (speak "zoo/Dog" {}) = "zoo.Dog.speak()V" := by cbv
  exact ⟨e, i, e₁, table, hrun, hindex, htable, htarget ▸ hslot⟩

end Emission

end NativeBackend
