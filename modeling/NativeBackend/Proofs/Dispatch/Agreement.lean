import NativeBackend.Proofs.Dispatch.Growth
import NativeBackend.Proofs.Dispatch.Interface

namespace NativeBackend

namespace ClassDef

variable {a c : ClassDef} {k m : Method}

def SelectorsOnce (c : ClassDef) : Prop := ∀ a ∈ c.lineage, (a.methods.map (·.selector)).Nodup

/-- The declaration of a method's selector that is nearest on the superclass chain, static ones apart. -/
def nearest? (c : ClassDef) (m : Method) : Option Method :=
  c.lineage.findSome? (·.declared? (!·.isStatic) m.name m.descriptor)

theorem resolveMethod?_of_nearest? (h : c.nearest? m = some k) : c.resolveMethod? m.name m.descriptor = some k := by
  rw [nearest?] at h
  simp only [resolveMethod?, h]

theorem eq_of_selector (honce : (a.methods.map (·.selector)).Nodup) {k' : Method} (hk : k ∈ a.methods)
    (hk' : k' ∈ a.methods) (h : k.sameSelector m = true) (h' : k'.sameSelector m = true) : k = k' :=
  List.inj_on_of_nodup_map honce hk hk' ((Method.sameSelector_iff.1 h).trans (Method.sameSelector_iff.1 h').symm)

theorem mem_of_findRev? (h : a.virtualMethods.findRev? (·.sameSelector m) = some k) :
    k ∈ a.methods ∧ k.isVirtual = true ∧ k.sameSelector m = true := by
  rw [List.findRev?_eq_find?_reverse] at h
  obtain ⟨hmem, hvirtual⟩ := List.mem_filter.1 (List.mem_reverse.1 (List.mem_of_find?_eq_some h))
  exact ⟨hmem, hvirtual, by simpa using List.find?_some h⟩

theorem declared?_of_virtual (honce : (a.methods.map (·.selector)).Nodup)
    (h : a.virtualMethods.findRev? (·.sameSelector m) = some k) :
    a.declared? (!·.isStatic) m.name m.descriptor = some k := by
  obtain ⟨hmem, hvirtual, hsame⟩ := mem_of_findRev? h
  have hstatic : k.isStatic = false := by
    simp only [Method.isVirtual, Bool.and_eq_true, Bool.not_eq_true'] at hvirtual
    exact hvirtual.1.1
  cases hfound : a.declared? (!·.isStatic) m.name m.descriptor with
  | none =>
      have := List.find?_eq_none.1 hfound k hmem
      simp [hstatic, show k.hasSelector m.name m.descriptor = true from hsame] at this
  | some k' =>
      have hk' := List.find?_some hfound
      rw [Bool.and_eq_true] at hk'
      rw [eq_of_selector honce hmem (List.mem_of_find?_eq_some hfound) hsame hk'.2]

theorem isPrivate_of_declared? (hname : m.name.toList.head? ≠ some '<')
    (h : a.virtualMethods.findRev? (·.sameSelector m) = none)
    (hfound : a.declared? (!·.isStatic) m.name m.descriptor = some k) : k.flags.isPrivate = true := by
  have hk := List.find?_some hfound
  simp only [Bool.and_eq_true, Bool.not_eq_true'] at hk
  have hsame : k.sameSelector m = true := hk.2
  rw [List.findRev?_eq_find?_reverse, List.find?_eq_none] at h
  by_contra hprivate
  refine h k (List.mem_reverse.2 (List.mem_filter.2 ⟨List.mem_of_find?_eq_some hfound, ?_⟩)) hsame
  have hsameName : k.name = m.name := congrArg Prod.fst (Method.sameSelector_iff.1 hsame)
  simp only [Method.isVirtual, Bool.and_eq_true, Bool.not_eq_true', bne_iff_ne, ne_eq]
  exact ⟨⟨hk.1, by simpa using hprivate⟩, hsameName ▸ hname⟩

theorem isVirtual_of_mostDerived? (h : c.mostDerived? m = some k) :
    k.isVirtual = true ∧ k.sameSelector m = true := by
  obtain ⟨a, -, ha⟩ := List.exists_of_findSome?_eq_some h
  exact (mem_of_findRev? ha).2

/-- Both searches look at the same classes in the same order; only a private declaration tells them apart. -/
theorem nearest?_of_mostDerived? (honce : c.SelectorsOnce) (h : c.mostDerived? m = some k) :
    ∃ k', c.nearest? m = some k' ∧ (k'.flags.isPrivate = false → k' = k) := by
  obtain ⟨hvirtual, hsame⟩ := isVirtual_of_mostDerived? h
  have hname : m.name.toList.head? ≠ some '<' := by
    have hsameName : k.name = m.name := congrArg Prod.fst (Method.sameSelector_iff.1 hsame)
    simp only [Method.isVirtual, Bool.and_eq_true, bne_iff_ne, ne_eq] at hvirtual
    exact hsameName ▸ hvirtual.2
  rw [mostDerived?] at h
  rw [nearest?]
  rw [SelectorsOnce] at honce
  generalize c.lineage = classes at h honce ⊢
  induction classes with
  | nil => cases h
  | cons a classes ih =>
      have hrest := fun h => ih h fun b hb => honce b (List.mem_cons_of_mem _ hb)
      rw [List.findSome?_cons] at h ⊢
      cases hv : a.virtualMethods.findRev? (·.sameSelector m) with
      | some k₁ =>
          rw [hv] at h
          cases h
          rw [declared?_of_virtual (honce a List.mem_cons_self) hv]
          exact ⟨k, rfl, fun _ => rfl⟩
      | none =>
          rw [hv] at h
          cases hd : a.declared? (!·.isStatic) m.name m.descriptor with
          | none => exact hrest h
          | some k' => exact ⟨k', rfl, fun hpublic => by simp [isPrivate_of_declared? hname hv hd] at hpublic⟩

end ClassDef

namespace Emission

open Steps

variable {p : Program} {c : ClassDef} {e₀ e : Emission}

theorem held_of_emit (hp : p.Accepted) (hc : c ∈ p.classes) (hk : c.isConcrete = true) (he : Cached p e₀)
    (hvtable : (TableRequest.vtable c).mark ∉ e₀.tables.emitted)
    (hitables : (TableRequest.itables c).mark ∉ e₀.tables.emitted)
    (hrun : (do emitVtable c; emitItables c) e₀ = .ok () e) :
    e.tables.live = e₀.tables.live ∧ e.Held (.vtable c) ∧ e.Held (.itables c) := by
  obtain ⟨_, e₁, hrun₁, hrun₂⟩ := bind_eq_ok.1 hrun
  have hmet₁ := emitVtable_met hp he hc hk hrun₁
  have hmet₂ := emitItables_met (p := p) hk hrun₂
  have hitables₁ : (TableRequest.itables c).mark ∉ e₁.tables.emitted := fun hmem =>
    (hmet₁.mem_emitted hmem).elim (fun heq => c.vtableSymbol_ne List.mem_cons_self heq.symm) hitables
  exact ⟨hmet₂.live.trans hmet₁.live, hmet₂.keeps (hmet₁.held hvtable), hmet₂.held hitables₁⟩

theorem selector_of_index? {t : DispatchTable} {m : Method} {n : Nat} (h : t.index? m = some n) :
    ∃ k, t.slots[n]? = some k ∧ k.sameSelector m = true := by
  obtain ⟨hlt, hsame, -⟩ := List.findIdx?_eq_some_iff_getElem.1 h
  exact ⟨_, List.getElem?_eq_getElem hlt, hsame⟩

theorem getElem?_slots_of_index? {live : Reachability} {m : Method} {v : Nat}
    (h : (DispatchTable.ofClass live c).index? m = some v) :
    ∃ k, c.mostDerived? m = some k ∧ (DispatchTable.ofClass live c).slots[v]? = some k := by
  obtain ⟨k, hslot, hsame⟩ := selector_of_index? h
  have hlive : live.liveMethod m = true := by
    rw [← live.liveMethod_congr (Method.sameSelector_iff.1 hsame)]
    exact (List.mem_filter.1 (List.mem_of_getElem? hslot)).2
  exact ⟨k, (DispatchTable.getElem?_slots_ofClass live c hlive h).symm.trans hslot, hslot⟩

/-- The slot of a selector in a vtable and the one in an itable of the class name the same method or stub, unless
the declaration that is nearest on the superclass chain is private: the vtable goes on to the next virtual
declaration, while the itable takes the private one. -/
theorem virtual_and_interface_dispatch_agree (hp : p.Accepted) (hc : c ∈ p.classes) (hk : c.isConcrete = true)
    (honce : c.SelectorsOnce) (he : Cached p e₀) (hvtable : (TableRequest.vtable c).mark ∉ e₀.tables.emitted)
    (hitables : (TableRequest.itables c).mark ∉ e₀.tables.emitted)
    (hrun : (do emitVtable c; emitItables c) e₀ = .ok () e) :
    ∃ vtable, e.module.data[(DispatchTable.ofClass e₀.tables.live c).symbol]? = some vtable ∧
      ∀ i ∈ c.allInterfaces, ∃ slots, e.tables.itables[i.typeId]? = some slots ∧
        ∀ m v n, (DispatchTable.ofClass e₀.tables.live c).index? m = some v → slots.index? m = some n →
          ∃ itable k k', e.module.data[c.itableSymbol i]? = some itable ∧
            c.mostDerived? m = some k ∧ slotSymbol? vtable v = some (callTarget k) ∧
            c.nearest? m = some k' ∧ slotSymbol? itable n = some (callTarget k') ∧
            (slotSymbol? itable n = slotSymbol? vtable v ↔
              (k'.flags.isPrivate = true → callTarget k' = callTarget k)) := by
  obtain ⟨hlive, hvheld, hiheld⟩ := held_of_emit hp hc hk he hvtable hitables hrun
  rw [Held, hlive] at hvheld
  refine ⟨_, hvheld, fun i hi => ?_⟩
  obtain ⟨slots, hslots, hdefined⟩ := hiheld.1 i hi
  refine ⟨slots, hslots, fun m v n hv hn => ?_⟩
  obtain ⟨k, hderived, hvslot⟩ := getElem?_slots_of_index? hv
  obtain ⟨s, hislot, hsame⟩ := selector_of_index? hn
  obtain ⟨k', hnearest, hagree⟩ := ClassDef.nearest?_of_mostDerived? honce hderived
  have hne : slots.isEmpty = false := by
    cases hempty : slots.slots with
    | nil => simp [hempty] at hislot
    | cons _ _ => simp [DispatchTable.isEmpty, hempty]
  have hvsymbol := slotSymbol?_vtableData hvslot
  have htarget : interfaceTarget c m = callTarget k' := by
    rw [interfaceTarget, ClassDef.resolveMethod?_of_nearest? hnearest]
  have hisymbol : slotSymbol? (tableData (c.itableSymbol i) (slots.slots.map (SlotTarget.ofSelector c))) n =
      some (callTarget k') := by
    simp [slotSymbol?, tableData, SlotTarget.tableConstant, hislot,
      symbol_ofSelector c (Method.sameSelector_iff.1 hsame), htarget]
  refine ⟨_, k, k', hdefined hne, hderived, hvsymbol, hnearest, hisymbol, ?_⟩
  rw [hisymbol, hvsymbol, Option.some.injEq]
  refine ⟨fun hsame _ => hsame, fun hhidden => ?_⟩
  cases hprivate : k'.flags.isPrivate with
  | false => rw [hagree hprivate]
  | true => exact hhidden hprivate

def cry (enclosing : String) (flags : MethodFlags) : Method := .declare enclosing "cry" ⟨[], .void⟩ flags true

def crier : ClassDef := ⟨"zoo/Crier", 30, .interface, none, [], [cry "zoo/Crier" { isAbstract := true }], [], 8⟩

def bird : ClassDef := ⟨"zoo/Bird", 31, .concrete, none, [], [cry "zoo/Bird" {}], [], 8⟩

def crow (flags : MethodFlags) : ClassDef :=
  ⟨"zoo/Crow", 32, .concrete, some bird, [crier], [cry "zoo/Crow" flags], [], 8⟩

def aviary (flags : MethodFlags) : Program := ⟨[crier, bird, crow flags]⟩

theorem aviary_accepted (flags : MethodFlags) : (aviary flags).Accepted :=
  .add (.add (.add .empty (show Program.add {} crier = .ok ⟨[crier]⟩ from rfl))
    (show Program.add _ bird = .ok ⟨[crier, bird]⟩ from rfl))
    (show Program.add _ (crow flags) = .ok (aviary flags) from rfl)

theorem crow_selectorsOnce (flags : MethodFlags) : (crow flags).SelectorsOnce := by
  intro a ha
  rw [show (crow flags).lineage = [crow flags, bird] from rfl] at ha
  rcases List.mem_pair.1 ha with rfl | rfl <;> exact List.nodup_singleton _

theorem crow_allInterfaces (flags : MethodFlags) : (crow flags).allInterfaces = [crier] := by
  cbv

def readCrow {α : Type} (flags : MethodFlags) (read : Emission → Option α) : Option α :=
  match (do emitVtable (crow flags); emitItables (crow flags)) emptyZoo with
  | .ok _ e => read e
  | .error .. => none

theorem exists_of_readCrow {α : Type} (flags : MethodFlags) (read : Emission → Option α) {a : α}
    (h : readCrow flags read = some a) :
    ∃ e, (do emitVtable (crow flags); emitItables (crow flags)) emptyZoo = .ok () e ∧ read e = some a := by
  rw [readCrow] at h
  split at h
  · exact ⟨_, ‹_›, h⟩
  · cases h

theorem dispatch_of_crow_agrees :
    ∃ e vtable itable,
      (do emitVtable (crow { isStatic := true }); emitItables (crow { isStatic := true })) emptyZoo = .ok () e ∧
      e.module.data["vtable-zoo.Crow"]? = some vtable ∧ e.module.data["itable-zoo.Crow-zoo.Crier"]? = some itable ∧
      slotSymbol? itable 0 = slotSymbol? vtable 0 := by
  obtain ⟨e, hrun, hindex⟩ := exists_of_readCrow { isStatic := true }
    (fun e => e.tables.itables[30]?.bind (·.index? (cry "zoo/Crier" { isAbstract := true }))) (a := 0)
    (by decide +kernel)
  obtain ⟨vtable, hvtable, hall⟩ := virtual_and_interface_dispatch_agree (aviary_accepted { isStatic := true })
    (by simp [aviary]) rfl (crow_selectorsOnce _) (fun _ _ h => by simp [emptyZoo] at h) (by simp [emptyZoo])
    (by simp [emptyZoo]) hrun
  obtain ⟨slots, hcached, hslots⟩ := hall crier (by simp [crow_allInterfaces])
  rw [show e.tables.itables[30]? = some slots from hcached] at hindex
  obtain ⟨itable, k, k', hitable, -, -, hnearest, -, hagree⟩ :=
    hslots (cry "zoo/Crier" { isAbstract := true }) 0 0 (by decide +kernel) hindex
  have hbird : (crow { isStatic := true }).nearest? (cry "zoo/Crier" { isAbstract := true }) =
      some (cry "zoo/Bird" {}) := rfl
  cases hbird.symm.trans hnearest
  have hvsymbol : (ClassTable.vtable (crow { isStatic := true })).symbol = "vtable-zoo.Crow" := by decide +kernel
  have hisymbol : (crow { isStatic := true }).itableSymbol crier = "itable-zoo.Crow-zoo.Crier" := by decide +kernel
  rw [DispatchTable.symbol_ofClass, hvsymbol] at hvtable
  rw [hisymbol] at hitable
  exact ⟨e, vtable, itable, hrun, hvtable, hitable, hagree.2 fun hprivate => by cases hprivate⟩

theorem not_dispatch_of_crow_agrees : (aviary { isPrivate := true }).Accepted ∧
    (crow { isPrivate := true }).SelectorsOnce ∧ crier ∈ (crow { isPrivate := true }).allInterfaces ∧
    ∃ e, (do emitVtable (crow { isPrivate := true }); emitItables (crow { isPrivate := true })) emptyZoo = .ok () e ∧
      (e.module.data["vtable-zoo.Crow"]?).bind (slotSymbol? · 0) = some "zoo.Bird.cry()V" ∧
      (e.module.data["itable-zoo.Crow-zoo.Crier"]?).bind (slotSymbol? · 0) = some "zoo.Crow.cry()V" := by
  refine ⟨aviary_accepted _, crow_selectorsOnce _, by simp [crow_allInterfaces], ?_⟩
  obtain ⟨e, hrun, hread⟩ := exists_of_readCrow { isPrivate := true }
    (fun e => some ((e.module.data["vtable-zoo.Crow"]?).bind (slotSymbol? · 0),
      (e.module.data["itable-zoo.Crow-zoo.Crier"]?).bind (slotSymbol? · 0)))
    (a := (some "zoo.Bird.cry()V", some "zoo.Crow.cry()V")) (by decide +kernel)
  obtain ⟨hvtable, hitable⟩ := Prod.mk.inj (Option.some.inj hread)
  exact ⟨e, hrun, hvtable, hitable⟩

end Emission

end NativeBackend
