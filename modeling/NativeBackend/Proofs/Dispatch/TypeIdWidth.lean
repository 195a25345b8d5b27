import NativeBackend.Options
import NativeBackend.Proofs.Dispatch.Agreement

namespace NativeBackend

namespace Program

variable {p : Program}

theorem Accepted.firstClassTypeId_le (hp : p.Accepted) : ∀ c ∈ p.classes, firstClassTypeId ≤ c.typeId := by
  induction hp with
  | empty => simp
  | @add p p' c _ h ih =>
      obtain ⟨hle, -, hperm⟩ := add_eq_ok h
      intro d hd
      rcases List.mem_cons.1 (hperm.mem_iff.1 hd) with rfl | hd
      · exact hle
      · exact ih d hd

end Program

theorem Options.typeIdSize_of_validate {o : Options} (h : o.validate = .ok ()) :
    o.typeIdSize = 1 ∨ o.typeIdSize = 2 ∨ o.typeIdSize = 4 ∨ o.typeIdSize = 8 := by
  rw [validate] at h
  split at h
  · cases h
  · split at h
    · cases h
    · omega

def DataDefinition.storedTypeIds (d : DataDefinition) : List Nat :=
  match d.value with
  | .array _ items => items.filterMap fun
    | .struct _ [_, (type, .int id)] => Emission.storedTypeId? type id
    | _ => none
  | _ => []

/-- A dictionary from which the type ids of interfaces are read back: by increasing id, none like the closing zero. -/
structure DataDefinition.Identifies (d : DataDefinition) (interfaces : List ClassDef) : Prop where
  ids : d.storedTypeIds = interfaces.map (·.typeId)
  increasing : d.storedTypeIds.Pairwise (· < ·)
  nonzero : 0 ∉ d.storedTypeIds

namespace Emission

variable {size : Int} {idType : IrType} {c : ClassDef} {interfaces : List ClassDef}

theorem storedTypeIds_dictionaryData (hwidth : IrType.ofBytes? size = some idType) (c : ClassDef)
    (interfaces : List ClassDef) :
    (dictionaryData idType c interfaces).storedTypeIds = interfaces.map (·.typeId % 2 ^ (8 * size.toNat)) := by
  simp [DataDefinition.storedTypeIds, dictionaryData, List.filterMap_append, List.filterMap_map, Function.comp_def,
    dictionaryEntry, storedTypeId?_of_width hwidth]

theorem identifies_dictionaryData_iff (hwidth : IrType.ofBytes? size = some idType)
    (hsorted : interfaces.Pairwise (·.typeId < ·.typeId)) :
    (dictionaryData idType c interfaces).Identifies interfaces ↔
      ∀ i ∈ interfaces, i.typeId ≠ 0 ∧ i.typeId < 2 ^ (8 * size.toNat) := by
  have hstored := storedTypeIds_dictionaryData hwidth c interfaces
  constructor
  · intro h i hi
    have hids := hstored.symm.trans h.ids
    have hfits : i.typeId % 2 ^ (8 * size.toNat) = i.typeId := List.map_inj_left.1 hids i hi
    refine ⟨fun hzero => h.nonzero ?_, hfits ▸ Nat.mod_lt _ (Nat.two_pow_pos _)⟩
    rw [h.ids]
    exact List.mem_map.2 ⟨i, hi, hzero⟩
  · intro h
    have hids : (dictionaryData idType c interfaces).storedTypeIds = interfaces.map (·.typeId) :=
      hstored.trans (List.map_congr_left fun i hi => Nat.mod_eq_of_lt (h i hi).2)
    refine ⟨hids, ?_, ?_⟩
    · rw [hids, List.pairwise_map]
      exact hsorted
    · rw [hids, List.mem_map]
      rintro ⟨i, hi, hzero⟩
      exact (h i hi).1 hzero

/-- The dictionary that is emitted for a class has the type ids of its interfaces modulo what the width in the
options holds. They are read back exactly if they fit: ids of registered interfaces are never zero, and a width of four
bytes or more holds every id of 32 bits. -/
theorem dictionary_identifies_iff {o : Options} (ho : o.validate = .ok ()) {e₀ e : Emission}
    (hsize : e₀.tables.typeIdSize = o.typeIdSize) (hk : c.isConcrete = true)
    (hnew : c.dictionarySymbol ∉ e₀.tables.emitted) (hrun : emitItables c e₀ = .ok () e)
    (hinterfaces : c.allInterfaces.filter e.hasSlots = interfaces) (hne : interfaces ≠ []) :
    ∃ d, e.module.data[c.dictionarySymbol]? = some d ∧
      d.storedTypeIds = interfaces.map (·.typeId % 2 ^ (8 * o.typeIdSize.toNat)) ∧
      (d.Identifies interfaces ↔ ∀ i ∈ interfaces, i.typeId ≠ 0 ∧ i.typeId < 2 ^ (8 * o.typeIdSize.toNat)) ∧
      ∀ p : Program, p.Accepted → (∀ i ∈ interfaces, i ∈ p.classes) →
        (d.Identifies interfaces ↔ ∀ i ∈ interfaces, i.typeId < 2 ^ (8 * o.typeIdSize.toNat)) ∧
        (o.typeIdSize ≠ 1 → o.typeIdSize ≠ 2 → (∀ i ∈ interfaces, i.typeId < 2 ^ 32) → d.Identifies interfaces) := by
  have hmet := emitItables_met (p := {}) hk hrun
  obtain ⟨-, hdictionary⟩ := hmet.held hnew
  obtain ⟨i, hi⟩ := List.exists_mem_of_ne_nil _ hne
  obtain ⟨idType, hwidth, hdata⟩ := hdictionary (List.any_eq_true.2 ⟨i, List.mem_filter.1 (hinterfaces ▸ hi)⟩)
  rw [hmet.size, hsize] at hwidth
  rw [hinterfaces] at hdata
  have hiff := identifies_dictionaryData_iff (c := c) hwidth (hinterfaces ▸ c.pairwise_allInterfaces.filter e.hasSlots)
  refine ⟨_, hdata, storedTypeIds_dictionaryData hwidth _ _, hiff, fun p hp hin => ?_⟩
  have hpositive : ∀ i ∈ interfaces, i.typeId ≠ 0 := by
    intro i hi hzero
    have := hp.firstClassTypeId_le i (hin i hi)
    rw [hzero] at this
    cases this
  have hfits := hiff.trans (forall₂_congr fun i hi => and_iff_right (hpositive i hi))
  refine ⟨hfits, fun hone htwo hword => hfits.2 fun i hi => Nat.lt_of_lt_of_le (hword i hi) ?_⟩
  obtain h | h | h | h := o.typeIdSize_of_validate ho
  · exact absurd h hone
  · exact absurd h htwo
  · rw [h]
    exact Nat.le_refl _
  · rw [h]
    exact Nat.pow_le_pow_right (by decide) (by decide)

def spout (enclosing : String) (flags : MethodFlags) : Method := .declare enclosing "spout" ⟨[], .void⟩ flags true

def spouting : ClassDef :=
  ⟨"zoo/Spouting", 256, .interface, none, [], [spout "zoo/Spouting" { isAbstract := true }], [], 0⟩

def whale : ClassDef := ⟨"zoo/Whale", 19, .concrete, none, [spouting], [spout "zoo/Whale" {}], [], 8⟩

def ocean : Program := ⟨[whale, spouting]⟩

theorem ocean_accepted : ocean.Accepted :=
  .add (.add .empty (show Program.add {} spouting = .ok ⟨[spouting]⟩ from rfl))
    (show Program.add _ whale = .ok ocean from rfl)

theorem whale_allInterfaces : whale.allInterfaces = [spouting] := by
  cbv

def emptyOcean (o : Options) : Emission where
  tables := { live := .everything, pointerSize := o.pointerSize, typeIdSize := o.typeIdSize }
  module := { name := "ocean", pie := false }

def readWhale {α : Type} (o : Options) (read : Emission → Option α) : Option α :=
  match emitItables whale (emptyOcean o) with
  | .ok _ e => read e
  | .error .. => none

theorem exists_of_readWhale {α : Type} (o : Options) (read : Emission → Option α) {a : α}
    (h : readWhale o read = some a) : ∃ e, emitItables whale (emptyOcean o) = .ok () e ∧ read e = some a := by
  rw [readWhale] at h
  split at h
  · exact ⟨_, ‹_›, h⟩
  · cases h

theorem dictionary_identifies_of_two_bytes :
    ∃ e d, emitItables whale (emptyOcean { typeIdSize := 2 }) = .ok () e ∧
      e.module.data["itable-dict-zoo.Whale"]? = some d ∧ d.Identifies [spouting] := by
  obtain ⟨e, hrun, hread⟩ := exists_of_readWhale { typeIdSize := 2 } (fun e => some (e.hasSlots spouting))
    (a := true) (by decide +kernel)
  have hslots : e.hasSlots spouting = true := Option.some.inj hread
  have hinterfaces : whale.allInterfaces.filter e.hasSlots = [spouting] := by simp [whale_allInterfaces, hslots]
  obtain ⟨d, hd, -, -, hregistered⟩ := dictionary_identifies_iff (o := { typeIdSize := 2 }) (by decide) rfl rfl
    (by simp [emptyOcean]) hrun hinterfaces (by simp)
  have hsymbol : whale.dictionarySymbol = "itable-dict-zoo.Whale" := by decide +kernel
  rw [hsymbol] at hd
  exact ⟨e, d, hrun, hd, (hregistered ocean ocean_accepted (by simp [ocean])).1.2 (by simp [spouting])⟩

/-- In one byte the type id 256 reads like the closing zero. -/
theorem not_dictionary_identifies_of_one_byte :
    ({ typeIdSize := 1 } : Options).validate = .ok () ∧ ocean.Accepted ∧ whale ∈ ocean.classes ∧
      spouting ∈ ocean.classes ∧ spouting ∈ whale.allInterfaces ∧
      ∃ e d, emitItables whale (emptyOcean { typeIdSize := 1 }) = .ok () e ∧
        e.module.data["itable-dict-zoo.Whale"]? = some d ∧ d.storedTypeIds = [0] ∧ ¬ d.Identifies [spouting] := by
  obtain ⟨e, hrun, hread⟩ := exists_of_readWhale { typeIdSize := 1 }
    (fun e => (e.module.data["itable-dict-zoo.Whale"]?).map (·.storedTypeIds)) (a := [0]) (by decide +kernel)
  obtain ⟨d, hd, hstored⟩ := Option.map_eq_some_iff.1 hread
  refine ⟨by decide, ocean_accepted, by simp [ocean], by simp [ocean], by simp [whale_allInterfaces], e, d, hrun, hd,
    hstored, fun h => ?_⟩
  have := hstored.symm.trans h.ids
  cases this

end Emission

end NativeBackend
