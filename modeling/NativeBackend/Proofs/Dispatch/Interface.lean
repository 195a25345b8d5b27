import NativeBackend.Proofs.Dispatch.ItableEmission
import NativeBackend.Proofs.Dispatch.Virtual
import NativeBackend.Proofs.Lists

namespace NativeBackend

namespace DispatchTable

theorem index?_ofInterface (live : Reachability) {i : ClassDef} {m : Method} (hm : m ∈ i.interfaceMethods)
    (hlive : live.liveMethod m = true) :
    ∃ n k, (ofInterface live i).index? m = some n ∧ (ofInterface live i).slots[n]? = some k ∧
      k.selector = m.selector := by
  have hslot : m ∈ (ofInterface live i).slots := List.mem_filter.2 ⟨hm, hlive⟩
  cases hindex : (ofInterface live i).index? m with
  | none =>
      have := List.findIdx?_eq_none_iff.1 hindex m hslot
      simp [Method.sameSelector_iff.2 rfl] at this
  | some n =>
      obtain ⟨hlt, hsame, -⟩ := List.findIdx?_eq_some_iff_getElem.1 hindex
      exact ⟨n, _, rfl, List.getElem?_eq_getElem hlt, Method.sameSelector_iff.1 hsame⟩

end DispatchTable

namespace Emission

open Steps

variable {p : Program}

def interfaceTarget (c : ClassDef) (m : Method) : String :=
  match c.resolveMethod? m.name m.descriptor with
  | some k => callTarget k
  | none => Routine.raiseIncompatibleClassChangeError.symbol

theorem symbol_ofSelector (c : ClassDef) {k m : Method} (h : k.selector = m.selector) :
    (SlotTarget.ofSelector c k).symbol = interfaceTarget c m := by
  obtain ⟨hname, hdescriptor⟩ := Prod.mk.inj h
  rw [SlotTarget.ofSelector, interfaceTarget, hname, hdescriptor]
  cases c.resolveMethod? m.name m.descriptor with
  | none => rfl
  | some k => exact symbol_ofMethod k

theorem slotSymbol?_itableData {live : Reachability} {c i : ClassDef} {n : Nat} {k m : Method}
    (hslot : (DispatchTable.ofInterface live i).slots[n]? = some k) (h : k.selector = m.selector) :
    slotSymbol? (itableData live c i) n = some (interfaceTarget c m) := by
  simp [slotSymbol?, itableData, tableData, SlotTarget.tableConstant, hslot, symbol_ofSelector c h]

theorem itableIndex_eq_ok (hp : p.Accepted) {i : ClassDef} (hi : i ∈ p.classes) (hk : i.isInterface = true)
    {e : Emission} (he : CachedItables p e) (location : Option SourceInfo) {m : Method} {n : Nat}
    (h : (DispatchTable.ofInterface e.tables.live i).index? m = some n) :
    ∃ e', itableIndex location m i e = .ok n e' ∧ e'.diagnostics = e.diagnostics := by
  obtain ⟨cache, hitable, -⟩ := itable_eq_ok hp hi hk he
  refine ⟨{ e with tables.itables := cache }, ?_, rfl⟩
  rw [itableIndex, bind_of_ok hitable]
  simp only [h]
  rfl

/-- The number that is stored for a type id, in an integer type of one to eight bytes. -/
def storedTypeId? (type : IrType) (id : Int) : Option Nat :=
  match type with
  | .i8 => some (id % 2 ^ 8).toNat
  | .i16 => some (id % 2 ^ 16).toNat
  | .i32 => some (id % 2 ^ 32).toNat
  | .i64 => some (id % 2 ^ 64).toNat
  | _ => none

/-- A linear search of a dictionary for an interface: the table of the first entry with its type id. The
search ends at the first entry that is not one of a table. -/
def searchDictionary (id : Nat) : List Constant → Option String
  | .struct _ [(_, .symbol table), (idType, .int entry)] :: rest =>
      if storedTypeId? idType entry = some id then some table else searchDictionary id rest
  | _ => none

/-- A type id is stored modulo what its width holds. -/
theorem storedTypeId?_of_width {size : Int} {idType : IrType} (hwidth : IrType.ofBytes? size = some idType) (id : Nat) :
    storedTypeId? idType id = some (id % 2 ^ (8 * size.toNat)) := by
  rw [IrType.ofBytes?.eq_def] at hwidth
  split at hwidth <;> cases hwidth <;>
    simp only [storedTypeId?, Int.reducePow, Int.reduceToNat, Nat.reduceMul, Nat.reducePow, Option.some.injEq] <;>
    omega

theorem storedTypeId?_of_fits {size : Int} {idType : IrType} (hwidth : IrType.ofBytes? size = some idType)
    {id : Nat} (hfits : (id : Int) < 2 ^ (8 * size.toNat)) : storedTypeId? idType id = some id := by
  rw [storedTypeId?_of_width hwidth, Nat.mod_eq_of_lt (by exact_mod_cast hfits)]

theorem searchDictionary_entries {idType : IrType} {c i : ClassDef} {interfaces : List ClassDef}
    (hstored : ∀ j ∈ interfaces, storedTypeId? idType j.typeId = some j.typeId) (hi : i ∈ interfaces)
    (hsorted : interfaces.Pairwise (·.typeId < ·.typeId)) (rest : List Constant) :
    searchDictionary i.typeId (interfaces.map (dictionaryEntry idType c) ++ rest) = some (c.itableSymbol i) := by
  induction interfaces with
  | nil => cases hi
  | cons j interfaces ih =>
      obtain ⟨hfirst, hsorted'⟩ := List.pairwise_cons.1 hsorted
      rw [List.map_cons, List.cons_append, dictionaryEntry, searchDictionary, hstored j List.mem_cons_self]
      rcases List.mem_cons.1 hi with rfl | hi
      · rw [if_pos rfl]
      · rw [if_neg fun h => (hfirst i hi).ne (Option.some.inj h)]
        exact ih (fun k hk => hstored k (List.mem_cons_of_mem _ hk)) hi hsorted'

theorem emitItableArray_eq_ok (hp : p.Dispatchable) {live : Reachability} {idType : IrType} {done : List ClassDef}
    {e : Emission} (h : ItablesEmitted p live idType done e) :
    ∃ e₁ m entries, emitItableArray p e = .ok () { e₁ with module := m } ∧
      ItablesEmitted p live idType done e₁ ∧
      m.data = e₁.module.data.insert itableArraySymbol
        ⟨itableArraySymbol, .array entries.length .ptr, .array .ptr entries, .global, true⟩ ∧
      entries.length = p.maxTypeId + 1 ∧
      (∀ c ∈ p.classes, c.isConcrete = true → entries[c.typeId]? =
        some (if c.liveInterfaces live = [] then .null else .symbol c.dictionarySymbol)) ∧
      ∀ id ≤ p.maxTypeId, (∀ c ∈ p.classes, c.isConcrete = true → c.typeId ≠ id) →
        entries[id]? = some .null := by
  have hstep : ∀ c ∈ p.classes, c.isConcrete = true → ∀ e, ItablesEmitted p live idType done e →
      ∃ e', (do return if ← hasItables c then some c.dictionarySymbol else none : EmitM (Option String)) e =
          .ok (if c.liveInterfaces live = [] then none else some c.dictionarySymbol) e' ∧
        ItablesEmitted p live idType done e' := by
    intro c hc _ e he
    obtain ⟨e', hhas, he', -⟩ := he.hasItables_eq_ok hp hc
    refine ⟨e', (bind_of_ok hhas _).trans ?_, he'⟩
    by_cases hempty : c.liveInterfaces live = [] <;> simp [hempty]
  obtain ⟨e₁, m, entries, hrun, h₁, hdata, hlength, hconcrete, hnull⟩ :=
    emitGlobalArray_eq_ok hp.accepted itableArraySymbol hstep (fun e he => he.array) h
  refine ⟨e₁, m, entries, hrun, h₁, hdata, hlength, fun c hc hk => ?_, hnull⟩
  rw [hconcrete c hc hk]
  by_cases hempty : c.liveInterfaces live = [] <;> simp [hempty, slotConstant]

/-- A call of an interface method reaches what its selector resolves to on the runtime class. The array of
dictionaries has null exactly for the concrete classes without a live interface method. Otherwise it leads to a
dictionary with one entry for each interface that has live methods, by increasing type id and closed
by zero; a search for such an interface finds a table whose slot for the method has the symbol. -/
theorem interface_call_reaches_resolved (hp : p.Accepted) (hclosed : p.Closed)
    (hplain : ∀ c ∈ p.classes, c.PlainName) {e₀ : Emission} {idType : IrType}
    (hwidth : IrType.ofBytes? e₀.tables.typeIdSize = some idType)
    (hfits : ∀ c ∈ p.classes, (c.typeId : Int) < 2 ^ (8 * e₀.tables.typeIdSize.toNat))
    (hfresh : NoItables p e₀) {order : List ClassDef} (horder : ∀ c, c ∈ order ↔ c ∈ p.classes) :
    ∃ e entries, (do order.forM emitItables; emitItableArray p) e₀ = .ok () e ∧
      e.module.data[itableArraySymbol]? =
        some ⟨itableArraySymbol, .array entries.length .ptr, .array .ptr entries, .global, true⟩ ∧
      entries.length = p.maxTypeId + 1 ∧
      ∀ c ∈ p.classes, c.isConcrete = true →
        (entries[c.typeId]? = some .null ↔
          ∀ i ∈ c.allInterfaces, ∀ m ∈ i.interfaceMethods, e₀.tables.live.liveMethod m = false) ∧
        ((∃ i ∈ c.allInterfaces, ∃ m ∈ i.interfaceMethods, e₀.tables.live.liveMethod m = true) →
          ∃ (dictionary : String) (interfaces : List ClassDef) (items : List Constant),
            entries[c.typeId]? = some (.symbol dictionary) ∧
            e.module.data[dictionary]? = some ⟨dictionary, .array items.length (.struct false [.ptr, idType]),
              .array (.struct false [.ptr, idType]) items, .internal, true⟩ ∧
            items = interfaces.map (dictionaryEntry idType c) ++ [.zero] ∧
            interfaces.Pairwise (·.typeId < ·.typeId) ∧
            (∀ i, i ∈ interfaces ↔
              i ∈ c.allInterfaces ∧ ∃ m ∈ i.interfaceMethods, e₀.tables.live.liveMethod m = true) ∧
            ∀ i ∈ interfaces, ∀ m ∈ i.interfaceMethods, e₀.tables.live.liveMethod m = true → ∀ location,
              ∃ n e₁ table, itableIndex location m i e = .ok n e₁ ∧ e₁.diagnostics = e.diagnostics ∧
                searchDictionary i.typeId items = some table.name ∧
                e.module.data[table.name]? = some table ∧
                slotSymbol? table n = some (interfaceTarget c m)) := by
  have hd : p.Dispatchable := ⟨hp, hclosed, hplain⟩
  obtain ⟨e₁, hrun₁, h₁⟩ := emitItables_all_eq_ok hd (.of_noItables hwidth hfresh) fun c hc => (horder c).1 hc
  obtain ⟨e₂, m, entries, hrun, h₂, hdata, hlength, hconcrete, -⟩ := emitItableArray_eq_ok hd h₁
  refine ⟨_, entries, (bind_of_ok hrun₁ _).trans hrun, ?_, hlength, fun c hc hk => ?_⟩
  · rw [hdata]
    exact Std.TreeMap.getElem?_insert_self
  have hempty : c.liveInterfaces e₀.tables.live = [] ↔
      ∀ i ∈ c.allInterfaces, ∀ m ∈ i.interfaceMethods, e₀.tables.live.liveMethod m = false := by
    simp [List.eq_nil_iff_forall_not_mem, ClassDef.mem_liveInterfaces]
  refine ⟨?_, fun hlive => ?_⟩
  · rw [hconcrete c hc hk, ← hempty]
    split <;> simp_all
  have hsome : c.liveInterfaces e₀.tables.live ≠ [] := by
    obtain ⟨i, hi, k, hk, hklive⟩ := hlive
    intro h
    simpa [hklive] using hempty.1 h i hi k hk
  have hmarked : c.dictionarySymbol ∈ e₂.tables.emitted := h₂.done c (by simp [(horder c).2 hc]) hk hsome
  have hholds : HoldsItables e₀.tables.live idType m c :=
    (h₂.held c hc hk hmarked).congr fun name hname => by
      rw [hdata, Std.TreeMap.getElem?_insert, if_neg]
      exact fun heq => itableArraySymbol_notMem c (Std.compare_eq_iff_eq.1 heq ▸ hname)
  have hsorted : (c.liveInterfaces e₀.tables.live).Pairwise (·.typeId < ·.typeId) :=
    c.pairwise_allInterfaces.filter _
  refine ⟨c.dictionarySymbol, c.liveInterfaces e₀.tables.live, _, ?_, ?_, rfl, hsorted,
    fun i => ClassDef.mem_liveInterfaces, ?_⟩
  · rw [hconcrete c hc hk, if_neg hsome]
  · simpa [dictionaryData] using hholds.dictionary
  · intro i hi k hkm hklive location
    obtain ⟨hip, hii⟩ := hd.interface hc (ClassDef.mem_liveInterfaces.1 hi).1
    obtain ⟨n, slot, hindex, hslot, hsame⟩ := DispatchTable.index?_ofInterface e₀.tables.live hkm hklive
    obtain ⟨e₃, hrun₃, hdiagnostics⟩ := itableIndex_eq_ok (e := { e₂ with module := m }) hp hip hii h₂.cached
      location (h₂.live_eq ▸ hindex)
    refine ⟨n, e₃, itableData e₀.tables.live c i, hrun₃, hdiagnostics, ?_, hholds.itable i hi,
      slotSymbol?_itableData hslot hsame⟩
    refine searchDictionary_entries (fun j hj => ?_) hi hsorted _
    exact storedTypeId?_of_fits hwidth
      (hfits j (hd.interface hc (ClassDef.mem_liveInterfaces.1 hj).1).1)

def sound (enclosing : String) (flags : MethodFlags) : Method :=
  .declare enclosing "sound" ⟨[], .void⟩ flags true

def noisy : ClassDef :=
  ⟨"zoo/Noisy", 30, .interface, none, [], [sound "zoo/Noisy" { isAbstract := true }], [], 8⟩

def barking : ClassDef := ⟨"zoo/Barking", 21, .interface, none, [noisy], [sound "zoo/Barking" {}], [], 8⟩

def tame : ClassDef := ⟨"zoo/Tame", 25, .interface, none, [], [], [], 8⟩

def hound : ClassDef := ⟨"zoo/Hound", 22, .concrete, none, [tame, noisy, barking], [], [], 8⟩

def kennel : Program := ⟨[barking, hound, tame, noisy]⟩

theorem kennel_accepted : kennel.Accepted :=
  .add (.add (.add (.add .empty (show Program.add {} noisy = .ok ⟨[noisy]⟩ from rfl))
    (show Program.add ⟨[noisy]⟩ barking = .ok ⟨[barking, noisy]⟩ from rfl))
    (show Program.add ⟨[barking, noisy]⟩ tame = .ok ⟨[barking, tame, noisy]⟩ from rfl))
    (show Program.add ⟨[barking, tame, noisy]⟩ hound = .ok kennel from rfl)

theorem hound_allInterfaces : hound.allInterfaces = [barking, tame, noisy] := by
  cbv

theorem interface_call_of_refined_method_reaches_default :
    ∃ e n e₁ table entries, (do kennel.classes.forM emitItables; emitItableArray kennel) emptyZoo = .ok () e ∧
      itableIndex none (sound "zoo/Noisy" { isAbstract := true }) noisy e = .ok n e₁ ∧
      searchDictionary 30 entries = some table.name ∧ e.module.data[table.name]? = some table ∧
      slotSymbol? table n = some "zoo.Barking.sound()V" := by
  have hnoisy : noisy ∈ hound.allInterfaces := by simp [hound_allInterfaces]
  have hclosed : kennel.Closed := ⟨by simp [kennel, noisy, barking, tame, hound], by
    simp [kennel, noisy, barking, tame, hound, ClassDef.isInterface]⟩
  have hplain : ∀ c ∈ kennel.classes, c.PlainName := by
    simp [kennel, noisy, barking, tame, hound, ClassDef.PlainName]
  have hfits : ∀ c ∈ kennel.classes, (c.typeId : Int) < 2 ^ (8 * emptyZoo.tables.typeIdSize.toNat) := by
    simp [kennel, noisy, barking, tame, hound, emptyZoo]
  have hfresh : NoItables kennel emptyZoo := ⟨rfl, fun _ _ => by simp [emptyZoo], fun _ _ _ _ => rfl, rfl⟩
  obtain ⟨e, entries, hrun, -, -, hcall⟩ := interface_call_reaches_resolved kennel_accepted hclosed hplain
    (show IrType.ofBytes? emptyZoo.tables.typeIdSize = some .i32 from rfl) hfits hfresh (fun c => Iff.rfl)
  have hmethods : noisy.interfaceMethods = [sound "zoo/Noisy" { isAbstract := true }] := rfl
  have hlive : ∃ m ∈ noisy.interfaceMethods, emptyZoo.tables.live.liveMethod m = true :=
    ⟨_, by rw [hmethods]; exact List.mem_cons_self, rfl⟩
  obtain ⟨dictionary, interfaces, items, -, -, -, -, hin, hslots⟩ :=
    (hcall hound (by simp [kennel]) rfl).2 ⟨noisy, hnoisy, hlive⟩
  obtain ⟨n, e₁, table, hindex, -, hsearch, htable, hslot⟩ :=
    hslots noisy ((hin noisy).2 ⟨hnoisy, hlive⟩) _ (by rw [hmethods]; exact List.mem_cons_self) rfl none
  have htarget : interfaceTarget hound (sound "zoo/Noisy" { isAbstract := true }) = "zoo.Barking.sound()V" := by
    cbv
  exact ⟨e, n, e₁, table, items, hrun, hindex, hsearch, htable, htarget ▸ hslot⟩

end Emission

end NativeBackend
