import NativeBackend.Dispatch.Table
import NativeBackend.Proofs.Class.Hierarchy

namespace NativeBackend

namespace ClassDef

def liveInterfaces (live : Reachability) (c : ClassDef) : List ClassDef :=
  c.allInterfaces.filter fun i => !(DispatchTable.ofInterface live i).isEmpty

theorem isEmpty_ofInterface_iff {live : Reachability} {i : ClassDef} :
    (DispatchTable.ofInterface live i).isEmpty = true ↔
      ∀ m ∈ i.interfaceMethods, live.liveMethod m = false := by
  simp [DispatchTable.isEmpty, DispatchTable.ofInterface, Reachability.liveDispatch]

theorem mem_liveInterfaces {live : Reachability} {c i : ClassDef} :
    i ∈ c.liveInterfaces live ↔ i ∈ c.allInterfaces ∧ ∃ m ∈ i.interfaceMethods, live.liveMethod m = true := by
  rw [liveInterfaces, List.mem_filter, Bool.not_eq_true', ← Bool.not_eq_true, isEmpty_ofInterface_iff]
  simp

/-- Symbols that are kept for the dispatch of interface calls on a class. -/
def dispatchSymbols (c : ClassDef) : List String := c.dictionarySymbol :: c.allInterfaces.map c.itableSymbol

theorem itableSymbol_mem {c i : ClassDef} (hi : i ∈ c.allInterfaces) : c.itableSymbol i ∈ c.dispatchSymbols :=
  List.mem_cons_of_mem _ (List.mem_map_of_mem hi)

def taggedSymbol (owner part : String) : String := "itable-" ++ owner ++ "-" ++ part

theorem dictionarySymbol_eq (c : ClassDef) : c.dictionarySymbol = taggedSymbol "dict" c.dottedName := by
  simp [dictionarySymbol, taggedSymbol]

theorem taggedSymbol_inj {owner part owner' part' : String} (ho : '-' ∉ owner.toList) (hp : '-' ∉ part.toList)
    (h : taggedSymbol owner part = taggedSymbol owner' part') : owner = owner' ∧ part = part' := by
  rw [← String.toList_inj] at h
  simp only [taggedSymbol, String.toList_append, List.append_assoc, List.append_right_inj] at h
  obtain ⟨howner, -, hpart⟩ := (List.append_cons_inj_of_notMem ho hp).1 h
  exact ⟨String.toList_inj.1 howner, String.toList_inj.1 hpart⟩

theorem mem_dispatchSymbols {c : ClassDef} {name : String} (h : name ∈ c.dispatchSymbols) :
    name = taggedSymbol "dict" c.dottedName ∨
      ∃ i ∈ c.allInterfaces, name = taggedSymbol c.dottedName i.dottedName := by
  rcases List.mem_cons.1 h with rfl | h
  · exact .inl c.dictionarySymbol_eq
  · obtain ⟨i, hi, rfl⟩ := List.mem_map.1 h
    exact .inr ⟨i, hi, rfl⟩

end ClassDef

/-- A program whose classes have symbols of their own: registration was accepted, nothing that is
inherited from is missing, and names are plain. -/
structure Program.Dispatchable (p : Program) : Prop where
  accepted : p.Accepted
  closed : p.Closed
  plain : ∀ c ∈ p.classes, c.PlainName

namespace Program.Dispatchable

variable {p : Program}

theorem interface (h : p.Dispatchable) {c i : ClassDef} (hc : c ∈ p.classes) (hi : i ∈ c.allInterfaces) :
    i ∈ p.classes ∧ i.isInterface = true := h.closed.of_mem_allInterfaces hc i hi

theorem dottedName_inj (h : p.Dispatchable) {c d : ClassDef} (hc : c ∈ p.classes) (hd : d ∈ p.classes)
    (heq : c.dottedName = d.dottedName) : c = d := h.accepted.eq_of_dottedName h.plain hc hd heq

theorem notMem_dottedName (h : p.Dispatchable) {c : ClassDef} (hc : c ∈ p.classes) :
    '-' ∉ c.dottedName.toList := ClassDef.notMem_dottedName (h.plain c hc)

theorem dottedName_ne (h : p.Dispatchable) {c d i : ClassDef} (hc : c ∈ p.classes) (hk : c.isConcrete = true)
    (hd : d ∈ p.classes) (hi : i ∈ d.allInterfaces) : c.dottedName ≠ i.dottedName := by
  intro heq
  obtain ⟨hip, hii⟩ := h.interface hd hi
  rw [← h.dottedName_inj hc hip heq, ClassDef.isInterface_of_isConcrete hk] at hii
  cases hii

theorem eq_of_mem_dispatchSymbols (h : p.Dispatchable) {c d : ClassDef} (hc : c ∈ p.classes)
    (hkc : c.isConcrete = true) (hd : d ∈ p.classes) (hkd : d.isConcrete = true) {name : String}
    (hnc : name ∈ c.dispatchSymbols) (hnd : name ∈ d.dispatchSymbols) : c = d := by
  have hdict : '-' ∉ "dict".toList := by decide
  rcases ClassDef.mem_dispatchSymbols hnc with rfl | ⟨i, hi, rfl⟩ <;>
    rcases ClassDef.mem_dispatchSymbols hnd with heq | ⟨j, hj, heq⟩
  · exact h.dottedName_inj hc hd (ClassDef.taggedSymbol_inj hdict (h.notMem_dottedName hc) heq).2
  · exact absurd (ClassDef.taggedSymbol_inj hdict (h.notMem_dottedName hc) heq).2 (h.dottedName_ne hc hkc hd hj)
  · have hpart := h.notMem_dottedName (h.interface hc hi).1
    exact absurd (ClassDef.taggedSymbol_inj (h.notMem_dottedName hc) hpart heq).2.symm
      (h.dottedName_ne hd hkd hc hi)
  · have hpart := h.notMem_dottedName (h.interface hc hi).1
    exact h.dottedName_inj hc hd (ClassDef.taggedSymbol_inj (h.notMem_dottedName hc) hpart heq).1

theorem nodup_dispatchSymbols (h : p.Dispatchable) {c : ClassDef} (hc : c ∈ p.classes)
    (hk : c.isConcrete = true) : c.dispatchSymbols.Nodup := by
  have hparts : ∀ i ∈ c.allInterfaces, '-' ∉ i.dottedName.toList := fun i hi =>
    h.notMem_dottedName (h.interface hc hi).1
  refine List.nodup_cons.2 ⟨?_, ?_⟩
  · intro hmem
    obtain ⟨i, hi, heq⟩ := List.mem_map.1 hmem
    rw [ClassDef.dictionarySymbol_eq] at heq
    exact h.dottedName_ne hc hk hc hi
      (ClassDef.taggedSymbol_inj (h.notMem_dottedName hc) (hparts i hi) heq).2.symm
  · refine List.Nodup.map_on ?_ (c.pairwise_allInterfaces.imp fun hlt heq => by simp [heq] at hlt)
    intro i hi j hj heq
    exact h.dottedName_inj (h.interface hc hi).1 (h.interface hc hj).1
      (ClassDef.taggedSymbol_inj (h.notMem_dottedName hc) (hparts i hi) heq).2

end Program.Dispatchable

theorem itableArraySymbol_notMem (c : ClassDef) : itableArraySymbol ∉ c.dispatchSymbols := by
  have hne : ∀ owner part : String, itableArraySymbol ≠ ClassDef.taggedSymbol owner part := by
    intro owner part h
    have := congrArg (fun s => s.toList.head?) h
    simp [itableArraySymbol, ClassDef.taggedSymbol] at this
  intro h
  rcases ClassDef.mem_dispatchSymbols h with h | ⟨i, -, h⟩
  · exact hne _ _ h
  · exact hne _ _ h

end NativeBackend
