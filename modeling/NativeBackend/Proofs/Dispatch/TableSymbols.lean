import NativeBackend.Proofs.Dispatch.ItableSymbols

namespace NativeBackend

inductive ClassTable where
  | vtable (c : ClassDef)
  | dictionary (c : ClassDef)
  | itable (c interface : ClassDef)

def ClassTable.symbol : ClassTable → String
  | vtable c => "vtable-" ++ c.dottedName
  | dictionary c => c.dictionarySymbol
  | itable c i => c.itableSymbol i

theorem DispatchTable.symbol_ofClass (live : Reachability) (c : ClassDef) :
    (ofClass live c).symbol = (ClassTable.vtable c).symbol := rfl

namespace ClassDef

def joined (c interface : ClassDef) : String := c.dottedName ++ "-" ++ interface.dottedName

theorem itableSymbol_eq_iff {c d i j : ClassDef} :
    c.itableSymbol i = d.itableSymbol j ↔ c.joined i = d.joined j := by
  simp [itableSymbol, joined, String.append_assoc]

theorem dictionarySymbol_eq_iff {c d : ClassDef} :
    c.dictionarySymbol = d.dictionarySymbol ↔ c.dottedName = d.dottedName := by
  simp [dictionarySymbol]

theorem itableSymbol_eq_dictionarySymbol_iff {c d i : ClassDef} :
    c.itableSymbol i = d.dictionarySymbol ↔ c.joined i = "dict-" ++ d.dottedName := by
  have hdict : d.dictionarySymbol = "itable-" ++ ("dict-" ++ d.dottedName) := by
    rw [← String.append_assoc]
    rfl
  simp [hdict, itableSymbol, joined, String.append_assoc]

theorem vtableSymbol_ne (c : ClassDef) {d : ClassDef} {name : String} (h : name ∈ d.dispatchSymbols) :
    (ClassTable.vtable c).symbol ≠ name := by
  have hne : ∀ owner part : String, (ClassTable.vtable c).symbol ≠ taggedSymbol owner part := by
    intro owner part h
    have := congrArg (fun s => s.toList.head?) h
    simp [ClassTable.symbol, taggedSymbol] at this
  rcases mem_dispatchSymbols h with rfl | ⟨i, -, rfl⟩
  · exact hne _ _
  · exact hne _ _

end ClassDef

namespace Program

variable {p : Program}

def HasTable (p : Program) : ClassTable → Prop
  | .vtable c | .dictionary c => c ∈ p.classes ∧ c.isConcrete = true
  | .itable c i => (c ∈ p.classes ∧ c.isConcrete = true) ∧ i ∈ c.allInterfaces

def TablesApart (p : Program) : Prop := ∀ s t, p.HasTable s → p.HasTable t → s.symbol = t.symbol → s = t

/-- Concrete classes have different names also when these are dotted. What the names of classes and interfaces
are joined to differs for different pairs, and from what marks a dictionary. -/
structure NamesApart (p : Program) : Prop where
  class_ : ∀ c ∈ p.classes, c.isConcrete = true → ∀ d ∈ p.classes, d.isConcrete = true →
    c.dottedName = d.dottedName → c = d
  pair : ∀ c ∈ p.classes, c.isConcrete = true → ∀ d ∈ p.classes, d.isConcrete = true →
    ∀ i ∈ c.allInterfaces, ∀ j ∈ d.allInterfaces, c.joined i = d.joined j → c = d ∧ i = j
  dictionary : ∀ c ∈ p.classes, c.isConcrete = true → ∀ d ∈ p.classes, d.isConcrete = true →
    ∀ i ∈ c.allInterfaces, c.joined i ≠ "dict-" ++ d.dottedName

/-- All collisions of symbols come from names that are joined or dotted to the same text. -/
theorem tablesApart_iff : p.TablesApart ↔ p.NamesApart := by
  constructor
  · intro h
    refine ⟨fun c hc hk d hd hkd heq => ?_, fun c hc hk d hd hkd i hi j hj heq => ?_,
      fun c hc hk d hd hkd i hi heq => ?_⟩
    · exact ClassTable.dictionary.inj
        (h (.dictionary c) (.dictionary d) ⟨hc, hk⟩ ⟨hd, hkd⟩ (ClassDef.dictionarySymbol_eq_iff.2 heq))
    · exact ClassTable.itable.inj
        (h (.itable c i) (.itable d j) ⟨⟨hc, hk⟩, hi⟩ ⟨⟨hd, hkd⟩, hj⟩ (ClassDef.itableSymbol_eq_iff.2 heq))
    · cases h (.itable c i) (.dictionary d) ⟨⟨hc, hk⟩, hi⟩ ⟨hd, hkd⟩
        (ClassDef.itableSymbol_eq_dictionarySymbol_iff.2 heq)
  · intro h s t hs ht heq
    cases s with
    | vtable c =>
        cases t with
        | vtable d => rw [h.class_ c hs.1 hs.2 d ht.1 ht.2 (by simpa [ClassTable.symbol] using heq)]
        | dictionary d => exact absurd heq (c.vtableSymbol_ne List.mem_cons_self)
        | itable d j => exact absurd heq (c.vtableSymbol_ne (ClassDef.itableSymbol_mem ht.2))
    | dictionary c =>
        cases t with
        | vtable d => exact absurd heq.symm (d.vtableSymbol_ne List.mem_cons_self)
        | dictionary d => rw [h.class_ c hs.1 hs.2 d ht.1 ht.2 (ClassDef.dictionarySymbol_eq_iff.1 heq)]
        | itable d j =>
            exact absurd (ClassDef.itableSymbol_eq_dictionarySymbol_iff.1 heq.symm)
              (h.dictionary d ht.1.1 ht.1.2 c hs.1 hs.2 j ht.2)
    | itable c i =>
        cases t with
        | vtable d => exact absurd heq.symm (d.vtableSymbol_ne (ClassDef.itableSymbol_mem hs.2))
        | dictionary d =>
            exact absurd (ClassDef.itableSymbol_eq_dictionarySymbol_iff.1 heq)
              (h.dictionary c hs.1.1 hs.1.2 d ht.1 ht.2 i hs.2)
        | itable d j =>
            obtain ⟨rfl, rfl⟩ := h.pair c hs.1.1 hs.1.2 d ht.1.1 ht.1.2 i hs.2 j ht.2
              (ClassDef.itableSymbol_eq_iff.1 heq)
            rfl

theorem NamesApart.of_dispatchable (h : p.Dispatchable) : p.NamesApart := by
  refine ⟨fun c hc _ d hd _ heq => h.dottedName_inj hc hd heq, fun c hc hk d hd hkd i hi j hj heq => ?_,
    fun c hc hk d hd hkd i hi heq => ?_⟩
  · have hsame : c.itableSymbol i = d.itableSymbol j := ClassDef.itableSymbol_eq_iff.2 heq
    obtain ⟨howner, hpart⟩ := ClassDef.taggedSymbol_inj (h.notMem_dottedName hc)
      (h.notMem_dottedName (h.interface hc hi).1) hsame
    exact ⟨h.dottedName_inj hc hd howner, h.dottedName_inj (h.interface hc hi).1 (h.interface hd hj).1 hpart⟩
  · have hsame := ClassDef.itableSymbol_eq_dictionarySymbol_iff.2 heq
    rw [ClassDef.dictionarySymbol_eq] at hsame
    obtain ⟨-, hpart⟩ := ClassDef.taggedSymbol_inj (h.notMem_dottedName hc)
      (h.notMem_dottedName (h.interface hc hi).1) hsame
    exact h.dottedName_ne hd hkd hc hi hpart.symm

end Program

/-- What can be asked for: the vtable of a class, or its itables with the dictionary of them. -/
inductive TableRequest where
  | vtable (c : ClassDef)
  | itables (c : ClassDef)

def ClassTable.request : ClassTable → TableRequest
  | vtable c => .vtable c
  | dictionary c | itable c _ => .itables c

namespace TableRequest

variable {p : Program} {r s : TableRequest} {name : String}

def owner : TableRequest → ClassDef
  | vtable c | itables c => c

/-- The request is for a concrete class of a program; for others nothing is emitted. -/
def Of (p : Program) (r : TableRequest) : Prop := r.owner ∈ p.classes ∧ r.owner.isConcrete = true

def symbols : TableRequest → List String
  | vtable c => [(ClassTable.vtable c).symbol]
  | itables c => c.dispatchSymbols

def mark : TableRequest → String
  | vtable c => (ClassTable.vtable c).symbol
  | itables c => c.dictionarySymbol

theorem mark_mem_symbols (r : TableRequest) : r.mark ∈ r.symbols := by
  cases r <;> exact List.mem_cons_self

theorem exists_table (hr : r.Of p) (h : name ∈ r.symbols) :
    ∃ t, p.HasTable t ∧ t.symbol = name ∧ t.request = r := by
  cases r with
  | vtable c => exact ⟨.vtable c, hr, (List.mem_singleton.1 h).symm, rfl⟩
  | itables c =>
      rcases List.mem_cons.1 h with rfl | h
      · exact ⟨.dictionary c, hr, rfl, rfl⟩
      · obtain ⟨i, hi, rfl⟩ := List.mem_map.1 h
        exact ⟨.itable c i, ⟨hr, hi⟩, rfl, rfl⟩

theorem eq_of_mem_symbols (hp : p.TablesApart) (hr : r.Of p) (hs : s.Of p) (hnr : name ∈ r.symbols)
    (hns : name ∈ s.symbols) : r = s := by
  obtain ⟨t, ht, hsymbol, rfl⟩ := exists_table hr hnr
  obtain ⟨u, hu, rfl, rfl⟩ := exists_table hs hns
  rw [hp t u ht hu hsymbol]

theorem nodup_symbols (hp : p.TablesApart) (hr : r.Of p) : r.symbols.Nodup := by
  cases r with
  | vtable c => exact List.nodup_singleton _
  | itables c =>
      refine List.nodup_cons.2 ⟨?_, ?_⟩
      · intro h
        obtain ⟨i, hi, heq⟩ := List.mem_map.1 h
        cases hp (.itable c i) (.dictionary c) ⟨hr, hi⟩ hr heq
      · refine List.Nodup.map_on (fun i hi j hj heq => ?_)
          (c.pairwise_allInterfaces.imp fun hlt heq => by simp [heq] at hlt)
        cases hp (.itable c i) (.itable c j) ⟨hr, hi⟩ ⟨hr, hj⟩ heq
        rfl

end TableRequest

end NativeBackend
