import NativeBackend.Dispatch.Emission
import NativeBackend.Proofs.Ir.Symbols
import NativeBackend.Proofs.Steps

namespace NativeBackend

theorem Diagnostics.errorCount_report (d : Diagnostics) (element : String) (location : Option SourceInfo)
    (message : String) : (d.report element location message).errorCount = d.errorCount + 1 := by
  simp [report, errorCount, errors, List.filter_append]

namespace Emission

open Steps

/-- What is built and defined stays as it is. -/
structure Keeps (e e' : Emission) : Prop where
  live : e'.tables.live = e.tables.live
  size : e'.tables.typeIdSize = e.tables.typeIdSize
  itables : ∀ (id : Nat) t, e.tables.itables[id]? = some t → e'.tables.itables[id]? = some t
  data : ∀ (name : String) d, e.module.data[name]? = some d → e'.module.data[name]? = some d

namespace Keeps

variable {e e' e'' : Emission}

theorem refl (e : Emission) : Keeps e e := ⟨rfl, rfl, fun _ _ h => h, fun _ _ h => h⟩

theorem trans (first : Keeps e e') (second : Keeps e' e'') : Keeps e e'' where
  live := second.live.trans first.live
  size := second.size.trans first.size
  itables id t h := second.itables id t (first.itables id t h)
  data name d h := second.data name d (first.data name d h)

theorem of_data {m : Module} (h : ∀ (name : String) d, e.module.data[name]? = some d → m.data[name]? = some d) :
    Keeps e { e with module := m } :=
  { refl e with data := h }

end Keeps

/-- What is known, built and reported stays so. What is newly marked as emitted is there, and symbols that are
newly mentioned are known. -/
structure Advances (e e' : Emission) : Prop extends Keeps e e' where
  functions : e'.module.functions = e.module.functions
  knows : ∀ name, e.module.Knows name → e'.module.Knows name
  closed : e.module.Closed → e'.module.Closed
  named : e.module.Named → e'.module.Named
  vtables : ∀ (id : Nat) t, e.tables.vtables[id]? = some t → e'.tables.vtables[id]? = some t
  marked : ∀ name ∈ e'.tables.emitted, name ∈ e.tables.emitted ∨ e'.module.Knows name
  errors : e.diagnostics.errorCount ≤ e'.diagnostics.errorCount

namespace Advances

variable {e e' e'' : Emission} {m : Module}

theorem refl (e : Emission) : Advances e e :=
  ⟨.refl e, rfl, fun _ h => h, id, id, fun _ _ h => h, fun _ h => .inl h, Nat.le_refl _⟩

theorem trans (first : Advances e e') (second : Advances e' e'') : Advances e e'' where
  toKeeps := first.toKeeps.trans second.toKeeps
  functions := second.functions.trans first.functions
  knows name h := second.knows name (first.knows name h)
  closed h := second.closed (first.closed h)
  named h := second.named (first.named h)
  vtables id t h := second.vtables id t (first.vtables id t h)
  marked name h := by
    rcases second.marked name h with h | h
    · exact (first.marked name h).imp_right (second.knows name)
    · exact .inr h
  errors := Nat.le_trans first.errors second.errors

theorem of_declares (h : Module.Declares e.module m) : Advances e { e with module := m } :=
  { refl e with
    toKeeps := .of_data fun _ _ hd => by rw [h.data, hd]
    functions := h.functions, knows := h.knows, closed := h.closed, named := fun hn => hn.declares h
    marked := fun _ hm => .inl hm }

theorem of_define {d : DataDefinition} (h : e.module.define d = .ok m) (hd : ∀ name ∈ d.value.symbols, m.Knows name) :
    Advances e { e with module := m } := by
  obtain ⟨hfunctions, hdata, hknows, -⟩ := Module.define_eq_ok h
  exact { refl e with
          toKeeps := .of_data fun _ _ hold => by
            rw [hdata, Maps.getElem?_insert_of_new (Std.TreeMap.getElem?_eq_none (Module.notMem_of_define h)) hold]
          functions := hfunctions, knows := hknows, closed := fun hc => hc.define h hd, named := fun hn => hn.define h
          marked := fun _ hm => .inl hm }

theorem of_marked {symbol : String} (h : Advances { e with tables.emitted := symbol :: e.tables.emitted } e')
    (hsymbol : e'.module.Knows symbol) : Advances e e' where
  toKeeps := ⟨h.live, h.size, h.itables, h.data⟩
  functions := h.functions
  knows := h.knows
  closed := h.closed
  named := h.named
  vtables := h.vtables
  marked name hname := by
    rcases h.marked name hname with hname | hname
    · rcases List.mem_cons.1 hname with rfl | hname
      · exact .inr hsymbol
      · exact .inl hname
    · exact .inr hname
  errors := h.errors

end Advances

variable {e e' : Emission}

theorem updateModule_eq_ok {change : Module → Except Error Module} (h : updateModule change e = .ok ⟨⟩ e') :
    ∃ m, change e.module = .ok m ∧ e' = { e with module := m } := by
  rw [updateModule, bind_of_ok (get_apply e)] at h
  cases hm : change e.module with
  | error err =>
      simp only [hm] at h
      cases h
  | ok m =>
      simp only [hm] at h
      cases h
      exact ⟨m, rfl, rfl⟩

theorem report_advances {element message : String} {location : Option SourceInfo}
    (h : report element location message e = .ok ⟨⟩ e') : Advances e e' ∧ 0 < e'.diagnostics.errorCount := by
  cases h
  have hcount := e.diagnostics.errorCount_report element location message
  refine ⟨{ Advances.refl e with errors := ?_ }, ?_⟩
  · exact hcount ▸ Nat.le_succ _
  · exact hcount ▸ Nat.succ_pos _

section

variable {c : ClassDef} {t t' : DispatchTable}

theorem cached_run {cached : Option DispatchTable} {built : DispatchTable} {stored : Emission}
    (h : (match cached with
      | some t => pure t
      | none => do
        set stored
        return built : EmitM DispatchTable) e = .ok t e') :
    (cached = some t ∧ e' = e) ∨ (cached = none ∧ t = built ∧ e' = stored) := by
  cases cached with
  | some t' =>
      cases h
      exact .inl ⟨rfl, rfl⟩
  | none =>
      cases h
      exact .inr ⟨rfl, rfl, rfl⟩

theorem vtable_run (h : vtable c e = .ok t e') :
    (e.tables.vtables[c.typeId]? = some t ∧ e' = e) ∨
      (e.tables.vtables[c.typeId]? = none ∧
        e' = { e with tables.vtables := e.tables.vtables.insert c.typeId t }) := by
  cases hi : c.isInterface with
  | true =>
      simp only [vtable, hi, if_true] at h
      cases h
  | false =>
      simp only [vtable, hi, Bool.false_eq_true, if_false] at h
      refine (cached_run h).imp_right ?_
      rintro ⟨hnew, rfl, rfl⟩
      exact ⟨hnew, rfl⟩

theorem itable_run (h : itable c e = .ok t e') :
    (e.tables.itables[c.typeId]? = some t ∧ e' = e) ∨
      (e.tables.itables[c.typeId]? = none ∧
        e' = { e with tables.itables := e.tables.itables.insert c.typeId t }) := by
  cases hi : c.isInterface with
  | false =>
      simp only [itable, hi, Bool.not_false, if_true] at h
      cases h
  | true =>
      simp only [itable, hi, Bool.not_true, Bool.false_eq_true, if_false] at h
      refine (cached_run h).imp_right ?_
      rintro ⟨hnew, rfl, rfl⟩
      exact ⟨hnew, rfl⟩

theorem cached_ne_error {cached : Option DispatchTable} {built : DispatchTable} {stored : Emission} {err : Error} :
    (match cached with
      | some t => pure t
      | none => do
        set stored
        return built : EmitM DispatchTable) e ≠ .error err e' := by
  cases cached <;> rintro ⟨⟩

theorem vtable_error {err : Error} (h : vtable c e = .error err e') :
    c.isInterface = true ∧ err = .internal (.vtableOfInterface c.name) := by
  cases hi : c.isInterface with
  | true =>
      simp only [vtable, hi, if_true] at h
      cases h
      exact ⟨rfl, rfl⟩
  | false =>
      simp only [vtable, hi, Bool.false_eq_true, if_false] at h
      exact absurd h cached_ne_error

theorem itable_error {err : Error} (h : itable c e = .error err e') :
    c.isInterface = false ∧ err = .internal (.itableOfClass c.name) := by
  cases hi : c.isInterface with
  | false =>
      simp only [itable, hi, Bool.not_false, if_true] at h
      cases h
      exact ⟨rfl, rfl⟩
  | true =>
      simp only [itable, hi, Bool.not_true, Bool.false_eq_true, if_false] at h
      exact absurd h cached_ne_error

theorem vtable_advances (h : vtable c e = .ok t e') : Advances e e' ∧ e'.tables.vtables[c.typeId]? = some t := by
  rcases vtable_run h with ⟨hcached, rfl⟩ | ⟨hnew, rfl⟩
  · exact ⟨.refl _, hcached⟩
  · exact ⟨{ Advances.refl e with vtables := fun _ _ => Maps.getElem?_insert_of_new hnew },
      Std.TreeMap.getElem?_insert_self⟩

theorem itable_advances (h : itable c e = .ok t e') : Advances e e' ∧ e'.tables.itables[c.typeId]? = some t := by
  rcases itable_run h with ⟨hcached, rfl⟩ | ⟨hnew, rfl⟩
  · exact ⟨.refl _, hcached⟩
  · exact ⟨{ Advances.refl e with itables := fun _ _ => Maps.getElem?_insert_of_new hnew },
      Std.TreeMap.getElem?_insert_self⟩

theorem vtable_of_cached (hcached : e.tables.vtables[c.typeId]? = some t) (h : vtable c e = .ok t' e') :
    t' = t ∧ e' = e := by
  rcases vtable_run h with ⟨hsame, rfl⟩ | ⟨hnew, -⟩
  · exact ⟨Option.some.inj (hsame.symm.trans hcached), rfl⟩
  · cases hnew.symm.trans hcached

theorem itable_of_cached (hcached : e.tables.itables[c.typeId]? = some t) (h : itable c e = .ok t' e') :
    t' = t ∧ e' = e := by
  rcases itable_run h with ⟨hsame, rfl⟩ | ⟨hnew, -⟩
  · exact ⟨Option.some.inj (hsame.symm.trans hcached), rfl⟩
  · cases hnew.symm.trans hcached

end

theorem index_advances {build : EmitM DispatchTable} (hbuild : ∀ {t : DispatchTable} {e₁ : Emission},
      build e = .ok t e₁ → Advances e e₁) {m : Method} {element message : String} {location : Option SourceInfo}
    {i : Nat} (h : (do
      match (← build).index? m with
      | some i => return i
      | none =>
        report element location message
        return 0 : EmitM Nat) e = .ok i e') : Advances e e' := by
  obtain ⟨t, e₁, ht, hfind⟩ := bind_eq_ok.1 h
  cases hi : t.index? m with
  | some k =>
      simp only [hi] at hfind
      cases hfind
      exact hbuild ht
  | none =>
      simp only [hi] at hfind
      obtain ⟨_, e₂, hreport, hdone⟩ := bind_eq_ok.1 hfind
      cases hdone
      exact (hbuild ht).trans (report_advances hreport).1

theorem vtableIndex_advances {location : Option SourceInfo} {m : Method} {owner : ClassDef} {i : Nat}
    (h : vtableIndex location m owner e = .ok i e') : Advances e e' :=
  index_advances (fun ht => (vtable_advances ht).1) h

theorem itableIndex_advances {location : Option SourceInfo} {m : Method} {interface : ClassDef} {i : Nat}
    (h : itableIndex location m interface e = .ok i e') : Advances e e' :=
  index_advances (fun ht => (itable_advances ht).1) h

theorem count_advances {change : DispatchStatistics → DispatchStatistics} (h : count change e = .ok ⟨⟩ e') :
    Advances e e' := by
  cases h
  exact { Advances.refl e with }

theorem reportMissing_advances {c : ClassDef} {table : String} {methods : List Method}
    (h : reportMissing c table methods e = .ok ⟨⟩ e') : Advances e e' := by
  induction methods generalizing e with
  | nil =>
      cases h
      exact .refl _
  | cons m methods ih =>
      rw [reportMissing] at h
      split at h
      · obtain ⟨_, e₁, hreport, hrest⟩ := bind_eq_ok.1 h
        exact (report_advances hreport).1.trans (ih hrest)
      · exact ih h

theorem declare_eq_ok {t : SlotTarget} {m m' : Module} (h : t.declare m = .ok m') :
    Module.Declares m m' ∧ m'.Knows t.symbol := by
  cases t with
  | method k =>
      rw [SlotTarget.declare] at h
      cases hs : k.functionType.target with
      | error err =>
          rw [hs] at h
          cases h
      | ok s =>
          rw [hs] at h
          cases h
          exact m.declareFunction_declares _ _
  | stub r =>
      cases h
      exact m.declareFunction_declares _ _

theorem declareTargets_advances {targets : List SlotTarget} (h : declareTargets targets e = .ok ⟨⟩ e') :
    Advances e e' ∧ ∀ t ∈ targets, e'.module.Knows t.symbol := by
  induction targets generalizing e with
  | nil =>
      cases h
      exact ⟨.refl _, by simp⟩
  | cons t targets ih =>
      obtain ⟨_, e₁, hdeclare, hrest⟩ := bind_eq_ok.1 h
      obtain ⟨m, hm, rfl⟩ := updateModule_eq_ok hdeclare
      obtain ⟨hdeclares, hknows⟩ := declare_eq_ok hm
      obtain ⟨ha, htargets⟩ := ih hrest
      refine ⟨(Advances.of_declares hdeclares).trans ha, fun u hu => ?_⟩
      rcases List.mem_cons.1 hu with rfl | hu
      · exact ha.knows _ hknows
      · exact htargets u hu

theorem defineTable_advances {symbol : String} {targets : List SlotTarget}
    (h : defineTable symbol targets e = .ok ⟨⟩ e') : Advances e e' ∧ e'.module.Knows symbol := by
  obtain ⟨_, e₁, htargets, hdefine⟩ := bind_eq_ok.1 h
  obtain ⟨ha, hknown⟩ := declareTargets_advances htargets
  obtain ⟨m, hm, rfl⟩ := updateModule_eq_ok hdefine
  obtain ⟨-, -, hknows, hsymbol⟩ := Module.define_eq_ok hm
  refine ⟨ha.trans (.of_define hm fun name hname => ?_), hsymbol⟩
  obtain ⟨p, hp, hname⟩ := Constant.mem_fieldSymbols.1 hname
  obtain ⟨t, ht, rfl⟩ := List.mem_map.1 hp
  rw [List.mem_singleton.1 hname]
  exact hknows _ (hknown t ht)

theorem markEmitted_eq_false {symbol : String} (h : markEmitted symbol e = .ok false e') :
    e' = e ∧ symbol ∈ e.tables.emitted := by
  rw [markEmitted, bind_of_ok (get_apply e)] at h
  split at h
  · rename_i hmem
    cases h
    exact ⟨rfl, List.contains_iff_mem.1 hmem⟩
  · cases h

theorem markEmitted_eq_true {symbol : String} (h : markEmitted symbol e = .ok true e') :
    e' = { e with tables.emitted := symbol :: e.tables.emitted } := by
  rw [markEmitted, bind_of_ok (get_apply e)] at h
  split at h
  · cases h
  · cases h
    rfl

def MarkedKnown (e : Emission) : Prop := ∀ name ∈ e.tables.emitted, e.module.Knows name

theorem MarkedKnown.advances (h : e.MarkedKnown) (ha : Advances e e') : e'.MarkedKnown :=
  fun name hname => (ha.marked name hname).elim (fun hold => ha.knows name (h name hold)) id

def HasVtable (c : ClassDef) (e : Emission) : Prop :=
  ∃ t, e.tables.vtables[c.typeId]? = some t ∧ e.module.Knows t.symbol

theorem HasVtable.advances {c : ClassDef} (h : HasVtable c e) (ha : Advances e e') : HasVtable c e' := by
  obtain ⟨t, ht, hknown⟩ := h
  exact ⟨t, ha.vtables _ t ht, ha.knows _ hknown⟩

theorem emitVtable_advances {c : ClassDef} (he : e.MarkedKnown) (h : emitVtable c e = .ok ⟨⟩ e') :
    Advances e e' ∧ (c.isConcrete = true → HasVtable c e') := by
  cases hk : c.isConcrete with
  | false =>
      simp only [emitVtable, hk, Bool.not_false, if_true] at h
      cases h
      exact ⟨.refl e, by simp⟩
  | true =>
      simp only [emitVtable, hk, Bool.not_true, Bool.false_eq_true, if_false] at h
      obtain ⟨t, e₁, ht, h₁⟩ := bind_eq_ok.1 h
      obtain ⟨ha, hcached⟩ := vtable_advances ht
      obtain ⟨new, e₂, hmark, h₂⟩ := bind_eq_ok.1 h₁
      cases new with
      | false =>
          obtain ⟨rfl, hmem⟩ := markEmitted_eq_false hmark
          cases h₂
          exact ⟨ha, fun _ => ⟨t, hcached, he.advances ha _ hmem⟩⟩
      | true =>
          cases markEmitted_eq_true hmark
          obtain ⟨_, e₃, hreport, h₃⟩ := bind_eq_ok.1 h₂
          obtain ⟨_, e₄, hdefine, hcount⟩ := bind_eq_ok.1 h₃
          obtain ⟨hdefine, hknown⟩ := defineTable_advances hdefine
          have hcount := count_advances hcount
          have hmarked := ((reportMissing_advances hreport).trans hdefine).trans hcount
          have hknown' := hcount.knows _ hknown
          exact ⟨ha.trans (hmarked.of_marked hknown'), fun _ => ⟨t, hmarked.vtables _ t hcached, hknown'⟩⟩

theorem anyItable_cons_eq_ok {i : ClassDef} {interfaces : List ClassDef} {b : Bool}
    (h : anyItable (i :: interfaces) e = .ok b e') :
    ∃ t e₁, itable i e = .ok t e₁ ∧
      ((t.isEmpty = false ∧ b = true ∧ e' = e₁) ∨ (t.isEmpty = true ∧ anyItable interfaces e₁ = .ok b e')) := by
  obtain ⟨t, e₁, ht, h₁⟩ := bind_eq_ok.1 h
  refine ⟨t, e₁, ht, ?_⟩
  cases hempty : t.isEmpty with
  | false =>
      simp only [hempty, Bool.not_false, if_true] at h₁
      cases h₁
      exact .inl ⟨rfl, rfl, rfl⟩
  | true =>
      simp only [hempty, Bool.not_true, Bool.false_eq_true, if_false] at h₁
      exact .inr ⟨rfl, h₁⟩

theorem anyItable_advances {interfaces : List ClassDef} {b : Bool} (h : anyItable interfaces e = .ok b e') :
    Advances e e' := by
  induction interfaces generalizing e with
  | nil =>
      cases h
      exact .refl _
  | cons i interfaces ih =>
      obtain ⟨t, e₁, ht, ⟨-, -, rfl⟩ | ⟨-, hrest⟩⟩ := anyItable_cons_eq_ok h
      · exact (itable_advances ht).1
      · exact (itable_advances ht).1.trans (ih hrest)

/-- Whether there are itables is settled the first time that it is asked. -/
theorem anyItable_stable {interfaces : List ClassDef} {b b' : Bool} {e₁ e₂ e₃ : Emission}
    (h : anyItable interfaces e = .ok b e₁) (ha : Advances e₁ e₂) (h' : anyItable interfaces e₂ = .ok b' e₃) :
    b' = b := by
  induction interfaces generalizing e with
  | nil =>
      cases h
      cases h'
      rfl
  | cons i interfaces ih =>
      obtain ⟨t, f, ht, hf⟩ := anyItable_cons_eq_ok h
      obtain ⟨t', f', ht', hf'⟩ := anyItable_cons_eq_ok h'
      have hcached := (itable_advances ht).2
      have hkept : Advances f e₁ := by
        rcases hf with ⟨-, -, rfl⟩ | ⟨-, hrest⟩
        · exact .refl _
        · exact anyItable_advances hrest
      obtain ⟨rfl, rfl⟩ := itable_of_cached (ha.itables _ t (hkept.itables _ t hcached)) ht'
      rcases hf with ⟨hempty, rfl, -⟩ | ⟨hempty, hrest⟩ <;> rcases hf' with ⟨hempty', rfl, -⟩ | ⟨hempty', hrest'⟩
      · rfl
      · cases hempty.symm.trans hempty'
      · cases hempty.symm.trans hempty'
      · exact ih hrest hrest'

theorem emitItablesOf_cons_eq_ok {c i : ClassDef} {interfaces emitted : List ClassDef}
    (h : emitItablesOf c (i :: interfaces) e = .ok emitted e') :
    ∃ t e₁, itable i e = .ok t e₁ ∧
      ((t.isEmpty = true ∧ emitItablesOf c interfaces e₁ = .ok emitted e') ∨
        (t.isEmpty = false ∧ ∃ e₂ e₃ e₄ change rest,
          reportMissing c "itable" (resolvedSlots c t.slots) e₁ = .ok ⟨⟩ e₂ ∧
            defineTable (c.itableSymbol i) (t.slots.map (.ofSelector c)) e₂ = .ok ⟨⟩ e₃ ∧ count change e₃ = .ok ⟨⟩ e₄ ∧
              emitItablesOf c interfaces e₄ = .ok rest e' ∧ emitted = i :: rest)) := by
  obtain ⟨t, e₁, ht, h₁⟩ := bind_eq_ok.1 h
  refine ⟨t, e₁, ht, ?_⟩
  cases hempty : t.isEmpty with
  | true =>
      simp only [hempty, if_true] at h₁
      exact .inl ⟨rfl, h₁⟩
  | false =>
      simp only [hempty, Bool.false_eq_true, if_false] at h₁
      obtain ⟨_, e₂, hreport, h₂⟩ := bind_eq_ok.1 h₁
      obtain ⟨_, e₃, hdefine, h₃⟩ := bind_eq_ok.1 h₂
      obtain ⟨_, e₄, hcount, h₄⟩ := bind_eq_ok.1 h₃
      obtain ⟨rest, e₅, hrest, hdone⟩ := bind_eq_ok.1 h₄
      cases hdone
      exact .inr ⟨rfl, e₂, e₃, e₄, _, rest, hreport, hdefine, hcount, hrest, rfl⟩

theorem emitItablesOf_advances {c : ClassDef} {interfaces emitted : List ClassDef}
    (h : emitItablesOf c interfaces e = .ok emitted e') :
    Advances e e' ∧ ∀ i ∈ emitted, e'.module.Knows (c.itableSymbol i) := by
  induction interfaces generalizing e emitted with
  | nil =>
      cases h
      exact ⟨.refl _, by simp⟩
  | cons i interfaces ih =>
      obtain ⟨t, e₁, ht, ⟨-, hrest⟩ | ⟨-, e₂, e₃, e₄, change, rest, hreport, hdefine, hcount, hrest, rfl⟩⟩ :=
        emitItablesOf_cons_eq_ok h
      · obtain ⟨ha, hknown⟩ := ih hrest
        exact ⟨(itable_advances ht).1.trans ha, hknown⟩
      · obtain ⟨hdefined, hsymbol⟩ := defineTable_advances hdefine
        obtain ⟨ha, hknown⟩ := ih hrest
        have hbefore := (itable_advances ht).1.trans ((reportMissing_advances hreport).trans hdefined)
        have hafter := (count_advances hcount).trans ha
        refine ⟨hbefore.trans hafter, fun j hj => ?_⟩
        rcases List.mem_cons.1 hj with rfl | hj
        · exact hafter.knows _ hsymbol
        · exact hknown j hj

/-- It is settled whether a class has a dictionary of itables, and a dictionary is there if it has. -/
def DictionarySettled (c : ClassDef) (e : Emission) : Prop :=
  ∃ b e₀ e₁, hasItables c e₀ = .ok b e₁ ∧ Advances e₁ e ∧ (b = true → e.module.Knows c.dictionarySymbol)

theorem DictionarySettled.advances {c : ClassDef} (h : DictionarySettled c e) (ha : Advances e e') :
    DictionarySettled c e' := by
  obtain ⟨b, e₀, e₁, hb, hbefore, hknown⟩ := h
  exact ⟨b, e₀, e₁, hb, hbefore.trans ha, fun htrue => ha.knows _ (hknown htrue)⟩

theorem dictionary_symbols {idType type : IrType} {c : ClassDef} {interfaces : List ClassDef} {name : String}
    (h : name ∈ (Constant.array type (interfaces.map (dictionaryEntry idType c) ++ [.zero])).symbols) :
    ∃ i ∈ interfaces, name = c.itableSymbol i := by
  obtain ⟨entry, hentry, hname⟩ := Constant.mem_elementSymbols.1 h
  rcases List.mem_append.1 hentry with hentry | hentry
  · obtain ⟨i, hi, rfl⟩ := List.mem_map.1 hentry
    refine ⟨i, hi, ?_⟩
    simpa [dictionaryEntry, Constant.symbols, Constant.fieldSymbols] using hname
  · rw [List.mem_singleton.1 hentry] at hname
    cases hname

theorem emitItables_advances {c : ClassDef} (he : e.MarkedKnown) (h : emitItables c e = .ok ⟨⟩ e') :
    Advances e e' ∧ (c.isConcrete = true → DictionarySettled c e') := by
  cases hk : c.isConcrete with
  | false =>
      simp only [emitItables, hk, Bool.not_false, if_true] at h
      cases h
      exact ⟨.refl e, by simp⟩
  | true =>
      simp only [emitItables, hk, Bool.not_true, Bool.false_eq_true, if_false] at h
      obtain ⟨b, e₁, hhas, h₁⟩ := bind_eq_ok.1 h
      have ha : Advances e e₁ := anyItable_advances hhas
      cases b with
      | false =>
          cases h₁
          exact ⟨ha, fun _ => ⟨false, e, e', hhas, .refl _, by simp⟩⟩
      | true =>
          obtain ⟨new, e₂, hmark, h₂⟩ := bind_eq_ok.1 h₁
          cases new with
          | false =>
              obtain ⟨rfl, hmem⟩ := markEmitted_eq_false hmark
              cases h₂
              exact ⟨ha, fun _ => ⟨true, e, _, hhas, .refl _, fun _ => he.advances ha _ hmem⟩⟩
          | true =>
              cases markEmitted_eq_true hmark
              simp only [Bool.not_true, Bool.false_eq_true, if_false] at h₂
              rw [bind_of_ok (get_apply _)] at h₂
              cases hwidth : IrType.ofBytes? e₁.tables.typeIdSize with
              | none =>
                  simp only [hwidth] at h₂
                  cases h₂
              | some idType =>
                  simp only [hwidth] at h₂
                  obtain ⟨interfaces, e₃, hemit, h₃⟩ := bind_eq_ok.1 h₂
                  obtain ⟨_, e₄, hdefine, hcount⟩ := bind_eq_ok.1 h₃
                  obtain ⟨hemit, hknown⟩ := emitItablesOf_advances hemit
                  obtain ⟨m, hm, rfl⟩ := updateModule_eq_ok hdefine
                  obtain ⟨-, -, hknows, hsymbol⟩ := Module.define_eq_ok hm
                  have hdefined : Advances e₃ { e₃ with module := m } := by
                    refine .of_define hm fun name hname => ?_
                    obtain ⟨i, hi, rfl⟩ := dictionary_symbols hname
                    exact hknows _ (hknown i hi)
                  have hcount := count_advances hcount
                  have hdictionary := hcount.knows _ hsymbol
                  have hdone := ((hemit.trans hdefined).trans hcount).of_marked hdictionary
                  exact ⟨ha.trans hdone, fun _ => ⟨true, e, e₁, hhas, hdone, fun _ => hdictionary⟩⟩

section

variable {array : String} {symbolOf : ClassDef → EmitM (Option String)}

theorem fillSlots_advances {classes : List ClassDef}
    (hstep : ∀ c ∈ classes, c.isConcrete = true → ∀ {e₁ e₂ symbol}, Advances e e₁ → symbolOf c e₁ = .ok symbol e₂ →
      Advances e₁ e₂ ∧ ∀ name, symbol = some name → e₂.module.Knows name)
    {slots slots' : Array (Option String)} {e₀ : Emission} (ha : Advances e e₀)
    (hslots : ∀ name, some name ∈ slots → e₀.module.Knows name)
    (h : fillSlots array symbolOf classes slots e₀ = .ok slots' e') :
    Advances e₀ e' ∧ ∀ name, some name ∈ slots' → e'.module.Knows name := by
  induction classes generalizing slots e₀ with
  | nil =>
      cases h
      exact ⟨.refl _, hslots⟩
  | cons c classes ih =>
      have ih := @ih fun d hd => hstep d (List.mem_cons_of_mem c hd)
      cases hk : c.isConcrete with
      | false =>
          simp only [fillSlots, hk, Bool.false_eq_true, if_false] at h
          exact ih ha hslots h
      | true =>
          cases htaken : (slots.getD c.typeId none).isSome with
          | true =>
              simp only [fillSlots, hk, htaken, if_true] at h
              cases h
          | false =>
              simp only [fillSlots, hk, htaken, Bool.false_eq_true, if_true, if_false] at h
              obtain ⟨symbol, e₁, hsymbol, h₁⟩ := bind_eq_ok.1 h
              obtain ⟨ha₁, hknown⟩ := hstep c List.mem_cons_self hk ha hsymbol
              have hslots₁ : ∀ name, some name ∈ slots.setIfInBounds c.typeId symbol → e₁.module.Knows name := by
                intro name hname
                rcases Array.mem_or_eq_of_mem_setIfInBounds hname with hname | hname
                · exact ha₁.knows name (hslots name hname)
                · exact hknown name hname.symm
              obtain ⟨ha₂, hslots'⟩ := ih (ha.trans ha₁) hslots₁ h₁
              exact ⟨ha₁.trans ha₂, hslots'⟩

theorem emitGlobalArray_advances {p : Program}
    (hstep : ∀ c ∈ p.classes, c.isConcrete = true → ∀ {e₁ e₂ symbol}, Advances e e₁ → symbolOf c e₁ = .ok symbol e₂ →
      Advances e₁ e₂ ∧ ∀ name, symbol = some name → e₂.module.Knows name)
    (h : emitGlobalArray p array symbolOf e = .ok ⟨⟩ e') : Advances e e' := by
  obtain ⟨slots, e₁, hfill, hdefine⟩ := bind_eq_ok.1 h
  obtain ⟨ha, hslots⟩ := fillSlots_advances hstep (.refl e) (by simp) hfill
  obtain ⟨m, hm, rfl⟩ := updateModule_eq_ok hdefine
  obtain ⟨-, -, hknows, -⟩ := Module.define_eq_ok hm
  refine ha.trans (.of_define hm fun name hname => hknows name (hslots name ?_))
  obtain ⟨entry, hentry, hname⟩ := Constant.mem_elementSymbols.1 hname
  obtain ⟨slot, hslot, rfl⟩ := List.mem_map.1 hentry
  cases slot with
  | none => cases hname
  | some symbol =>
      rw [List.mem_singleton.1 hname]
      exact Array.mem_toList_iff.1 hslot

end

theorem emitVtableArray_advances {p : Program} (hhas : ∀ c ∈ p.classes, c.isConcrete = true → HasVtable c e)
    (h : emitVtableArray p e = .ok ⟨⟩ e') : Advances e e' := by
  refine emitGlobalArray_advances (fun c hc hk {e₁ e₂ symbol} ha hsymbol => ?_) h
  obtain ⟨t, ht, hknown⟩ := (hhas c hc hk).advances ha
  obtain ⟨t', e₃, hvtable, hdone⟩ := bind_eq_ok.1 hsymbol
  obtain ⟨rfl, rfl⟩ := vtable_of_cached ht hvtable
  cases hdone
  refine ⟨.refl _, ?_⟩
  rintro name ⟨⟩
  exact hknown

theorem emitItableArray_advances {p : Program}
    (hsettled : ∀ c ∈ p.classes, c.isConcrete = true → DictionarySettled c e)
    (h : emitItableArray p e = .ok ⟨⟩ e') : Advances e e' := by
  refine emitGlobalArray_advances (fun c hc hk {e₁ e₂ symbol} ha hsymbol => ?_) h
  obtain ⟨b, e₃, e₄, hfirst, hbefore, hknown⟩ := (hsettled c hc hk).advances ha
  obtain ⟨b', e₅, hagain, hdone⟩ := bind_eq_ok.1 hsymbol
  have hadvances : Advances e₁ e₅ := anyItable_advances hagain
  cases anyItable_stable hfirst hbefore hagain
  cases b with
  | false =>
      cases hdone
      exact ⟨hadvances, by simp⟩
  | true =>
      cases hdone
      refine ⟨hadvances, ?_⟩
      rintro name ⟨⟩
      exact hadvances.knows _ (hknown rfl)

end Emission

end NativeBackend
