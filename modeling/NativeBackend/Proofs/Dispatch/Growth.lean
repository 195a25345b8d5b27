import NativeBackend.Proofs.Dispatch.Advance
import NativeBackend.Proofs.Dispatch.ItableEmission
import NativeBackend.Proofs.Dispatch.TableSymbols

namespace NativeBackend

namespace Emission

open Steps

def hasSlots (e : Emission) (i : ClassDef) : Bool := (e.tables.itables[i.typeId]?).any (!·.isEmpty)

/-- What is built and defined stays, and what is new in the data has one of some symbols. -/
structure Grows (p : Program) (symbols : List String) (e e' : Emission) : Prop extends Keeps e e' where
  emitted : e'.tables.emitted = e.tables.emitted
  cached : Cached p e → Cached p e'
  added : ∀ name ∈ e'.module.data, name ∈ e.module.data ∨ name ∈ symbols

namespace Grows

variable {p : Program} {symbols more : List String} {e e' e'' : Emission}

theorem refl (p : Program) (symbols : List String) (e : Emission) : Grows p symbols e e :=
  ⟨.refl e, rfl, id, fun _ h => .inl h⟩

theorem trans (first : Grows p symbols e e') (second : Grows p symbols e' e'') : Grows p symbols e e'' where
  toKeeps := first.toKeeps.trans second.toKeeps
  emitted := second.emitted.trans first.emitted
  cached h := second.cached (first.cached h)
  added name h := (second.added name h).elim (first.added name) .inr

theorem mono (h : Grows p symbols e e') (hsub : symbols ⊆ more) : Grows p more e e' :=
  { h with added := fun name hname => (h.added name hname).imp_right (hsub ·) }

theorem mem (h : Grows p symbols e e') {name : String} (hname : name ∈ e.module.data) : name ∈ e'.module.data := by
  have hd := Std.TreeMap.getElem?_eq_some_getElem hname
  exact Std.TreeMap.mem_iff_isSome_getElem?.2 (by rw [h.data _ _ hd]; rfl)

end Grows

theorem Keeps.hasSlots_eq {e e' : Emission} (h : Keeps e e') {i : ClassDef} {t : DispatchTable}
    (ht : e.tables.itables[i.typeId]? = some t) : e'.hasSlots i = e.hasSlots i := by
  rw [hasSlots, hasSlots, ht, h.itables _ _ ht]

variable {p : Program} {e e' : Emission} {c i : ClassDef} {t : DispatchTable} {interfaces : List ClassDef}
  {err : Error}

theorem itable_module (h : itable i e = .ok t e') : e'.module = e.module := by
  rcases itable_run h with ⟨-, rfl⟩ | ⟨-, rfl⟩ <;> rfl

theorem itable_grows (symbols : List String) (h : itable i e = .ok t e') :
    Grows p symbols e e' ∧ e'.tables.itables[i.typeId]? = some t := by
  obtain ⟨ha, hcached⟩ := itable_advances h
  refine ⟨?_, hcached⟩
  rcases itable_run h with ⟨-, rfl⟩ | ⟨-, rfl⟩
  · exact .refl _ _ _
  · exact { Grows.refl p symbols e with itables := ha.itables }

theorem itable_error_grows (symbols : List String) (h : itable i e = .error err e') : Grows p symbols e e' := by
  cases hi : i.isInterface with
  | false =>
      simp only [itable, hi, Bool.not_false, if_true] at h
      cases h
      exact .refl _ _ _
  | true =>
      simp only [itable, hi, Bool.not_true, Bool.false_eq_true, if_false] at h
      exact absurd h cached_ne_error

theorem Grows.of_insert {d : DataDefinition} {m : Module} (hnew : d.name ∉ e.module.data)
    (hdata : m.data = e.module.data.insert d.name d) :
    Grows p [d.name] e { e with module := m } ∧ m.data[d.name]? = some d := by
  refine ⟨{ Grows.refl p [d.name] e with data := fun name d' hd => ?_, added := fun name hname => ?_ }, ?_⟩
  · change m.data[name]? = some d'
    rw [hdata]
    exact Maps.getElem?_insert_of_new (Std.TreeMap.getElem?_eq_none hnew) hd
  · change name ∈ m.data at hname
    rw [hdata, Std.TreeMap.mem_insert] at hname
    exact hname.symm.imp_right fun heq => List.mem_singleton.2 (Std.compare_eq_iff_eq.1 heq).symm
  · rw [hdata]
    exact Std.TreeMap.getElem?_insert_self

theorem Grows.of_define {d : DataDefinition} {m : Module} (h : e.module.define d = .ok m) :
    Grows p [d.name] e { e with module := m } ∧ m.data[d.name]? = some d :=
  Grows.of_insert (Module.notMem_of_define h) (Module.define_eq_ok h).2.1

theorem updateModule_error {change : Module → Except Error Module} (h : updateModule change e = .error err e') :
    change e.module = .error err ∧ e' = e := by
  rw [updateModule, bind_of_ok (get_apply e)] at h
  cases hm : change e.module with
  | error err' =>
      simp only [hm] at h
      cases h
      exact ⟨rfl, rfl⟩
  | ok m =>
      simp only [hm] at h
      cases h

theorem defineTable_run (symbol : String) (targets : List SlotTarget) (e : Emission) :
    ∃ m, m.data = e.module.data ∧ defineTable symbol targets e =
      updateModule (·.define (tableData symbol targets)) { e with module := m } := by
  obtain ⟨m, hm, hdata⟩ := declareTargets_eq_ok targets e
  exact ⟨m, hdata, by rw [defineTable, bind_of_ok hm]; rfl⟩

theorem Grows.of_data_eq {m : Module} (symbols : List String) (h : m.data = e.module.data) :
    Grows p symbols e { e with module := m } :=
  { Grows.refl p symbols e with
    data := fun _ _ hd => by rw [← hd]; exact congrArg (·[_]?) h
    added := fun _ hname => .inl (h ▸ hname) }

theorem defineTable_grows {symbol : String} {targets : List SlotTarget}
    (h : defineTable symbol targets e = .ok ⟨⟩ e') :
    Grows p [symbol] e e' ∧ e'.module.data[symbol]? = some (tableData symbol targets) := by
  obtain ⟨m, hdata, hrun⟩ := defineTable_run symbol targets e
  obtain ⟨m', hm', rfl⟩ := updateModule_eq_ok (hrun.symm.trans h)
  obtain ⟨hgrows, hdefined⟩ := Grows.of_define hm'
  exact ⟨(Grows.of_data_eq _ hdata).trans hgrows, hdefined⟩

theorem defineTable_error {symbol : String} {targets : List SlotTarget} (symbols : List String)
    (h : defineTable symbol targets e = .error err e') :
    Grows p symbols e e' ∧ symbol ∈ e.module.data ∧ err = .internal (.duplicateData symbol) := by
  obtain ⟨m, hdata, hrun⟩ := defineTable_run symbol targets e
  obtain ⟨hdefine, rfl⟩ := updateModule_error (hrun.symm.trans h)
  exact ⟨.of_data_eq _ hdata, hdata ▸ Module.define_eq_error hdefine⟩

theorem reportMissing_module {table : String} {methods : List Method}
    (h : reportMissing c table methods e = .ok ⟨⟩ e') : e'.module = e.module := by
  obtain ⟨d, hd⟩ := reportMissing_eq_ok c table methods e
  cases hd.symm.trans h
  rfl

theorem reportMissing_grows {table : String} {methods : List Method} (symbols : List String)
    (h : reportMissing c table methods e = .ok ⟨⟩ e') : Grows p symbols e e' := by
  obtain ⟨d, hd⟩ := reportMissing_eq_ok c table methods e
  cases hd.symm.trans h
  exact { Grows.refl p symbols e with }

theorem reportMissing_error {table : String} {methods : List Method}
    (h : reportMissing c table methods e = .error err e') : False := by
  obtain ⟨d, hd⟩ := reportMissing_eq_ok c table methods e
  cases hd.symm.trans h

theorem anyItable_grows (symbols : List String) {b : Bool} (h : anyItable interfaces e = .ok b e') :
    Grows p symbols e e' ∧ b = interfaces.any e'.hasSlots ∧
      (b = false → ∀ i ∈ interfaces, ∃ t, e'.tables.itables[i.typeId]? = some t) := by
  induction interfaces generalizing e with
  | nil =>
      cases h
      exact ⟨.refl _ _ _, rfl, by simp⟩
  | cons i interfaces ih =>
      obtain ⟨t, e₁, ht, hlater⟩ := anyItable_cons_eq_ok h
      obtain ⟨hgrows, hcached⟩ := itable_grows (p := p) symbols ht
      rcases hlater with ⟨hempty, rfl, rfl⟩ | ⟨hempty, hrest⟩
      · exact ⟨hgrows, by simp [hasSlots, hcached, hempty], by simp⟩
      · obtain ⟨hgrows', hany, hbuilt⟩ := ih hrest
        have hcached' := hgrows'.itables _ _ hcached
        refine ⟨hgrows.trans hgrows', ?_, fun hb j hj => ?_⟩
        · rw [hany, List.any_cons, hasSlots, hcached']
          simp [hempty]
        · rcases List.mem_cons.1 hj with rfl | hj
          · exact ⟨t, hcached'⟩
          · exact hbuilt hb j hj

theorem anyItable_cons_eq_error (h : anyItable (i :: interfaces) e = .error err e') :
    itable i e = .error err e' ∨ ∃ t e₁, itable i e = .ok t e₁ ∧ anyItable interfaces e₁ = .error err e' := by
  refine (bind_eq_error.1 h).imp_right ?_
  rintro ⟨t, e₁, ht, h₁⟩
  refine ⟨t, e₁, ht, ?_⟩
  cases hempty : t.isEmpty with
  | false =>
      simp only [hempty, Bool.not_false, if_true] at h₁
      cases h₁
  | true => simpa only [hempty, Bool.not_true, Bool.false_eq_true, if_false] using h₁

theorem anyItable_error (h : anyItable interfaces e = .error err e') :
    ∃ i ∈ interfaces, i.isInterface = false ∧ err = .internal (.itableOfClass i.name) := by
  induction interfaces generalizing e with
  | nil => cases h
  | cons i interfaces ih =>
      rcases anyItable_cons_eq_error h with ht | ⟨t, e₁, ht, hrest⟩
      · exact ⟨i, List.mem_cons_self, itable_error ht⟩
      · obtain ⟨j, hj, hrefused⟩ := ih hrest
        exact ⟨j, List.mem_cons_of_mem _ hj, hrefused⟩

theorem anyItable_error_grows (symbols : List String) (h : anyItable interfaces e = .error err e') :
    Grows p symbols e e' := by
  induction interfaces generalizing e with
  | nil => cases h
  | cons i interfaces ih =>
      rcases anyItable_cons_eq_error h with ht | ⟨t, e₁, ht, hrest⟩
      · exact itable_error_grows symbols ht
      · exact (itable_grows symbols ht).1.trans (ih hrest)

/-- Of some interfaces, those that have live methods have the class's own itable. -/
def HoldsOwn (c : ClassDef) (interfaces : List ClassDef) (e : Emission) : Prop :=
  ∀ i ∈ interfaces, ∃ t, e.tables.itables[i.typeId]? = some t ∧
    (t.isEmpty = false → e.module.data[c.itableSymbol i]? =
      some (tableData (c.itableSymbol i) (t.slots.map (SlotTarget.ofSelector c))))

theorem HoldsOwn.keeps (h : HoldsOwn c interfaces e) (hkeeps : Keeps e e') : HoldsOwn c interfaces e' := by
  intro i hi
  obtain ⟨t, ht, hdata⟩ := h i hi
  exact ⟨t, hkeeps.itables _ _ ht, fun hempty => hkeeps.data _ _ (hdata hempty)⟩

theorem count_grows {change : DispatchStatistics → DispatchStatistics} (symbols : List String)
    (h : count change e = .ok ⟨⟩ e') : Grows p symbols e e' := by
  cases h
  exact { Grows.refl p symbols e with }

theorem emitItablesOf_grows {emitted : List ClassDef} (h : emitItablesOf c interfaces e = .ok emitted e') :
    Grows p (interfaces.map c.itableSymbol) e e' ∧ HoldsOwn c interfaces e' ∧
      emitted = interfaces.filter e'.hasSlots := by
  induction interfaces generalizing e emitted with
  | nil =>
      cases h
      exact ⟨.refl _ _ _, by simp [HoldsOwn], rfl⟩
  | cons i interfaces ih =>
      obtain ⟨t, e₁, ht, hlater⟩ := emitItablesOf_cons_eq_ok h
      obtain ⟨hgrows, hcached⟩ := itable_grows (p := p) ((i :: interfaces).map c.itableSymbol) ht
      rcases hlater with ⟨hempty, hrest⟩ | ⟨hempty, e₂, e₃, e₄, change, rest, hreport, hdefine, hcount, hrest, rfl⟩
      · obtain ⟨hgrows', hholds, rfl⟩ := ih hrest
        have hcached' := hgrows'.itables _ _ hcached
        refine ⟨hgrows.trans (hgrows'.mono (List.subset_cons_self _ _)), ?_, ?_⟩
        · intro j hj
          rcases List.mem_cons.1 hj with rfl | hj
          · exact ⟨t, hcached', by simp [hempty]⟩
          · exact hholds j hj
        · rw [List.filter_cons, if_neg (by simp [hasSlots, hcached', hempty])]
      · obtain ⟨hdefined, hown⟩ := defineTable_grows (p := p) hdefine
        obtain ⟨hgrows', hholds, rfl⟩ := ih hrest
        have hafter := (count_grows _ hcount).trans (hgrows'.mono (List.subset_cons_self (c.itableSymbol i) _))
        have hdefined' := ((reportMissing_grows _ hreport).trans hdefined).mono
          (List.cons_subset_cons (c.itableSymbol i) (List.nil_subset (interfaces.map c.itableSymbol)))
        have hcached' := (hdefined'.trans hafter).itables _ _ hcached
        refine ⟨hgrows.trans (hdefined'.trans hafter), ?_, ?_⟩
        · intro j hj
          rcases List.mem_cons.1 hj with rfl | hj
          · exact ⟨t, hcached', fun _ => hafter.data _ _ hown⟩
          · exact hholds j hj
        · rw [List.filter_cons, if_pos (by simp [hasSlots, hcached', hempty])]

theorem emitItablesOf_cons_eq_error (h : emitItablesOf c (i :: interfaces) e = .error err e') :
    itable i e = .error err e' ∨ ∃ t e₁, itable i e = .ok t e₁ ∧
      (emitItablesOf c interfaces e₁ = .error err e' ∨ ∃ e₂,
        reportMissing c "itable" (resolvedSlots c t.slots) e₁ = .ok ⟨⟩ e₂ ∧
          (defineTable (c.itableSymbol i) (t.slots.map (.ofSelector c)) e₂ = .error err e' ∨ ∃ e₃ e₄ change,
            defineTable (c.itableSymbol i) (t.slots.map (.ofSelector c)) e₂ = .ok ⟨⟩ e₃ ∧
              count change e₃ = .ok ⟨⟩ e₄ ∧ emitItablesOf c interfaces e₄ = .error err e')) := by
  refine (bind_eq_error.1 h).imp_right ?_
  rintro ⟨t, e₁, ht, h₁⟩
  refine ⟨t, e₁, ht, ?_⟩
  cases hempty : t.isEmpty with
  | true =>
      simp only [hempty, if_true] at h₁
      exact .inl h₁
  | false =>
      simp only [hempty, Bool.false_eq_true, if_false] at h₁
      rcases bind_eq_error.1 h₁ with hreport | ⟨_, e₂, hreport, h₂⟩
      · exact (reportMissing_error hreport).elim
      refine .inr ⟨e₂, hreport, ?_⟩
      rcases bind_eq_error.1 h₂ with hdefine | ⟨_, e₃, hdefine, h₃⟩
      · exact .inl hdefine
      rcases bind_eq_error.1 h₃ with hcount | ⟨_, e₄, hcount, h₄⟩
      · cases hcount
      rcases bind_eq_error.1 h₄ with hrest | ⟨_, _, -, hdone⟩
      · exact .inr ⟨e₃, e₄, _, hdefine, hcount, hrest⟩
      · cases hdone

theorem emitItablesOf_error (hnodup : (interfaces.map c.itableSymbol).Nodup)
    (hfree : ∀ i ∈ interfaces, c.itableSymbol i ∉ e.module.data)
    (h : emitItablesOf c interfaces e = .error err e') :
    ∃ i ∈ interfaces, i.isInterface = false ∧ err = .internal (.itableOfClass i.name) := by
  induction interfaces generalizing e with
  | nil => cases h
  | cons i interfaces ih =>
      obtain ⟨hnot, hnodup'⟩ := List.nodup_cons.1 hnodup
      rcases emitItablesOf_cons_eq_error h with ht | ⟨t, e₁, ht, hstop⟩
      · exact ⟨i, List.mem_cons_self, itable_error ht⟩
      have hmodule := itable_module ht
      have hrest : ∀ j ∈ interfaces, c.itableSymbol j ≠ c.itableSymbol i := fun j hj heq =>
        hnot (List.mem_map.2 ⟨j, hj, heq⟩)
      have hfree' : ∀ j ∈ i :: interfaces, c.itableSymbol j ∉ e₁.module.data := hmodule ▸ hfree
      suffices hlater : ∃ j ∈ interfaces, j.isInterface = false ∧ err = .internal (.itableOfClass j.name) by
        obtain ⟨j, hj, hrefused⟩ := hlater
        exact ⟨j, List.mem_cons_of_mem _ hj, hrefused⟩
      obtain hstop | ⟨e₂, hreport, hdefine | ⟨e₃, e₄, change, hdefine, hcount, hstop⟩⟩ := hstop
      · exact ih hnodup' (fun j hj => hfree' j (List.mem_cons_of_mem _ hj)) hstop
      · have htaken := (defineTable_error (p := {}) [] hdefine).2.1
        exact absurd (reportMissing_module hreport ▸ htaken) (hfree' i List.mem_cons_self)
      · cases hcount
        refine ih hnodup' (fun j hj hmem => ?_) hstop
        rcases (defineTable_grows (p := {}) hdefine).1.added _ hmem with hmem | hmem
        · exact hfree' j (List.mem_cons_of_mem _ hj) (reportMissing_module hreport ▸ hmem)
        · exact hrest j hj (List.mem_singleton.1 hmem)

/-- Wherever the itables of a class stop, those before are defined and nothing else is. They stop at a class among the
interfaces, or at an itable whose symbol is taken. -/
theorem emitItablesOf_stops (h : emitItablesOf c interfaces e = .error err e') :
    Grows p (interfaces.map c.itableSymbol) e e' ∧
      ((∃ i ∈ interfaces, i.isInterface = false ∧ err = .internal (.itableOfClass i.name)) ∨
        ∃ name ∈ interfaces.map c.itableSymbol, name ∈ e'.module.data ∧ err = .internal (.duplicateData name)) := by
  induction interfaces generalizing e with
  | nil => cases h
  | cons i interfaces ih =>
      have hlater : ∀ {e₁ : Emission}, Grows p ((i :: interfaces).map c.itableSymbol) e e₁ →
          emitItablesOf c interfaces e₁ = .error err e' →
          Grows p ((i :: interfaces).map c.itableSymbol) e e' ∧
            ((∃ j ∈ i :: interfaces, j.isInterface = false ∧ err = .internal (.itableOfClass j.name)) ∨
              ∃ name ∈ (i :: interfaces).map c.itableSymbol, name ∈ e'.module.data ∧
                err = .internal (.duplicateData name)) := by
        intro e₁ hbefore hrest
        obtain ⟨hgrows, hreason⟩ := ih hrest
        refine ⟨hbefore.trans (hgrows.mono (List.subset_cons_self _ _)), hreason.imp ?_ ?_⟩
        · rintro ⟨j, hj, hrefused⟩
          exact ⟨j, List.mem_cons_of_mem _ hj, hrefused⟩
        · rintro ⟨name, hname, htaken⟩
          exact ⟨name, List.mem_cons_of_mem _ hname, htaken⟩
      rcases emitItablesOf_cons_eq_error h with ht | ⟨t, e₁, ht, hstop⟩
      · exact ⟨itable_error_grows _ ht, .inl ⟨i, List.mem_cons_self, itable_error ht⟩⟩
      obtain ⟨hgrows, -⟩ := itable_grows (p := p) ((i :: interfaces).map c.itableSymbol) ht
      obtain hstop | ⟨e₂, hreport, hdefine | ⟨e₃, e₄, change, hdefine, hcount, hstop⟩⟩ := hstop
      · exact hlater hgrows hstop
      · obtain ⟨hkept, htaken, rfl⟩ := defineTable_error (p := p) ((i :: interfaces).map c.itableSymbol) hdefine
        have hreported := hgrows.trans (reportMissing_grows _ hreport)
        exact ⟨hreported.trans hkept, .inr ⟨_, List.mem_cons_self, hkept.mem htaken, rfl⟩⟩
      · have hdefined := (defineTable_grows (p := p) hdefine).1.mono
          (List.cons_subset_cons (c.itableSymbol i) (List.nil_subset (interfaces.map c.itableSymbol)))
        have hreported := hgrows.trans (reportMissing_grows _ hreport)
        exact hlater ((hreported.trans hdefined).trans (count_grows _ hcount)) hstop

def HoldsDictionary (c : ClassDef) (e : Emission) : Prop :=
  HoldsOwn c c.allInterfaces e ∧ ∃ idType, IrType.ofBytes? e.tables.typeIdSize = some idType ∧
    e.module.data[c.dictionarySymbol]? = some (dictionaryData idType c (c.allInterfaces.filter e.hasSlots))

def Held (e : Emission) : TableRequest → Prop
  | .vtable c => e.module.data[(ClassTable.vtable c).symbol]? = some (vtableData e.tables.live c)
  | .itables c => HoldsOwn c c.allInterfaces e ∧ (c.allInterfaces.any e.hasSlots = true →
      ∃ idType, IrType.ofBytes? e.tables.typeIdSize = some idType ∧ e.module.data[c.dictionarySymbol]? =
        some (dictionaryData idType c (c.allInterfaces.filter e.hasSlots)))

section

variable (hkeeps : Keeps e e')

include hkeeps

theorem HoldsOwn.hasSlots_eq (h : HoldsOwn c interfaces e) : ∀ i ∈ interfaces, e'.hasSlots i = e.hasSlots i := by
  intro i hi
  obtain ⟨t, ht, -⟩ := h i hi
  exact hkeeps.hasSlots_eq ht

theorem HoldsOwn.any_hasSlots_eq (h : HoldsOwn c interfaces e) :
    interfaces.any e'.hasSlots = interfaces.any e.hasSlots := by
  rw [Bool.eq_iff_iff, List.any_eq_true, List.any_eq_true]
  exact exists_congr fun i => and_congr_right fun hi => by rw [h.hasSlots_eq hkeeps i hi]

theorem HoldsDictionary.keeps (h : HoldsDictionary c e) : HoldsDictionary c e' := by
  obtain ⟨hown, idType, hwidth, hdefined⟩ := h
  refine ⟨hown.keeps hkeeps, idType, hkeeps.size ▸ hwidth, ?_⟩
  rw [List.filter_congr (hown.hasSlots_eq hkeeps)]
  exact hkeeps.data _ _ hdefined

theorem Held.keeps {r : TableRequest} (h : e.Held r) : e'.Held r := by
  cases r with
  | vtable c =>
      rw [Held, hkeeps.live]
      exact hkeeps.data _ _ h
  | itables c =>
      obtain ⟨hown, hdictionary⟩ := h
      refine ⟨hown.keeps hkeeps, fun hany => ?_⟩
      rw [hown.any_hasSlots_eq hkeeps] at hany
      exact (HoldsDictionary.keeps hkeeps ⟨hown, hdictionary hany⟩).2

end

def marked (e : Emission) (symbol : String) : Emission :=
  { e with tables.emitted := symbol :: e.tables.emitted }

theorem marked_size (e : Emission) (symbol : String) :
    (e.marked symbol).tables.typeIdSize = e.tables.typeIdSize := rfl

theorem markEmitted_run (symbol : String) (e : Emission) :
    (symbol ∈ e.tables.emitted ∧ markEmitted symbol e = .ok false e) ∨
      (symbol ∉ e.tables.emitted ∧ markEmitted symbol e = .ok true (e.marked symbol)) := by
  by_cases h : symbol ∈ e.tables.emitted
  · exact .inl ⟨h, markEmitted_of_mem h⟩
  · exact .inr ⟨h, markEmitted_of_notMem h⟩

theorem Held.marked {r : TableRequest} (h : e.Held r) (symbol : String) : (e.marked symbol).Held r := by
  cases r <;> exact h

/-- Why tables are not emitted: an interface list names a class, or there is no type for type ids. -/
def Refused (p : Program) (size : Int) (err : Error) : Prop :=
  (∃ c ∈ p.classes, c.isConcrete = true ∧ ∃ i ∈ c.allInterfaces, i.isInterface = false ∧
    err = .internal (.itableOfClass i.name)) ∨
  (IrType.ofBytes? size = none ∧ err = .internal (.typeIdSize size))

theorem vtable_grows (hp : p.Accepted) (he : Cached p e) (hc : c ∈ p.classes) (hi : c.isInterface = false) :
    ∃ e', vtable c e = .ok (.ofClass e.tables.live c) e' ∧ Grows p [] e e' := by
  obtain ⟨cache, hv, hcached⟩ := vtable_eq_ok hp hc hi he
  exact ⟨_, hv, { Grows.refl p [] e with cached := fun _ => hcached }⟩

def meet : TableRequest → EmitM Unit
  | .vtable c => emitVtable c
  | .itables c => emitItables c

/-- How a request for a concrete class is met: there is nothing to emit, or its tables were emitted before, or
they are defined now. -/
inductive Met (p : Program) (r : TableRequest) (e e' : Emission) : Prop
  | empty (hg : Grows p [] e e') (hheld : e'.Held r)
  | again (hg : Grows p [] e e') (hmark : r.mark ∈ e'.tables.emitted)
  | first (e₁ : Emission) (hg : Grows p [] e e₁) (hnew : r.mark ∉ e₁.tables.emitted)
      (hdefined : Grows p r.symbols (e₁.marked r.mark) e') (hheld : e'.Held r)

namespace Met

variable {r s : TableRequest}

theorem live (h : Met p r e e') : e'.tables.live = e.tables.live := by
  cases h with
  | empty hg | again hg => exact hg.live
  | first e₁ hg _ hdefined => exact hdefined.live.trans hg.live

theorem size (h : Met p r e e') : e'.tables.typeIdSize = e.tables.typeIdSize := by
  cases h with
  | empty hg | again hg => exact hg.size
  | first e₁ hg _ hdefined => exact hdefined.size.trans hg.size

theorem cached (h : Met p r e e') (he : Cached p e) : Cached p e' := by
  cases h with
  | empty hg | again hg => exact hg.cached he
  | first e₁ hg _ hdefined => exact hdefined.cached (hg.cached he)

theorem mem_emitted (h : Met p r e e') {name : String} (hname : name ∈ e'.tables.emitted) :
    name = r.mark ∨ name ∈ e.tables.emitted := by
  cases h with
  | empty hg | again hg => exact .inr (hg.emitted ▸ hname)
  | first e₁ hg _ hdefined =>
      rw [hdefined.emitted, ← hg.emitted] at *
      exact List.mem_cons.1 hname

theorem keeps (h : Met p r e e') (hs : e.Held s) : e'.Held s := by
  cases h with
  | empty hg | again hg => exact hs.keeps hg.toKeeps
  | first e₁ hg _ hdefined => exact ((hs.keeps hg.toKeeps).marked r.mark).keeps hdefined.toKeeps

theorem held (h : Met p r e e') (hmark : r.mark ∉ e.tables.emitted) : e'.Held r := by
  cases h with
  | empty _ hheld | first _ _ _ _ hheld => exact hheld
  | again hg hmarked => exact absurd (hg.emitted ▸ hmarked) hmark

end Met

theorem meet_of_not_concrete {r : TableRequest} (hk : r.owner.isConcrete = false) (e : Emission) :
    meet r e = .ok ⟨⟩ e := by
  cases r with
  | vtable c =>
      rw [TableRequest.owner] at hk
      simp [meet, emitVtable, hk]
  | itables c =>
      rw [TableRequest.owner] at hk
      simp [meet, emitItables, hk]

theorem emitVtable_met (hp : p.Accepted) (he : Cached p e) (hc : c ∈ p.classes) (hk : c.isConcrete = true)
    (h : emitVtable c e = .ok ⟨⟩ e') : Met p (.vtable c) e e' := by
  obtain ⟨e₁, hv, hbuild⟩ := vtable_grows hp he hc (ClassDef.isInterface_of_isConcrete hk)
  simp only [emitVtable, hk, Bool.not_true, Bool.false_eq_true, if_false] at h
  rw [bind_of_ok hv] at h
  rcases markEmitted_run (DispatchTable.ofClass e.tables.live c).symbol e₁ with ⟨hmark, hrun⟩ | ⟨hmark, hrun⟩
  · rw [bind_of_ok hrun] at h
    cases h
    exact .again hbuild hmark
  · rw [bind_of_ok hrun, if_neg (by simp)] at h
    obtain ⟨_, e₂, hreport, h₂⟩ := bind_eq_ok.1 h
    obtain ⟨_, e₃, hdefine, hcount⟩ := bind_eq_ok.1 h₂
    obtain ⟨hdefined, hdata⟩ := defineTable_grows (p := p) hdefine
    have hreported := reportMissing_grows (p := p) (TableRequest.vtable c).symbols hreport
    have hcounted := count_grows (p := p) (TableRequest.vtable c).symbols hcount
    refine .first e₁ hbuild hmark ((hreported.trans hdefined).trans hcounted) (Held.keeps hcounted.toKeeps ?_)
    rw [Held, hdefined.live, hreported.live]
    change _ = some (vtableData e₁.tables.live c)
    rw [hbuild.live]
    exact hdata

def defineItables (c : ClassDef) : EmitM Unit := do
  let idSize := (← get).tables.typeIdSize
  match IrType.ofBytes? idSize with
  | none => throw (.internal (.typeIdSize idSize))
  | some idType =>
    let interfaces ← emitItablesOf c c.allInterfaces
    let d := dictionaryData idType c interfaces
    updateModule (·.define d)
    count fun s => { s with dictionaries := s.dictionaries + 1 }

/-- An emission of itables is over when it was asked whether there are any, or finds the mark, or goes on to define
them. -/
theorem emitItables_cases (hk : c.isConcrete = true) (e : Emission) :
    (∃ err e₁, hasItables c e = .error err e₁ ∧ emitItables c e = .error err e₁) ∨
      (∃ e₁, hasItables c e = .ok false e₁ ∧ emitItables c e = .ok ⟨⟩ e₁) ∨
      ∃ e₁, hasItables c e = .ok true e₁ ∧
        ((c.dictionarySymbol ∈ e₁.tables.emitted ∧ emitItables c e = .ok ⟨⟩ e₁) ∨
          (c.dictionarySymbol ∉ e₁.tables.emitted ∧
            emitItables c e = defineItables c (e₁.marked c.dictionarySymbol))) := by
  simp only [emitItables, hk, Bool.not_true, Bool.false_eq_true, if_false]
  cases hhas : hasItables c e with
  | error err e₁ => exact .inl ⟨err, e₁, rfl, bind_of_error hhas _⟩
  | ok b e₁ =>
      rw [bind_of_ok hhas]
      cases b with
      | false => exact .inr (.inl ⟨e₁, rfl, rfl⟩)
      | true =>
          refine .inr (.inr ⟨e₁, rfl, ?_⟩)
          rw [if_neg (by simp)]
          refine (markEmitted_run c.dictionarySymbol e₁).imp ?_ ?_
          · rintro ⟨hmark, hrun⟩
            rw [bind_of_ok hrun]
            exact ⟨hmark, rfl⟩
          · rintro ⟨hmark, hrun⟩
            rw [bind_of_ok hrun, if_neg (by simp)]
            refine ⟨hmark, ?_⟩
            rw [defineItables, bind_of_ok (get_apply _), bind_of_ok (get_apply _)]
            cases IrType.ofBytes? (e₁.marked c.dictionarySymbol).tables.typeIdSize with
            | none => rfl
            | some idType => simp [Module.addData, dictionaryData]

theorem defineItables_grows (h : defineItables c e = .ok ⟨⟩ e') :
    Grows p c.dispatchSymbols e e' ∧ HoldsDictionary c e' := by
  rw [defineItables, bind_of_ok (get_apply _)] at h
  cases hwidth : IrType.ofBytes? e.tables.typeIdSize with
  | none =>
      rw [hwidth] at h
      cases h
  | some idType =>
      rw [hwidth] at h
      obtain ⟨interfaces, e₁, hemit, h₁⟩ := bind_eq_ok.1 h
      obtain ⟨_, e₂, hdefine, hcount⟩ := bind_eq_ok.1 h₁
      obtain ⟨hemitted, hown, rfl⟩ := emitItablesOf_grows hemit
      obtain ⟨m, hm, rfl⟩ := updateModule_eq_ok hdefine
      obtain ⟨hdefined, hdata⟩ := Grows.of_define hm
      have hcounted := count_grows (p := p) c.dispatchSymbols hcount
      have hlater : Grows p c.dispatchSymbols e₁ e' :=
        (hdefined.mono (List.cons_subset_cons c.dictionarySymbol (List.nil_subset _))).trans hcounted
      have hfirst := hemitted.mono (List.subset_cons_self c.dictionarySymbol _)
      refine ⟨hfirst.trans hlater, hown.keeps hlater.toKeeps, idType, (hfirst.trans hlater).size ▸ hwidth, ?_⟩
      rw [List.filter_congr (hown.hasSlots_eq hlater.toKeeps)]
      exact hcounted.data _ _ hdata

def Unwritable (c : ClassDef) (size : Int) (m : Module) (err : Error) : Prop :=
  (∃ i ∈ c.allInterfaces, i.isInterface = false ∧ err = .internal (.itableOfClass i.name)) ∨
    (IrType.ofBytes? size = none ∧ err = .internal (.typeIdSize size)) ∨
    ∃ name ∈ c.dispatchSymbols, name ∈ m.data ∧ err = .internal (.duplicateData name)

theorem defineItables_stops (h : defineItables c e = .error err e') :
    Grows p (c.allInterfaces.map c.itableSymbol) e e' ∧ Unwritable c e.tables.typeIdSize e'.module err := by
  rw [defineItables, bind_of_ok (get_apply _)] at h
  cases hwidth : IrType.ofBytes? e.tables.typeIdSize with
  | none =>
      rw [hwidth] at h
      cases h
      exact ⟨.refl _ _ _, .inr (.inl ⟨hwidth, rfl⟩)⟩
  | some idType =>
      rw [hwidth] at h
      rcases bind_eq_error.1 h with hemit | ⟨interfaces, e₁, hemit, h₁⟩
      · obtain ⟨hgrows, hreason⟩ := emitItablesOf_stops hemit
        refine ⟨hgrows, hreason.imp_right fun htaken => .inr ?_⟩
        obtain ⟨name, hname, htaken⟩ := htaken
        exact ⟨name, List.mem_cons_of_mem _ hname, htaken⟩
      rcases bind_eq_error.1 h₁ with hdefine | ⟨_, _, -, hcount⟩
      · obtain ⟨hdefine, rfl⟩ := updateModule_error hdefine
        exact ⟨(emitItablesOf_grows hemit).1,
          .inr (.inr ⟨c.dictionarySymbol, List.mem_cons_self, Module.define_eq_error hdefine⟩)⟩
      · cases hcount

theorem emitItables_met (hk : c.isConcrete = true) (h : emitItables c e = .ok ⟨⟩ e') :
    Met p (.itables c) e e' := by
  rcases emitItables_cases hk e with ⟨_, _, -, hrun⟩ | ⟨e₁, hhas, hrun⟩ | ⟨e₁, hhas, ⟨hmark, hrun⟩ | ⟨hmark, hrun⟩⟩
  · cases hrun.symm.trans h
  · cases hrun.symm.trans h
    obtain ⟨hbuild, hany, hbuilt⟩ := anyItable_grows (p := p) [] hhas
    refine .empty hbuild ⟨fun i hi => ?_, fun hsome => by simp [hsome] at hany⟩
    obtain ⟨t, ht⟩ := hbuilt rfl i hi
    have hempty := List.any_eq_false.1 hany.symm i hi
    exact ⟨t, ht, fun hne => by simp [hasSlots, ht, hne] at hempty⟩
  · cases hrun.symm.trans h
    exact .again (anyItable_grows (p := p) [] hhas).1 hmark
  · obtain ⟨hdefined, hown, hdictionary⟩ := defineItables_grows (p := p) (hrun.symm.trans h)
    exact .first e₁ (anyItable_grows (p := p) [] hhas).1 hmark hdefined ⟨hown, fun _ => hdictionary⟩

theorem meet_met (hp : p.Accepted) (he : Cached p e) {r : TableRequest} (hr : r.Of p) (h : meet r e = .ok ⟨⟩ e') :
    Met p r e e' := by
  cases r with
  | vtable c => exact emitVtable_met hp he hr.1 hr.2 h
  | itables c => exact emitItables_met hr.2 h

theorem emitVtable_error (hp : p.Accepted) (he : Cached p e) (hc : c ∈ p.classes) (hk : c.isConcrete = true)
    (hfree : (TableRequest.vtable c).mark ∉ e.tables.emitted → (TableRequest.vtable c).mark ∉ e.module.data)
    (h : emitVtable c e = .error err e') : False := by
  obtain ⟨e₁, hv, hbuild⟩ := vtable_grows hp he hc (ClassDef.isInterface_of_isConcrete hk)
  simp only [emitVtable, hk, Bool.not_true, Bool.false_eq_true, if_false] at h
  rw [bind_of_ok hv] at h
  rcases markEmitted_run (DispatchTable.ofClass e.tables.live c).symbol e₁ with ⟨-, hrun⟩ | ⟨hmark, hrun⟩
  · rw [bind_of_ok hrun] at h
    cases h
  · rw [bind_of_ok hrun, if_neg (by simp)] at h
    rcases bind_eq_error.1 h with hreport | ⟨_, e₂, hreport, h₂⟩
    · exact reportMissing_error hreport
    rcases bind_eq_error.1 h₂ with hdefine | ⟨_, _, -, hcount⟩
    · have hmem : (TableRequest.vtable c).mark ∈ e₁.module.data :=
        reportMissing_module hreport ▸ (defineTable_error (p := p) [] hdefine).2.1
      exact hfree (hbuild.emitted ▸ hmark) ((hbuild.added _ hmem).resolve_right List.not_mem_nil)
    · cases hcount

theorem emitItables_error (hc : c ∈ p.classes) (hk : c.isConcrete = true) (hnodup : c.dispatchSymbols.Nodup)
    (hfree : c.dictionarySymbol ∉ e.tables.emitted → ∀ name ∈ c.dispatchSymbols, name ∉ e.module.data)
    (h : emitItables c e = .error err e') : Refused p e.tables.typeIdSize err := by
  rcases emitItables_cases hk e with ⟨err', e₁, hhas, hrun⟩ | ⟨e₁, -, hrun⟩ | ⟨e₁, hhas, ⟨-, hrun⟩ | ⟨hmark, hrun⟩⟩
  · cases hrun.symm.trans h
    exact .inl ⟨c, hc, hk, anyItable_error hhas⟩
  · cases hrun.symm.trans h
  · cases hrun.symm.trans h
  have hbuild := (anyItable_grows (p := p) [] hhas).1
  have hnew : ∀ name ∈ c.dispatchSymbols, name ∉ e₁.module.data := fun name hname hmem =>
    hfree (hbuild.emitted ▸ hmark) name hname ((hbuild.added _ hmem).resolve_right List.not_mem_nil)
  obtain ⟨hnot, hnodup⟩ := List.nodup_cons.1 hnodup
  rw [hrun, defineItables, bind_of_ok (get_apply _), marked_size, hbuild.size] at h
  cases hwidth : IrType.ofBytes? e.tables.typeIdSize with
  | none =>
      rw [hwidth] at h
      cases h
      exact .inr ⟨hwidth, rfl⟩
  | some idType =>
      rw [hwidth] at h
      rcases bind_eq_error.1 h with hemit | ⟨interfaces, e₂, hemit, h₂⟩
      · exact .inl ⟨c, hc, hk, emitItablesOf_error (e := e₁.marked c.dictionarySymbol) hnodup
          (fun i hi => hnew _ (ClassDef.itableSymbol_mem hi)) hemit⟩
      rcases bind_eq_error.1 h₂ with hdefine | ⟨_, _, -, hcount⟩
      · have htaken := (Module.define_eq_error (updateModule_error hdefine).1).1
        rcases (emitItablesOf_grows (p := p) hemit).1.added _ htaken with hmem | hmem
        · exact absurd hmem (hnew _ List.mem_cons_self)
        · exact absurd hmem hnot
      · cases hcount

theorem meet_error (hp : p.Accepted) (he : Cached p e) {r : TableRequest} (hr : r.Of p) (hnodup : r.symbols.Nodup)
    (hfree : r.mark ∉ e.tables.emitted → ∀ name ∈ r.symbols, name ∉ e.module.data)
    (h : meet r e = .error err e') : Refused p e.tables.typeIdSize err := by
  cases r with
  | vtable c => exact (emitVtable_error hp he hr.1 hr.2 (fun hmark => hfree hmark _ List.mem_cons_self) h).elim
  | itables c => exact emitItables_error hr.1 hr.2 hnodup hfree h

end Emission

end NativeBackend
