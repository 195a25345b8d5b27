import NativeBackend.Dispatch.Emission
import NativeBackend.Proofs.Class.Program
import NativeBackend.Proofs.Dispatch.Slots
import NativeBackend.Proofs.Maps
import NativeBackend.Proofs.Steps

namespace NativeBackend

theorem Descriptor.exists_target (d : Descriptor) : ∃ t, d.valueType.target = .ok t := by
  cases d <;> exact ⟨_, rfl⟩

theorem exists_mapM_target {types : List Ty} (h : ∀ t ∈ types, ∃ r, t.target = .ok r) :
    ∃ rs, types.mapM Ty.target = .ok rs := by
  induction types with
  | nil => exact ⟨[], rfl⟩
  | cons t types ih =>
      obtain ⟨r, hr⟩ := h t List.mem_cons_self
      obtain ⟨rs, hrs⟩ := ih fun u hu => h u (List.mem_cons_of_mem _ hu)
      exact ⟨r :: rs, by simp [List.mapM_cons, hr, hrs, bind, Except.bind, pure, Except.pure]⟩

theorem Method.exists_target (m : Method) : ∃ s, m.functionType.target = .ok s := by
  have hparams : ∀ t ∈ m.functionType.params, ∃ r, t.target = .ok r := by
    intro t ht
    simp only [Method.functionType, List.mem_append, List.mem_map] at ht
    rcases ht with ht | ⟨d, -, rfl⟩
    · split at ht
      · simp at ht
      · rw [List.mem_singleton.1 ht]
        exact ⟨_, rfl⟩
    · exact d.exists_target
  obtain ⟨params, hp⟩ := exists_mapM_target hparams
  obtain ⟨returns, hr⟩ := m.descriptor.returns.exists_target
  refine ⟨⟨returns, params⟩, ?_⟩
  simp only [FunctionType.target, hp, bind, Except.bind]
  rw [show m.functionType.returns.target = .ok returns from hr]
  rfl

theorem Module.data_declareFunction (m : Module) (name : String) (s : Signature) :
    (m.declareFunction name s).data = m.data := by
  rw [declareFunction]
  split <;> rfl

theorem SlotTarget.declare_eq_ok (m : Module) (t : SlotTarget) :
    ∃ m', t.declare m = .ok m' ∧ m'.data = m.data := by
  cases t with
  | method k =>
      obtain ⟨s, hs⟩ := k.exists_target
      exact ⟨_, by rw [declare, hs]; rfl, m.data_declareFunction _ _⟩
  | stub r => exact ⟨_, rfl, m.data_declareFunction _ _⟩

namespace Emission

open Steps

theorem updateModule_of_ok {change : Module → Except Error Module} {e : Emission} {m : Module}
    (h : change e.module = .ok m) : updateModule change e = .ok () { e with module := m } := by
  rw [updateModule, bind_of_ok (get_apply e)]
  simp only [h]
  rfl

theorem declareTargets_eq_ok (targets : List SlotTarget) (e : Emission) :
    ∃ m, declareTargets targets e = .ok () { e with module := m } ∧ m.data = e.module.data := by
  induction targets generalizing e with
  | nil => exact ⟨e.module, rfl, rfl⟩
  | cons t targets ih =>
      obtain ⟨m, hm, hdata⟩ := t.declare_eq_ok e.module
      obtain ⟨m', hm', hdata'⟩ := ih { e with module := m }
      refine ⟨m', ?_, hdata'.trans hdata⟩
      rw [declareTargets, bind_of_ok (updateModule_of_ok hm), hm']

theorem reportMissing_eq_ok (c : ClassDef) (table : String) (methods : List Method) (e : Emission) :
    ∃ d, reportMissing c table methods e = .ok () { e with diagnostics := d } := by
  induction methods generalizing e with
  | nil => exact ⟨e.diagnostics, rfl⟩
  | cons m methods ih =>
      rw [reportMissing]
      split
      · obtain ⟨d, hd⟩ := ih { e with diagnostics := e.diagnostics.report c.name none _ }
        exact ⟨d, by rw [report, bind_of_ok (modify_apply _ e)]; exact hd⟩
      · obtain ⟨d, hd⟩ := ih e
        exact ⟨d, hd⟩

def tableData (symbol : String) (targets : List SlotTarget) : DataDefinition :=
  ⟨symbol, (SlotTarget.tableConstant targets).1, (SlotTarget.tableConstant targets).2, .internal, true⟩

theorem addData_eq_ok {m : Module} {name : String} (h : m.data[name]? = none) (type : IrType)
    (value : Constant) (linkage : Linkage) :
    ∃ m', m.addData name type value linkage = .ok m' ∧
      m'.data = m.data.insert name ⟨name, type, value, linkage, true⟩ := by
  have hnot : m.data.contains name = false := by
    rw [Std.TreeMap.contains_eq_isSome_getElem?, h]
    rfl
  exact ⟨_, by rw [Module.addData, Module.define, hnot]; rfl, rfl⟩

theorem defineTable_eq_ok {symbol : String} {e : Emission} (h : e.module.data[symbol]? = none)
    (targets : List SlotTarget) :
    ∃ m, defineTable symbol targets e = .ok () { e with module := m } ∧
      m.data = e.module.data.insert symbol (tableData symbol targets) := by
  obtain ⟨m, hm, hdata⟩ := declareTargets_eq_ok targets e
  obtain ⟨m', hm', hdata'⟩ := addData_eq_ok (m := m) (by rw [hdata]; exact h)
    (SlotTarget.tableConstant targets).1 (SlotTarget.tableConstant targets).2 .internal
  refine ⟨m', ?_, by rw [hdata', hdata]; rfl⟩
  rw [defineTable, bind_of_ok hm]
  exact updateModule_of_ok hm'

def vtableData (live : Reachability) (c : ClassDef) : DataDefinition :=
  tableData (DispatchTable.ofClass live c).symbol
    ((DispatchTable.ofClass live c).slots.map SlotTarget.ofMethod)

def Cached (p : Program) (e : Emission) : Prop :=
  ∀ id t, e.tables.vtables[id]? = some t →
    ∃ c ∈ p.classes, c.typeId = id ∧ t = DispatchTable.ofClass e.tables.live c

variable {p : Program}

theorem vtable_eq_ok (hp : p.Accepted) {c : ClassDef} (hc : c ∈ p.classes) (hi : c.isInterface = false)
    {e : Emission} (he : Cached p e) :
    ∃ cache, vtable c e = .ok (.ofClass e.tables.live c) { e with tables.vtables := cache } ∧
      Cached p { e with tables.vtables := cache } := by
  simp only [vtable, hi, Bool.false_eq_true, if_false]
  rw [bind_of_ok (get_apply e)]
  cases ht : e.tables.vtables[c.typeId]? with
  | some t =>
      obtain ⟨d, hd, hid, rfl⟩ := he _ _ ht
      rw [hp.eq_of_typeId hd hc hid]
      exact ⟨e.tables.vtables, rfl, he⟩
  | none =>
      refine ⟨e.tables.vtables.insert c.typeId (.ofClass e.tables.live c), rfl, ?_⟩
      intro id t h
      obtain ⟨hid, rfl⟩ | ⟨-, h⟩ := Maps.getElem?_insert_eq_some.1 h
      · exact ⟨c, hc, hid, rfl⟩
      · exact he id t h

/-- What holds between the emissions of vtables: the symbols marked as emitted are those defined, and
each names the table of its class. -/
structure VtablesEmitted (p : Program) (live : Reachability) (done : List ClassDef) (e : Emission) :
    Prop where
  live_eq : e.tables.live = live
  cached : Cached p e
  defined : ∀ c ∈ p.classes, (DispatchTable.ofClass live c).symbol ∈ e.tables.emitted →
    e.module.data[(DispatchTable.ofClass live c).symbol]? = some (vtableData live c)
  marked : ∀ name d, e.module.data[name]? = some d → name ∈ e.tables.emitted
  done : ∀ c ∈ done, c.isConcrete = true → (DispatchTable.ofClass live c).symbol ∈ e.tables.emitted
  named : ∀ name ∈ e.tables.emitted, ∃ c, name = (DispatchTable.ofClass live c).symbol

theorem VtablesEmitted.of_fresh {e : Emission} (hcache : e.tables.vtables = ∅)
    (hemitted : e.tables.emitted = []) (hdata : e.module.data = ∅) :
    VtablesEmitted p e.tables.live [] e where
  live_eq := rfl
  cached id t h := by simp [hcache] at h
  defined c _ h := by simp [hemitted] at h
  marked name d h := by simp [hdata] at h
  done c h := by simp at h
  named name h := by simp [hemitted] at h

theorem eq_of_symbol_ofClass (hnames : (p.classes.map (·.dottedName)).Nodup) {live : Reachability}
    {c d : ClassDef} (hc : c ∈ p.classes) (hd : d ∈ p.classes)
    (h : (DispatchTable.ofClass live c).symbol = (DispatchTable.ofClass live d).symbol) : c = d := by
  have hdotted : c.dottedName = d.dottedName := by simpa [DispatchTable.ofClass] using h
  exact List.inj_on_of_nodup_map hnames hc hd hdotted

theorem VtablesEmitted.vtable_eq_ok (hp : p.Accepted) {live : Reachability} {done : List ClassDef}
    {e : Emission} (h : VtablesEmitted p live done e) {c : ClassDef} (hc : c ∈ p.classes)
    (hi : c.isInterface = false) :
    ∃ e', vtable c e = .ok (.ofClass live c) e' ∧ VtablesEmitted p live done e' ∧
      e'.diagnostics = e.diagnostics ∧ e'.module = e.module := by
  obtain ⟨rfl, hcached, hdefined, hmarked, hdone, hnamed⟩ := h
  obtain ⟨cache, hv, hcache⟩ := Emission.vtable_eq_ok hp hc hi hcached
  exact ⟨_, hv, ⟨rfl, hcache, hdefined, hmarked, hdone, hnamed⟩, rfl, rfl⟩

theorem markEmitted_of_mem {symbol : String} {e : Emission} (h : symbol ∈ e.tables.emitted) :
    markEmitted symbol e = .ok false e := by
  rw [markEmitted, bind_of_ok (get_apply e), if_pos (List.contains_iff_mem.2 h)]
  rfl

theorem markEmitted_of_notMem {symbol : String} {e : Emission} (h : symbol ∉ e.tables.emitted) :
    markEmitted symbol e = .ok true { e with tables.emitted := symbol :: e.tables.emitted } := by
  rw [markEmitted, bind_of_ok (get_apply e), if_neg (by simpa using h)]
  rfl

theorem VtablesEmitted.cons {live : Reachability} {done : List ClassDef} {e : Emission}
    (h : VtablesEmitted p live done e) {c : ClassDef}
    (hc : c.isConcrete = true → (DispatchTable.ofClass live c).symbol ∈ e.tables.emitted) :
    VtablesEmitted p live (c :: done) e :=
  { h with
    done := fun d hd hdk => by
      rcases List.mem_cons.1 hd with rfl | hd
      · exact hc hdk
      · exact h.done d hd hdk }

theorem VtablesEmitted.define (hnames : (p.classes.map (·.dottedName)).Nodup) {live : Reachability}
    {done : List ClassDef} {e : Emission} (h : VtablesEmitted p live done e) {c : ClassDef} (hc : c ∈ p.classes)
    {m : Module} (hdata : m.data = e.module.data.insert (DispatchTable.ofClass live c).symbol (vtableData live c))
    (statistics : DispatchStatistics) (diagnostics : Diagnostics) :
    VtablesEmitted p live (c :: done) { e with
      tables.emitted := (DispatchTable.ofClass live c).symbol :: e.tables.emitted
      tables.statistics := statistics
      diagnostics := diagnostics
      module := m } := by
  obtain ⟨hlive, hcached, hdefined, hmarked, hdone, hnamed⟩ := h
  refine ⟨hlive, hcached, ?_, ?_, ?_, ?_⟩
  · intro d hd hsymbol
    dsimp only
    by_cases hdc : (DispatchTable.ofClass live c).symbol = (DispatchTable.ofClass live d).symbol
    · rw [hdata, eq_of_symbol_ofClass hnames hc hd hdc]
      exact Std.TreeMap.getElem?_insert_self
    · rw [hdata, Maps.getElem?_insert_of_ne hdc]
      exact hdefined d hd ((List.mem_cons.1 hsymbol).resolve_left (Ne.symm hdc))
  · intro name d hname
    dsimp only at hname
    rw [hdata] at hname
    obtain ⟨rfl, -⟩ | ⟨-, hname⟩ := Maps.getElem?_insert_eq_some.1 hname
    · exact List.mem_cons_self
    · exact List.mem_cons_of_mem _ (hmarked name d hname)
  · intro d hd hdk
    rcases List.mem_cons.1 hd with rfl | hd
    · exact List.mem_cons_self
    · exact List.mem_cons_of_mem _ (hdone d hd hdk)
  · intro name hname
    rcases List.mem_cons.1 hname with rfl | hname
    · exact ⟨c, rfl⟩
    · exact hnamed name hname

/-- Emitting one class keeps the tables emitted before and adds its own. -/
theorem emitVtable_eq_ok (hp : p.Accepted) (hnames : (p.classes.map (·.dottedName)).Nodup)
    {live : Reachability} {done : List ClassDef} {e : Emission} (h : VtablesEmitted p live done e)
    {c : ClassDef} (hc : c ∈ p.classes) :
    ∃ e', emitVtable c e = .ok () e' ∧ VtablesEmitted p live (c :: done) e' := by
  rw [emitVtable]
  cases hk : c.isConcrete with
  | false => exact ⟨e, rfl, h.cons fun hk' => absurd (hk.symm.trans hk') Bool.false_ne_true⟩
  | true =>
      obtain ⟨e₁, hv, h₁, -, -⟩ := h.vtable_eq_ok hp hc (ClassDef.isInterface_of_isConcrete hk)
      simp only [Bool.not_true, Bool.false_eq_true, if_false]
      rw [bind_of_ok hv]
      by_cases hknown : (DispatchTable.ofClass live c).symbol ∈ e₁.tables.emitted
      · rw [bind_of_ok (markEmitted_of_mem hknown)]
        exact ⟨e₁, rfl, h₁.cons fun _ => hknown⟩
      · have hnone : e₁.module.data[(DispatchTable.ofClass live c).symbol]? = none := by
          cases hd : e₁.module.data[(DispatchTable.ofClass live c).symbol]? with
          | none => rfl
          | some d => exact absurd (h₁.marked _ d hd) hknown
        rw [bind_of_ok (markEmitted_of_notMem hknown)]
        simp only [Bool.not_true, Bool.false_eq_true, if_false]
        obtain ⟨diagnostics, hreport⟩ := reportMissing_eq_ok c "vtable" (DispatchTable.ofClass live c).slots
          { e₁ with tables.emitted := (DispatchTable.ofClass live c).symbol :: e₁.tables.emitted }
        rw [bind_of_ok hreport]
        obtain ⟨m, hm, hdata⟩ := defineTable_eq_ok (e := { e₁ with
            tables.emitted := (DispatchTable.ofClass live c).symbol :: e₁.tables.emitted
            diagnostics := diagnostics })
          hnone ((DispatchTable.ofClass live c).slots.map .ofMethod)
        rw [bind_of_ok hm]
        exact ⟨_, rfl, h₁.define hnames hc hdata _ diagnostics⟩

theorem emitVtables_eq_ok (hp : p.Accepted) (hnames : (p.classes.map (·.dottedName)).Nodup)
    {live : Reachability} {done : List ClassDef} {e : Emission} (h : VtablesEmitted p live done e)
    {order : List ClassDef} (horder : ∀ c ∈ order, c ∈ p.classes) :
    ∃ e', order.forM emitVtable e = .ok () e' ∧ VtablesEmitted p live (order.reverse ++ done) e' := by
  induction order generalizing done e with
  | nil => exact ⟨e, rfl, h⟩
  | cons c order ih =>
      obtain ⟨e₁, h₁, hdone₁⟩ := emitVtable_eq_ok hp hnames h (horder c List.mem_cons_self)
      obtain ⟨e₂, h₂, hdone₂⟩ := ih hdone₁ fun d hd => horder d (List.mem_cons_of_mem _ hd)
      refine ⟨e₂, ?_, by simpa using hdone₂⟩
      exact (bind_of_ok h₁ _).trans h₂

end Emission

end NativeBackend
