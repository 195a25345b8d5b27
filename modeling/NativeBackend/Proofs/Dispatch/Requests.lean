import NativeBackend.Proofs.Dispatch.Growth
import NativeBackend.Proofs.Dispatch.Virtual

namespace NativeBackend

namespace Emission

open Steps

variable {p : Program} {e e' : Emission} {c : ClassDef} {interfaces : List ClassDef} {err : Error}

/-- What holds between requests: only their symbols are marked, data is defined under the symbols of marked
requests, and the tables of all of them are there. -/
structure Owned (p : Program) (start : Emission) (requests : List TableRequest) (e : Emission) : Prop where
  live : e.tables.live = start.tables.live
  size : e.tables.typeIdSize = start.tables.typeIdSize
  cached : Cached p e
  marked : ∀ name ∈ e.tables.emitted, ∃ r ∈ requests, r.Of p ∧ name = r.mark
  defined : ∀ name ∈ e.module.data, ∃ r : TableRequest, r.Of p ∧ name ∈ r.symbols ∧ r.mark ∈ e.tables.emitted
  held : ∀ r ∈ requests, r.Of p → e.Held r

namespace Owned

variable {start : Emission} {requests : List TableRequest} {r : TableRequest}

theorem held_of_marked (hapart : p.TablesApart) (h : Owned p start requests e) (hr : r.Of p)
    (hmark : r.mark ∈ e.tables.emitted) : e.Held r := by
  obtain ⟨s, hs, hsp, heq⟩ := h.marked _ hmark
  obtain rfl := TableRequest.eq_of_mem_symbols hapart hr hsp r.mark_mem_symbols (heq ▸ s.mark_mem_symbols)
  exact h.held r hs hr

theorem notMem_of_notMarked (hapart : p.TablesApart) (h : Owned p start requests e) (hr : r.Of p)
    (hmark : r.mark ∉ e.tables.emitted) : ∀ name ∈ r.symbols, name ∉ e.module.data := by
  intro name hname hmem
  obtain ⟨s, hs, hsname, hsmark⟩ := h.defined name hmem
  obtain rfl := TableRequest.eq_of_mem_symbols hapart hr hs hname hsname
  exact hmark hsmark

theorem grows (h : Owned p start requests e) (hg : Grows p [] e e') : Owned p start requests e' where
  live := hg.live.trans h.live
  size := hg.size.trans h.size
  cached := hg.cached h.cached
  marked := hg.emitted ▸ h.marked
  defined name hname := by
    rw [hg.emitted]
    exact h.defined name ((hg.added name hname).resolve_right (List.not_mem_nil))
  held r hr hrp := (h.held r hr hrp).keeps hg.toKeeps

theorem cons (h : Owned p start requests e) (hr : r.Of p → e.Held r) : Owned p start (r :: requests) e :=
  { h with
    marked := fun name hname => by
      obtain ⟨s, hs, hsame⟩ := h.marked name hname
      exact ⟨s, List.mem_cons_of_mem _ hs, hsame⟩
    held := fun s hs hsp => by
      rcases List.mem_cons.1 hs with rfl | hs
      · exact hr hsp
      · exact h.held s hs hsp }

theorem of_mem_iff {more : List TableRequest} (h : Owned p start more e) (hmem : ∀ r, r ∈ more ↔ r ∈ requests) :
    Owned p start requests e :=
  { h with
    marked := fun name hname => by
      obtain ⟨s, hs, hsame⟩ := h.marked name hname
      exact ⟨s, (hmem s).1 hs, hsame⟩
    held := fun s hs => h.held s ((hmem s).2 hs) }

theorem define (h : Owned p start requests e) (hr : r.Of p)
    (hg : Grows p r.symbols (e.marked r.mark) e') (hheld : e'.Held r) :
    Owned p start (r :: requests) e' where
  live := hg.live.trans h.live
  size := hg.size.trans h.size
  cached := hg.cached h.cached
  marked name hname := by
    rw [hg.emitted] at hname
    rcases List.mem_cons.1 hname with rfl | hname
    · exact ⟨r, List.mem_cons_self, hr, rfl⟩
    · obtain ⟨s, hs, hsame⟩ := h.marked name hname
      exact ⟨s, List.mem_cons_of_mem _ hs, hsame⟩
  defined name hname := by
    rw [hg.emitted]
    rcases hg.added name hname with hname | hname
    · obtain ⟨s, hs, hsname, hsmark⟩ := h.defined name hname
      exact ⟨s, hs, hsname, List.mem_cons_of_mem _ hsmark⟩
    · exact ⟨r, hr, hname, List.mem_cons_self⟩
  held s hs hsp := by
    rcases List.mem_cons.1 hs with rfl | hs
    · exact hheld
    · exact ((h.held s hs hsp).marked r.mark).keeps hg.toKeeps

theorem met (hapart : p.TablesApart) (h : Owned p start requests e) (hr : r.Of p) (hmet : Met p r e e') :
    Owned p start (r :: requests) e' := by
  cases hmet with
  | empty hg hheld => exact (h.grows hg).cons fun _ => hheld
  | again hg hmark => exact (h.grows hg).cons fun hr => (h.grows hg).held_of_marked hapart hr hmark
  | first e₁ hg hnew hdefined hheld => exact (h.grows hg).define hr hdefined hheld

end Owned

section

variable {start : Emission} {requests : List TableRequest}

theorem meet_owned (hp : p.Accepted) (hapart : p.TablesApart) (h : Owned p start requests e) {r : TableRequest}
    (hr : r.owner ∈ p.classes) :
    (∃ e', meet r e = .ok () e' ∧ Owned p start (r :: requests) e') ∨
      ∃ err e', meet r e = .error err e' ∧ Refused p start.tables.typeIdSize err := by
  cases hk : r.owner.isConcrete with
  | false => exact .inl ⟨e, meet_of_not_concrete hk e, h.cons fun hr => absurd hr.2 (by simp [hk])⟩
  | true =>
      have hr : r.Of p := ⟨hr, hk⟩
      cases hrun : meet r e with
      | ok _ e' => exact .inl ⟨e', rfl, h.met hapart hr (meet_met hp h.cached hr hrun)⟩
      | error err e' =>
          have hnodup := TableRequest.nodup_symbols hapart hr
          refine .inr ⟨err, e', rfl, h.size ▸ meet_error hp h.cached hr hnodup ?_ hrun⟩
          exact fun hmark => h.notMem_of_notMarked hapart hr hmark

/-- Requests are met in any order, and may be repeated. -/
theorem forM_meet_owned (hp : p.Accepted) (hapart : p.TablesApart) (h : Owned p start requests e)
    {order : List TableRequest} (horder : ∀ r ∈ order, r.owner ∈ p.classes) :
    (∃ e', order.forM meet e = .ok () e' ∧ Owned p start (order.reverse ++ requests) e') ∨
      ∃ err e', order.forM meet e = .error err e' ∧ Refused p start.tables.typeIdSize err := by
  induction order generalizing requests e with
  | nil => exact .inl ⟨e, rfl, h⟩
  | cons r order ih =>
      rcases meet_owned hp hapart h (horder r List.mem_cons_self) with ⟨e₁, hrun₁, h₁⟩ | ⟨err, e₁, hrun₁, hrefused⟩
      · have hrun : ∀ result, order.forM meet e₁ = result → (r :: order).forM meet e = result :=
          fun _ hrest => (bind_of_ok hrun₁ _).trans hrest
        rcases ih h₁ fun s hs => horder s (List.mem_cons_of_mem _ hs) with
          ⟨e₂, hrun₂, h₂⟩ | ⟨err, e₂, hrun₂, hrefused⟩
        · exact .inl ⟨e₂, hrun _ hrun₂, by simpa using h₂⟩
        · exact .inr ⟨err, e₂, hrun _ hrun₂, hrefused⟩
      · exact .inr ⟨err, e₁, bind_of_error hrun₁ _, hrefused⟩

end

def Unshared (entries : List Constant) : Prop :=
  ∀ (id id' : Nat) (name : String),
    entries[id]? = some (.symbol name) → entries[id']? = some (.symbol name) → id = id'

def arrayData (symbol : String) (entries : List Constant) : DataDefinition :=
  ⟨symbol, .array entries.length .ptr, .array .ptr entries, .global, true⟩

section

variable (symbol : String) (symbolOf : ClassDef → EmitM (Option String)) (own : ClassDef → String)
  (Slot : ClassDef → Option String → Prop) (Bad : Error → Prop)

theorem emitGlobalArray_unshared (hp : p.Accepted)
    (hown : ∀ c ∈ p.classes, c.isConcrete = true → ∀ d ∈ p.classes, d.isConcrete = true → own c = own d → c = d)
    (hstep : ∀ c ∈ p.classes, c.isConcrete = true → ∀ e₁, Grows p [] e e₁ →
      (∃ entry e₂, symbolOf c e₁ = .ok entry e₂ ∧ Grows p [] e₁ e₂ ∧ Slot c entry ∧ ∀ name ∈ entry, name = own c) ∨
        ∃ err e₂, symbolOf c e₁ = .error err e₂ ∧ Bad err)
    (hfree : symbol ∉ e.module.data) :
    (∃ e' entries, emitGlobalArray p symbol symbolOf e = .ok () e' ∧ Grows p [symbol] e e' ∧
      e'.module.data[symbol]? = some (arrayData symbol entries) ∧ Unshared entries ∧
      ∀ c ∈ p.classes, c.isConcrete = true →
        ∃ entry, entries[c.typeId]? = some (slotConstant entry) ∧ Slot c entry) ∨
    ∃ err e', emitGlobalArray p symbol symbolOf e = .error err e' ∧ Bad err := by
  have hnew : ∀ e₁, Grows p [] e e₁ → symbol ∉ e₁.module.data := fun e₁ hg hmem =>
    hfree ((hg.added _ hmem).resolve_right List.not_mem_nil)
  have hstep' : ∀ c ∈ p.classes, c.isConcrete = true → ∀ e₁, Grows p [] e e₁ →
      (∃ entry e₂, symbolOf c e₁ = .ok entry e₂ ∧ Grows p [] e e₂ ∧ Slot c entry ∧ ∀ name ∈ entry, name = own c) ∨
        ∃ err e₂, symbolOf c e₁ = .error err e₂ ∧ Bad err := by
    intro c hc hk e₁ hg
    refine (hstep c hc hk e₁ hg).imp_left ?_
    rintro ⟨entry, e₂, hrun, hg₂, hslot⟩
    exact ⟨entry, e₂, hrun, hg.trans hg₂, hslot⟩
  refine (emitGlobalArray_run hp symbol hstep' (fun e₁ hg => Std.TreeMap.getElem?_eq_none (hnew e₁ hg))
    (.refl p [] e)).imp_left ?_
  rintro ⟨e₁, m, entries, hrun, hg, hdata, hlength, hset, hnull⟩
  obtain ⟨hdefined, harray⟩ := Grows.of_insert (p := p) (d := arrayData symbol entries) (hnew e₁ hg) hdata
  refine ⟨_, entries, hrun, (hg.mono (List.nil_subset _)).trans hdefined, harray, ?_, fun c hc hk => ?_⟩
  · have hentry : ∀ (id : Nat) name, entries[id]? = some (.symbol name) →
        ∃ c ∈ p.classes, c.isConcrete = true ∧ c.typeId = id ∧ name = own c := by
      intro id name hid
      by_cases hclass : ∃ c ∈ p.classes, c.isConcrete = true ∧ c.typeId = id
      · obtain ⟨c, hc, hk, rfl⟩ := hclass
        obtain ⟨entry, hslot, -, hsame⟩ := hset c hc hk
        have heq := Option.some.inj (hid.symm.trans hslot)
        cases entry with
        | none => cases heq
        | some name' =>
            cases heq
            exact ⟨c, hc, hk, rfl, hsame _ rfl⟩
      · have hbound := (List.getElem?_eq_some_iff.1 hid).1
        rw [hnull id (by omega) fun c hc hk heq => hclass ⟨c, hc, hk, heq⟩] at hid
        cases hid
    intro id id' name hid hid'
    obtain ⟨c, hc, hk, rfl, hname⟩ := hentry id name hid
    obtain ⟨d, hd, hkd, rfl, hname'⟩ := hentry id' name hid'
    rw [hown c hc hk d hd hkd (hname.symm.trans hname')]
  · obtain ⟨entry, hslot, hgood, -⟩ := hset c hc hk
    exact ⟨entry, hslot, hgood⟩

end

def emitRequested (p : Program) (requests : List TableRequest) : EmitM Unit := do
  requests.forM meet
  emitVtableArray p
  emitItableArray p

structure Unemitted (p : Program) (e : Emission) : Prop where
  cached : Cached p e
  emitted : e.tables.emitted = []
  data : e.module.data = ∅

theorem Owned.of_unemitted (h : Unemitted p e) : Owned p e [] e where
  live := rfl
  size := rfl
  cached := h.cached
  marked name hname := by simp [h.emitted] at hname
  defined name hname := by simp [h.data] at hname
  held r hr := by simp at hr

/-- The tables of all requests are there, and the arrays lead each type id to its own. -/
structure Delivered (p : Program) (start : Emission) (requests : List TableRequest) (e : Emission) : Prop where
  live : e.tables.live = start.tables.live
  held : ∀ r ∈ requests, r.Of p → e.Held r
  vtables : ∃ entries, e.module.data[vtableArraySymbol]? = some (arrayData vtableArraySymbol entries) ∧
    Unshared entries ∧
    ∀ c ∈ p.classes, c.isConcrete = true → entries[c.typeId]? = some (.symbol (ClassTable.vtable c).symbol)
  dictionaries : ∃ entries, e.module.data[itableArraySymbol]? = some (arrayData itableArraySymbol entries) ∧
    Unshared entries ∧
    ∀ c ∈ p.classes, c.isConcrete = true → .itables c ∈ requests → entries[c.typeId]? =
      some (if c.allInterfaces.any e.hasSlots then .symbol c.dictionarySymbol else .null)

section

variable {start : Emission} {requests : List TableRequest}

theorem emitVtableArray_unshared (hp : p.Accepted) (hapart : p.TablesApart) (he : Cached p e)
    (hfree : vtableArraySymbol ∉ e.module.data) :
    ∃ e' entries, emitVtableArray p e = .ok () e' ∧ Grows p [vtableArraySymbol] e e' ∧
      e'.module.data[vtableArraySymbol]? = some (arrayData vtableArraySymbol entries) ∧ Unshared entries ∧
      ∀ c ∈ p.classes, c.isConcrete = true → entries[c.typeId]? = some (.symbol (ClassTable.vtable c).symbol) := by
  obtain ⟨e', entries, hrun, hg, harray, hunshared, hset⟩ | ⟨_, _, -, ⟨⟩⟩ := emitGlobalArray_unshared
    vtableArraySymbol (fun c => return some (← vtable c).symbol) (fun c => (ClassTable.vtable c).symbol)
    (fun c entry => entry = some (ClassTable.vtable c).symbol) (fun _ => False) hp
    (fun c hc hk d hd hkd heq => ClassTable.vtable.inj (hapart (.vtable c) (.vtable d) ⟨hc, hk⟩ ⟨hd, hkd⟩ heq))
    (fun c hc hk e₁ hg => by
      obtain ⟨e₂, hv, hg₂⟩ := vtable_grows hp (hg.cached he) hc (ClassDef.isInterface_of_isConcrete hk)
      refine .inl ⟨_, e₂, bind_of_ok hv _, hg₂, rfl, ?_⟩
      rintro name ⟨⟩
      rfl) hfree
  refine ⟨e', entries, hrun, hg, harray, hunshared, fun c hc hk => ?_⟩
  obtain ⟨_, hentry, rfl⟩ := hset c hc hk
  exact hentry

theorem emitItableArray_unshared (hp : p.Accepted) (hapart : p.TablesApart) (size : Int)
    (hheld : ∀ r ∈ requests, r.Of p → e.Held r) (hfree : itableArraySymbol ∉ e.module.data) :
    (∃ e' entries, emitItableArray p e = .ok () e' ∧ Grows p [itableArraySymbol] e e' ∧
      e'.module.data[itableArraySymbol]? = some (arrayData itableArraySymbol entries) ∧ Unshared entries ∧
      ∀ c ∈ p.classes, c.isConcrete = true → .itables c ∈ requests → entries[c.typeId]? =
        some (if c.allInterfaces.any e.hasSlots then .symbol c.dictionarySymbol else .null)) ∨
    ∃ err e', emitItableArray p e = .error err e' ∧ Refused p size err := by
  refine (emitGlobalArray_unshared itableArraySymbol
    (fun c => return if ← hasItables c then some c.dictionarySymbol else none) ClassDef.dictionarySymbol
    (fun c entry => .itables c ∈ requests →
      entry = if c.allInterfaces.any e.hasSlots then some c.dictionarySymbol else none) (Refused p size) hp
    (fun c hc hk d hd hkd heq => ClassTable.dictionary.inj
      (hapart (.dictionary c) (.dictionary d) ⟨hc, hk⟩ ⟨hd, hkd⟩ heq))
    (fun c hc hk e₁ hg => ?_) hfree).imp_left ?_
  · cases hhas : hasItables c e₁ with
    | error err e₂ => exact .inr ⟨err, e₂, bind_of_error hhas _, .inl ⟨c, hc, hk, anyItable_error hhas⟩⟩
    | ok b e₂ =>
        obtain ⟨hg₂, rfl, -⟩ := anyItable_grows (p := p) [] hhas
        refine .inl ⟨_, e₂, bind_of_ok hhas _, hg₂, fun hrequest => ?_, fun name hname => ?_⟩
        · rw [(hheld _ hrequest ⟨hc, hk⟩).1.any_hasSlots_eq (hg.trans hg₂).toKeeps]
        · split at hname
          · exact (Option.some.inj hname).symm
          · cases hname
  · rintro ⟨e', entries, hrun, hg, harray, hunshared, hset⟩
    refine ⟨e', entries, hrun, hg, harray, hunshared, fun c hc hk hrequest => ?_⟩
    obtain ⟨entry, hentry, hslot⟩ := hset c hc hk
    rw [hentry, hslot hrequest]
    split <;> rfl

theorem head?_of_mem_symbols {r : TableRequest} {name : String} (h : name ∈ r.symbols) :
    name.toList.head? = some 'v' ∨ name.toList.head? = some 'i' := by
  cases r with
  | vtable c =>
      rw [List.mem_singleton.1 h]
      simp [ClassTable.symbol]
  | itables c => rcases ClassDef.mem_dispatchSymbols h with rfl | ⟨i, -, rfl⟩ <;> simp [ClassDef.taggedSymbol]

theorem Owned.notMem_array (h : Owned p start requests e) :
    vtableArraySymbol ∉ e.module.data ∧ itableArraySymbol ∉ e.module.data := by
  constructor <;> intro hmem <;> obtain ⟨r, -, hname, -⟩ := h.defined _ hmem <;>
    rcases head?_of_mem_symbols hname with hhead | hhead <;> exact absurd hhead (by decide)

theorem emitArrays_delivered (hp : p.Accepted) (hapart : p.TablesApart) (h : Owned p start requests e) :
    (∃ e', (do emitVtableArray p; emitItableArray p) e = .ok () e' ∧ Delivered p start requests e') ∨
      ∃ err e', (do emitVtableArray p; emitItableArray p) e = .error err e' ∧
        Refused p start.tables.typeIdSize err := by
  obtain ⟨hvfree, hifree⟩ := h.notMem_array
  obtain ⟨e₁, vtables, hrun₁, hg₁, hvtables, hvunshared, hventries⟩ :=
    emitVtableArray_unshared hp hapart h.cached hvfree
  have hheld₁ : ∀ r ∈ requests, r.Of p → e₁.Held r := fun r hr hrp => (h.held r hr hrp).keeps hg₁.toKeeps
  have hifree₁ : itableArraySymbol ∉ e₁.module.data := fun hmem =>
    (hg₁.added _ hmem).elim hifree fun heq => absurd (List.mem_singleton.1 heq) (by decide)
  rcases emitItableArray_unshared hp hapart start.tables.typeIdSize hheld₁ hifree₁ with
    ⟨e₂, dictionaries, hrun₂, hg₂, hdictionaries, hdunshared, hdentries⟩ | ⟨err, e₂, hrun₂, hrefused⟩
  · refine .inl ⟨e₂, (bind_of_ok hrun₁ _).trans hrun₂, ?_, fun r hr hrp => (hheld₁ r hr hrp).keeps hg₂.toKeeps,
      ⟨vtables, hg₂.data _ _ hvtables, hvunshared, hventries⟩, dictionaries, hdictionaries, hdunshared, ?_⟩
    · exact hg₂.live.trans (hg₁.live.trans h.live)
    · intro c hc hk hrequest
      rw [hdentries c hc hk hrequest, (hheld₁ _ hrequest ⟨hc, hk⟩).1.any_hasSlots_eq hg₂.toKeeps]
  · exact .inr ⟨err, e₂, (bind_of_ok hrun₁ _).trans hrun₂, hrefused⟩

end

/-- Symbols of tables collide exactly where names do, and plain names never do. Where the tables of a program are
apart, whatever is asked for in whatever order is delivered: no table is skipped for another one, no symbol is
defined twice, and no two type ids share a table. -/
theorem tables_never_collide (hp : p.Accepted) :
    (p.TablesApart ↔ p.NamesApart) ∧ (p.Closed → (∀ c ∈ p.classes, c.PlainName) → p.TablesApart) ∧
      (p.TablesApart → ∀ start, Unemitted p start → ∀ requests : List TableRequest,
        (∀ r ∈ requests, r.owner ∈ p.classes) →
        (∃ e, emitRequested p requests start = .ok () e ∧ Delivered p start requests e) ∨
          ∃ err e, emitRequested p requests start = .error err e ∧ Refused p start.tables.typeIdSize err) := by
  refine ⟨p.tablesApart_iff, fun hclosed hplain => ?_, ?_⟩
  · exact p.tablesApart_iff.2 (.of_dispatchable ⟨hp, hclosed, hplain⟩)
  intro hapart start hstart requests hin
  rcases forM_meet_owned hp hapart (.of_unemitted hstart) hin with ⟨e₁, hrun₁, h₁⟩ | ⟨err, e₁, hrun₁, hrefused⟩
  · have hall : Owned p start requests e₁ := h₁.of_mem_iff (by simp)
    rcases emitArrays_delivered hp hapart hall with ⟨e₂, hrun₂, h₂⟩ | ⟨err, e₂, hrun₂, hrefused⟩
    · exact .inl ⟨e₂, (bind_of_ok hrun₁ _).trans hrun₂, h₂⟩
    · exact .inr ⟨err, e₂, (bind_of_ok hrun₁ _).trans hrun₂, hrefused⟩
  · exact .inr ⟨err, e₁, bind_of_error hrun₁ _, hrefused⟩

def contract (name : String) (typeId : Nat) : ClassDef :=
  ⟨name, typeId, .interface, none, [], [.declare name "sign" ⟨[], .void⟩ { isAbstract := true } false], [], 8⟩

def signer (name : String) (typeId : Nat) (interface : ClassDef) : ClassDef :=
  ⟨name, typeId, .concrete, none, [interface], [], [], 8⟩

def dashed : ClassDef := signer "A-B" 32 (contract "C" 30)

def neighbour : ClassDef := signer "A" 33 (contract "D" 31)

def neighbours : Program := ⟨[contract "C" 30, contract "D" 31, dashed, neighbour]⟩

theorem neighbours_accepted : neighbours.Accepted :=
  .add (.add (.add (.add .empty (show Program.add {} (contract "C" 30) = .ok ⟨[contract "C" 30]⟩ from rfl))
    (show Program.add _ (contract "D" 31) = .ok ⟨[contract "C" 30, contract "D" 31]⟩ from rfl))
    (show Program.add _ dashed = .ok ⟨[contract "C" 30, contract "D" 31, dashed]⟩ from rfl))
    (show Program.add _ neighbour = .ok neighbours from rfl)

theorem dashed_allInterfaces : dashed.allInterfaces = [contract "C" 30] := by
  cbv

theorem neighbour_allInterfaces : neighbour.allInterfaces = [contract "D" 31] := by
  cbv

theorem concrete_of_neighbours {c : ClassDef} (hc : c ∈ neighbours.classes) (hk : c.isConcrete = true) :
    c = dashed ∨ c = neighbour := by
  simp only [neighbours, List.mem_cons, List.not_mem_nil, or_false] at hc
  rcases hc with rfl | rfl | rfl | rfl
  · cases hk
  · cases hk
  · exact .inl rfl
  · exact .inr rfl

theorem neighbours_namesApart : neighbours.NamesApart := by
  have hclass : dashed.dottedName ≠ neighbour.dottedName := by decide +kernel
  have hpair : dashed.joined (contract "C" 30) ≠ neighbour.joined (contract "D" 31) := by decide +kernel
  have hmark : ∀ text owner : String, text.toList.head? = some 'A' → text ≠ "dict-" ++ owner := by
    rintro _ owner hhead rfl
    simp at hhead
  refine ⟨fun c hc hk d hd hkd heq => ?_, fun c hc hk d hd hkd i hi j hj heq => ?_,
    fun c hc hk d hd hkd i hi => ?_⟩
  · rcases concrete_of_neighbours hc hk with rfl | rfl <;> rcases concrete_of_neighbours hd hkd with rfl | rfl
    · rfl
    · exact absurd heq hclass
    · exact absurd heq.symm hclass
    · rfl
  · rcases concrete_of_neighbours hc hk with rfl | rfl <;> rcases concrete_of_neighbours hd hkd with rfl | rfl <;>
      simp only [dashed_allInterfaces, neighbour_allInterfaces, List.mem_singleton] at hi hj <;> subst hi hj
    · exact ⟨rfl, rfl⟩
    · exact absurd heq hpair
    · exact absurd heq.symm hpair
    · exact ⟨rfl, rfl⟩
  · rcases concrete_of_neighbours hc hk with rfl | rfl <;>
      simp only [dashed_allInterfaces, neighbour_allInterfaces, List.mem_singleton] at hi <;> subst hi
    · exact hmark _ _ (by decide +kernel)
    · exact hmark _ _ (by decide +kernel)

theorem tables_of_neighbours_never_collide :
    ∃ e, emitRequested neighbours [.itables neighbour, .vtable dashed, .itables dashed] emptyZoo = .ok () e ∧
      e.Held (.itables neighbour) ∧ e.Held (.vtable dashed) ∧ e.Held (.itables dashed) := by
  obtain ⟨hiff, -, hrun⟩ := tables_never_collide neighbours_accepted
  have hdashed : dashed ∈ neighbours.classes := by simp [neighbours]
  have hneighbour : neighbour ∈ neighbours.classes := by simp [neighbours]
  obtain ⟨e, hok, hdelivered⟩ | ⟨err, e, -, hrefused⟩ := hrun (hiff.2 neighbours_namesApart) emptyZoo
    ⟨fun _ _ h => by simp [emptyZoo] at h, rfl, rfl⟩ [.itables neighbour, .vtable dashed, .itables dashed]
    (by simp [TableRequest.owner, hdashed, hneighbour])
  · exact ⟨e, hok, hdelivered.held _ (by simp) ⟨hneighbour, rfl⟩, hdelivered.held _ (by simp) ⟨hdashed, rfl⟩,
      hdelivered.held _ (by simp) ⟨hdashed, rfl⟩⟩
  · rcases hrefused with ⟨c, hc, hk, i, hi, hclass, -⟩ | ⟨hwidth, -⟩
    · rcases concrete_of_neighbours hc hk with rfl | rfl <;>
        simp only [dashed_allInterfaces, neighbour_allInterfaces, List.mem_singleton] at hi <;> subst hi <;>
        cases hclass
    · cases hwidth

def refusal? {α : Type} : EStateM.Result Error Emission α → Option Error
  | .ok .. => none
  | .error err _ => some err

def rival : ClassDef := signer "A" 33 (contract "B-C" 31)

def rivals : Program := ⟨[contract "C" 30, contract "B-C" 31, dashed, rival]⟩

/-- Two classes whose itables have one symbol, which the second request for itables fails with. -/
theorem not_tables_of_rivals_apart : rivals.Accepted ∧ ¬ rivals.TablesApart ∧
    refusal? (emitRequested rivals [.itables dashed, .itables rival] emptyZoo) =
      some (.internal (.duplicateData "itable-A-B-C")) := by
  refine ⟨?_, fun h => ?_, by decide +kernel⟩
  · exact .add (.add (.add (.add .empty (show Program.add {} (contract "C" 30) = .ok ⟨[contract "C" 30]⟩ from rfl))
      (show Program.add _ (contract "B-C" 31) = .ok ⟨[contract "C" 30, contract "B-C" 31]⟩ from rfl))
      (show Program.add _ dashed = .ok ⟨[contract "C" 30, contract "B-C" 31, dashed]⟩ from rfl))
      (show Program.add _ rival = .ok rivals from rfl)
  · have hdashed : contract "C" 30 ∈ dashed.allInterfaces := by simp [dashed_allInterfaces]
    have hrival : contract "B-C" 31 ∈ rival.allInterfaces := by
      rw [show rival.allInterfaces = [contract "B-C" 31] by cbv]
      exact List.mem_singleton.2 rfl
    have hsame := h (.itable dashed (contract "C" 30)) (.itable rival (contract "B-C" 31))
      ⟨⟨by simp [rivals], rfl⟩, hdashed⟩ ⟨⟨by simp [rivals], rfl⟩, hrival⟩ (by decide +kernel)
    have hid := congrArg ClassDef.typeId (ClassTable.itable.inj hsame).1
    cases hid

end Emission

end NativeBackend
