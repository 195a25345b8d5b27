import NativeBackend.Proofs.Heap.Addresses
import NativeBackend.Proofs.Heap.Closed
import Std.Data.String.ToNat

namespace NativeBackend.Heap

open Steps

theorem heapSymbol_inj {k k' : Nat} (h : heapSymbol k = heapSymbol k') : k = k' :=
  Nat.repr_inj.1 (String.append_right_inj heapSymbolPrefix |>.1 h)

def symbolOf (h : Heap) (id : ObjectId) : String := heapSymbol (h.intern id).1

def Leads (h : Heap) (source target : ObjectId) : Prop :=
  source ∉ h.interned.take h.emitted ∧ ∃ o, h.store[source]? = some o ∧ o.PointsTo target

inductive Request where
  | allocate (o : HeapObject)
  | setField (id : ObjectId) (name : String) (value : HeapValue)
  | setElement (id : ObjectId) (index : Nat) (value : Option ObjectId)
  | intern (id : ObjectId)
  | internString (p : Program) (value : String)
  | pointerTo (id : ObjectId)

def Request.Known (h : Heap) : Request → Prop
  | .allocate o => ∀ id, o.RefersTo id → id < h.store.size
  | .setField id _ value => id < h.store.size ∧ ∀ target, value.RefersTo target → target < h.store.size
  | .setElement id _ value => id < h.store.size ∧ ∀ target, value = some target → target < h.store.size
  | .intern id | .pointerTo id => id < h.store.size
  | .internString _ _ => True

def Request.apply (h : Heap) : Request → Heap
  | .allocate o => (h.allocate o).2
  | .setField id name value => (h.update id (·.setField h.store name value)).toOption.getD h
  | .setElement id index value => (h.update id (·.setElement index value)).toOption.getD h
  | .intern id => (h.intern id).2
  | .internString p value =>
    match Heap.internString p value h with
    | .ok _ h' | .error _ h' => h'
  | .pointerTo id => (h.pointerTo id).2

structure EmitCall where
  before : Heap × Module
  count : Nat
  after : Heap × Module

def EmitCall.defines (c : EmitCall) (name : String) : Bool :=
  !c.before.2.data.contains name && c.after.2.data.contains name

theorem EmitCall.defines_iff {c : EmitCall} {name : String} :
    c.defines name = true ↔ name ∉ c.before.2.data ∧ name ∈ c.after.2.data := by
  rw [defines, Bool.and_eq_true, Bool.not_eq_true', ← Bool.not_eq_true, Std.TreeMap.contains_iff_mem,
    Std.TreeMap.contains_iff_mem]

/-- Calls on a heap and a module of which no emission fails. Emissions are listed, the latest first. -/
inductive Run (start : Heap × Module) : List EmitCall → Heap × Module → Prop
  | start : Run start [] start
  | request {calls : List EmitCall} {h : Heap} {m : Module} {r : Request} : Run start calls (h, m) → r.Known h →
      Run start calls (r.apply h, m)
  | emit {calls : List EmitCall} {s s' : Heap × Module} {n : Nat} : Run start calls s → Heap.emit s = .ok n s' →
      Run start (⟨s, n, s'⟩ :: calls) s'

section

variable {h : Heap} {id : ObjectId} {k : Nat}

theorem intern_eq (hnodup : h.interned.Nodup) (hk : h.interned[k]? = some id) : h.intern id = (k, h) := by
  obtain ⟨hlt, hid⟩ := List.getElem?_eq_some_iff.1 hk
  have hnumber : h.interned.idxOf? id = some k := by
    refine List.idxOf?_eq_some_iff.2 ⟨hlt, hid, fun j hj heq => ?_⟩
    have hj' : j < h.interned.length := hj.trans hlt
    have := (List.Nodup.getElem_inj_iff hnodup (i := j) (j := k)).1 (heq.trans hid.symm)
    omega
  rw [intern, hnumber]

theorem symbolOf_eq (hnodup : h.interned.Nodup) (hk : h.interned[k]? = some id) : h.symbolOf id = heapSymbol k := by
  rw [symbolOf, intern_eq hnodup hk]

theorem exists_number (hnodup : h.interned.Nodup) (hid : id ∈ h.interned) :
    ∃ k < h.length, h.interned[k]? = some id ∧ h.symbolOf id = heapSymbol k := by
  obtain ⟨k, hk⟩ := List.getElem?_of_mem hid
  exact ⟨k, (List.getElem?_eq_some_iff.1 hk).1, hk, symbolOf_eq hnodup hk⟩

theorem symbolOf_bijOn (hnodup : h.interned.Nodup) :
    Set.BijOn h.symbolOf {id | id ∈ h.interned} {name | ∃ k < h.length, name = heapSymbol k} := by
  refine ⟨fun id hid => ?_, fun id hid id' hid' heq => ?_, ?_⟩
  · obtain ⟨k, hk, -, hsymbol⟩ := exists_number hnodup hid
    exact ⟨k, hk, hsymbol⟩
  · obtain ⟨k, -, hk, hsymbol⟩ := exists_number hnodup hid
    obtain ⟨k', -, hk', hsymbol'⟩ := exists_number hnodup hid'
    obtain rfl := heapSymbol_inj (hsymbol.symm.trans (heq.trans hsymbol'))
    exact Option.some_inj.1 (hk.symm.trans hk')
  · rintro name ⟨k, hk, rfl⟩
    exact ⟨h.interned[k], List.getElem_mem hk, symbolOf_eq hnodup (List.getElem?_eq_getElem hk)⟩

theorem Linked.updated (hl : Linked h) {change : HeapObject → Except Error HeapObject}
    (hchange : ∀ o o', change o = .ok o' → ∀ target, o'.RefersTo target →
      o.RefersTo target ∨ target < h.store.size) :
    Linked ((h.update id change).toOption.getD h) ∧ ((h.update id change).toOption.getD h).emitted = h.emitted ∧
      h.interned <+: ((h.update id change).toOption.getD h).interned := by
  cases hupdate : h.update id change with
  | error e => exact ⟨hl, rfl, List.prefix_rfl⟩
  | ok h' =>
      refine ⟨hl.update hchange hupdate, ?_⟩
      rcases update_run hupdate with rfl | ⟨_, _, _, _, rfl⟩ <;> exact ⟨rfl, List.prefix_rfl⟩

theorem Linked.request (hl : Linked h) {r : Request} (hr : r.Known h) :
    Linked (r.apply h) ∧ (r.apply h).emitted = h.emitted ∧ h.interned <+: (r.apply h).interned := by
  have hintern : ∀ id, id < h.store.size →
      Linked (h.intern id).2 ∧ (h.intern id).2.emitted = h.emitted ∧ h.interned <+: (h.intern id).2.interned := by
    intro id hid
    obtain ⟨more, hmore, -⟩ := (h.intern_extends id).1.interned
    exact ⟨hl.intern hid, (h.intern_extends id).1.emitted, more, hmore.symm⟩
  cases r with
  | allocate o => exact ⟨hl.allocate hr, rfl, List.prefix_rfl⟩
  | setField id name value =>
      exact hl.updated fun o o' hset target htarget => (htarget.setField hset).imp_right (hr.2 target)
  | setElement id index value =>
      exact hl.updated fun o o' hset target htarget => (htarget.setElement hset).imp_right (hr.2 target)
  | intern id => exact hintern id hr
  | pointerTo id => exact hintern id hr
  | internString p value =>
      rw [Request.apply]
      cases hstring : Heap.internString p value h with
      | ok number h' => exact hl.internString hstring
      | error e h' =>
          obtain rfl : h' = h := by
            rcases internString_run hstring with ⟨_, heq⟩ | ⟨_, heq⟩ | ⟨_, _, _, _, _, _, heq⟩ <;> cases heq
            rfl
          exact ⟨hl, rfl, List.prefix_rfl⟩

end

section

variable {s s' : Heap × Module} {id : ObjectId} {n : Nat}

/-- More steps than there are objects change nothing, so emission comes to its end by itself. -/
theorem Linked.emitFrom_succ (hl : Linked s.1) {steps : Nat} (hsteps : s.1.store.size ≤ s.1.emitted + steps) :
    Heap.emitFrom (steps + 1) s = Heap.emitFrom steps s := by
  induction steps generalizing s with
  | zero =>
      have hnone : s.1.interned[s.1.emitted]? = none := by
        have := hl.length_le
        exact List.getElem?_eq_none_iff.2 (by omega)
      exact emitFrom_of_none 0 hnone
  | succ steps ih =>
      cases hid : s.1.interned[s.1.emitted]? with
      | none => rw [emitFrom_of_none _ hid, emitFrom_of_none _ hid]
      | some id =>
          rw [emitFrom_of_some _ hid, emitFrom_of_some _ hid]
          cases hnext : Heap.emitNext id s with
          | error e s₁ => rw [bind_of_error hnext, bind_of_error hnext]
          | ok _ s₁ =>
              obtain ⟨hlinked, hemitted, hstore⟩ := hl.emitNext hid hnext
              have hrest := ih hlinked (by rw [hstore, hemitted]; omega)
              rw [bind_of_ok hnext, bind_of_ok hnext]
              cases hdone : Heap.emitFrom steps s₁ with
              | error e s₂ => rw [bind_of_error (hrest.trans hdone), bind_of_error hdone]
              | ok n s₂ => rw [bind_of_ok (hrest.trans hdone), bind_of_ok hdone]

theorem Linked.emitFrom_of_le (hl : Linked s.1) {steps : Nat} (hsteps : s.1.store.size ≤ steps) :
    Heap.emitFrom steps s = Heap.emit s := by
  rw [emit_apply]
  induction steps, hsteps using Nat.le_induction with
  | base => rfl
  | succ steps hle ih => rw [hl.emitFrom_succ (by omega), ih]

end

theorem notMem_take {l l' : List ObjectId} {id : ObjectId} {k n : Nat} (hnodup : l.Nodup) (hk : l[k]? = some id)
    (hinit : l' <+: l) (hle : n ≤ k) : id ∉ l'.take n := by
  intro hmem
  obtain ⟨j, hj, rfl⟩ := List.getElem_of_mem hmem
  obtain ⟨hlt, hid⟩ := List.getElem?_eq_some_iff.1 hk
  have hroom : j < l'.length ∧ j < n := by
    rw [List.length_take] at hj
    omega
  rw [List.getElem_take, hinit.getElem hroom.1] at hid
  have := (List.Nodup.getElem_inj_iff hnodup (i := k) (j := j)).1 hid
  omega

/-- What emission has come to: what it wrote mentions what the objects point to, and no object was interned on the
way but those that were led to. -/
structure Serializes (start now : Heap × Module) : Prop where
  linked : Linked now.1
  emitted : Emitted start now
  refers : ∀ k id o d, start.1.emitted ≤ k → k < now.1.emitted → now.1.interned[k]? = some id →
    now.1.store[id]? = some o → now.2.data[heapSymbol k]? = some d → Names now.1 (o.PointsTo ·) d.value
  reached : ∀ id ∈ now.1.interned, ∃ root ∈ start.1.interned, Relation.ReflTransGen start.1.Leads root id

theorem Serializes.refl {s : Heap × Module} (hl : Linked s.1) : Serializes s s :=
  ⟨hl, .refl s, fun _ _ _ _ hle hlt => absurd hlt (by omega), fun id hid => ⟨id, hid, .refl⟩⟩

theorem Serializes.emitNext {start s s' : Heap × Module} (hs : Serializes start s) {id : ObjectId}
    (hid : s.1.interned[s.1.emitted]? = some id) (hnext : Heap.emitNext id s = .ok () s') : Serializes start s' := by
  obtain ⟨o, type, value, ho, hl, hadd⟩ := hs.linked.serialized hid hnext
  obtain ⟨hlinked, hemitted, hstore⟩ := hs.linked.emitNext hid hnext
  obtain ⟨hdata, hkeeps⟩ := addVariable_eq_ok hadd
  obtain ⟨hextends, -, -⟩ := literal_eq_ok hl
  obtain ⟨more, hmore, hnew⟩ := hextends.interned
  refine ⟨hlinked, hs.emitted.emitNext hid hnext, fun k id' o' d hle hlt hid' ho' hd => ?_, fun id' hid' => ?_⟩
  · rw [hemitted] at hlt
    rw [hstore] at ho'
    have hroom := (List.getElem?_eq_some_iff.1 hid).1
    have hsame : s.1.interned[k]? = some id' := by
      rw [← hid', hmore, List.getElem?_append_left (by dsimp only; omega)]
    rcases Nat.lt_succ_iff_lt_or_eq.1 hlt with hlt | rfl
    · obtain ⟨d', hd', -⟩ := hs.emitted.defined k hle hlt id' o' hsame ho'
      cases (hkeeps _ d' hd').symm.trans hd
      exact (hs.refers k id' o' d hle hlt hsame ho' hd').mono hextends.keeps fun _ hp => hp
    · cases hid.symm.trans hsame
      cases ho.symm.trans ho'
      cases hdata.symm.trans hd
      exact literal_names hl
  · rw [hmore] at hid'
    rcases List.mem_append.1 hid' with hold | hmem
    · exact hs.reached id' hold
    · obtain ⟨root, hroot, hreach⟩ := hs.reached id (List.mem_of_getElem? hid)
      have hpending := notMem_take hs.linked.nodup hid hs.emitted.interned hs.emitted.advances
      exact ⟨root, hroot, hreach.tail ⟨hpending, o, hs.emitted.store ▸ ho, hnew id' hmem⟩⟩

theorem serializes_of_emit {s s' : Heap × Module} {n : Nat} (hl : Linked s.1) (h : Heap.emit s = .ok n s') :
    Serializes s s' :=
  emitFrom_induct (fun _ _ _ hs => hs.emitNext) (.refl hl) ((emit_apply s).symm.trans h)

/-- A module has the data that it had at first and that of the numbers that emission passed, but for some that are
lost: there emission failed. -/
structure Settled (m : Module) (lost : List Nat) (s : Heap × Module) : Prop where
  linked : Linked s.1
  within : s.1.emitted ≤ s.1.interned.length
  passed : ∀ k ∈ lost, k < s.1.emitted
  names : ∀ name, name ∈ s.2.data ↔ name ∈ m.data ∨ ∃ k < s.1.emitted, k ∉ lost ∧ name = heapSymbol k
  fresh : ∀ k < s.1.emitted, k ∉ lost → heapSymbol k ∉ m.data

namespace Settled

variable {m : Module} {lost : List Nat} {s s' : Heap × Module}

theorem emitNext (hs : Settled m lost s) {id : ObjectId} (hid : s.1.interned[s.1.emitted]? = some id)
    (hnext : Heap.emitNext id s = .ok () s') : Settled m lost s' := by
  obtain ⟨o, type, value, ho, hl, hadd⟩ := hs.linked.serialized hid hnext
  obtain ⟨hlinked, hemitted, -⟩ := hs.linked.emitNext hid hnext
  obtain ⟨more, hmore, -⟩ := (literal_eq_ok hl).1.interned
  obtain ⟨-, hdata, -, -⟩ := Module.define_eq_ok hadd
  have hnew := Module.notMem_of_define hadd
  have hroom := (List.getElem?_eq_some_iff.1 hid).1
  have hfound : s.1.emitted ∉ lost := fun hlost => Nat.lt_irrefl _ (hs.passed _ hlost)
  refine ⟨hlinked, ?_, fun k hk => ?_, fun name => ?_, fun k hk hkept => ?_⟩
  · rw [hemitted, hmore, List.length_append]
    dsimp only
    omega
  · rw [hemitted]
    exact Nat.lt_succ_of_lt (hs.passed k hk)
  · rw [hdata, Std.TreeMap.mem_insert, Std.compare_eq_iff_eq, hs.names, hemitted]
    constructor
    · rintro (rfl | hname | ⟨k, hk, hkept, rfl⟩)
      · exact .inr ⟨_, Nat.lt_succ_self _, hfound, rfl⟩
      · exact .inl hname
      · exact .inr ⟨k, Nat.lt_succ_of_lt hk, hkept, rfl⟩
    · rintro (hname | ⟨k, hk, hkept, rfl⟩)
      · exact .inr (.inl hname)
      · rcases Nat.lt_succ_iff_lt_or_eq.1 hk with hk | rfl
        · exact .inr (.inr ⟨k, hk, hkept, rfl⟩)
        · exact .inl rfl
  · rw [hemitted] at hk
    rcases Nat.lt_succ_iff_lt_or_eq.1 hk with hk | rfl
    · exact hs.fresh k hk hkept
    · exact fun hmem => hnew ((hs.names _).2 (.inl hmem))

theorem emit (hs : Settled m lost s) {n : Nat} (h : Heap.emit s = .ok n s') : Settled m lost s' :=
  emitFrom_induct (fun _ _ _ hs => hs.emitNext) hs ((emit_apply s).symm.trans h)

theorem request {h : Heap} {m' : Module} (hs : Settled m lost (h, m')) {r : Request} (hknown : r.Known h) :
    Settled m lost (r.apply h, m') := by
  obtain ⟨hlinked, hemitted, hinit⟩ := hs.linked.request hknown
  refine ⟨hlinked, ?_, ?_, fun name => ?_, ?_⟩
  · have := hinit.length_le
    have := hs.within
    dsimp only at *
    omega
  · rw [hemitted]
    exact hs.passed
  · rw [hemitted]
    exact hs.names name
  · rw [hemitted]
    exact hs.fresh

theorem start (m : Module) : Settled m [] ({}, m) :=
  ⟨⟨List.nodup_nil, by simp, by simp⟩, Nat.le_refl 0, by simp, by simp, by simp⟩

theorem mem_data (hs : Settled m [] s) {name : String} :
    name ∈ s.2.data ↔ name ∈ m.data ∨ ∃ k < s.1.emitted, name = heapSymbol k := by
  simpa using hs.names name

theorem notMem_first (hs : Settled m [] s) {k : Nat} (hk : k < s.1.emitted) : heapSymbol k ∉ m.data :=
  hs.fresh k hk List.not_mem_nil

end Settled

theorem keeps_of_isPrefix {h h' : Heap} (hinit : h.interned <+: h'.interned) : Keeps h h' := by
  obtain ⟨more, hmore⟩ := hinit
  intro k id hk
  rw [← hmore, List.getElem?_append_left (List.getElem?_eq_some_iff.1 hk).1, hk]

namespace Run

variable {m : Module} {start s : Heap × Module} {calls : List EmitCall}

theorem settled (hr : Run ({}, m) calls s) : Settled m [] s := by
  induction hr with
  | start => exact .start m
  | request _ hknown ih => exact ih.request hknown
  | emit _ hemit ih => exact ih.emit hemit

theorem grows (hr : Run start calls s) (hl : Linked start.1) :
    Linked s.1 ∧ start.1.interned <+: s.1.interned ∧
      ∀ (name : String) d, start.2.data[name]? = some d → s.2.data[name]? = some d := by
  induction hr with
  | start => exact ⟨hl, List.prefix_rfl, fun _ _ hd => hd⟩
  | request _ hknown ih =>
      obtain ⟨hlinked, -, hinit⟩ := ih.1.request hknown
      exact ⟨hlinked, ih.2.1.trans hinit, ih.2.2⟩
  | emit _ hemit ih =>
      obtain ⟨-, hinit, -, hkeeps, -⟩ := emitted_of_emit hemit
      exact ⟨(ih.1.emit hemit).1, ih.2.1.trans hinit, fun name d hd => hkeeps name d (ih.2.2 name d hd)⟩

theorem counts (hr : Run ({}, m) calls s) : (calls.map (·.count)).sum = s.1.emitted := by
  induction hr with
  | start => rfl
  | request hr hknown ih => exact ih.trans (hr.settled.linked.request hknown).2.1.symm
  | emit hr hemit ih =>
      obtain ⟨-, -, hemitted, -⟩ := hr.settled.linked.emit hemit
      rw [List.map_cons, List.sum_cons, ih, hemitted, Nat.add_comm]

theorem calls_subset (hr : Run ({}, m) calls s) : ∀ c ∈ calls, ∀ name ∈ c.after.2.data, name ∈ s.2.data := by
  induction hr with
  | start => simp
  | request _ _ ih => exact ih
  | @emit calls s s' n hr hemit ih =>
      obtain ⟨-, -, -, hkeeps, -⟩ := emitted_of_emit hemit
      intro c hc name hname
      rcases List.mem_cons.1 hc with rfl | hc
      · exact hname
      · obtain ⟨d, hd⟩ := Module.exists_of_mem (ih c hc name hname)
        exact Std.TreeMap.mem_iff_isSome_getElem?.2 (by rw [hkeeps name d hd]; rfl)

end Run

/-- What became of an emitted object: the initializer of its symbol holds it as it was before the call that emitted
it, and mentions the objects that it pointed to then. -/
structure Written (s : Heap × Module) (c : EmitCall) (k : Nat) (id : ObjectId) (o : HeapObject)
    (d : DataDefinition) : Prop where
  number : s.1.interned[k]? = some id
  stored : c.before.1.store[id]? = some o
  added : c.after.2.data[heapSymbol k]? = some d
  stays : s.2.data[heapSymbol k]? = some d
  holds : Holds s.1 d.type d.value o
  names : Names s.1 (o.PointsTo ·) d.value

theorem Run.written {m : Module} {calls : List EmitCall} {s : Heap × Module} (hr : Run ({}, m) calls s) {k : Nat}
    (hk : k < s.1.emitted) :
    ∃ c, calls.filter (·.defines (heapSymbol k)) = [c] ∧ ∃ id o d, Written s c k id o d := by
  induction hr with
  | start => cases hk
  | request hr hknown ih =>
      obtain ⟨-, hemitted, hinit⟩ := hr.settled.linked.request hknown
      have hkeeps := keeps_of_isPrefix hinit
      rw [hemitted] at hk
      obtain ⟨c, hc, id, o, d, hw⟩ := ih hk
      exact ⟨c, hc, id, o, d, hkeeps k id hw.number, hw.stored, hw.added, hw.stays, hw.holds.mono hkeeps,
        hw.names.mono hkeeps fun _ hp => hp⟩
  | @emit calls s s' n hr hemit ih =>
      have hsettled := hr.settled
      have hs := serializes_of_emit hsettled.linked hemit
      have hkeeps := keeps_of_isPrefix hs.emitted.interned
      rcases Nat.lt_or_ge k s.1.emitted with hold | hnew
      · have hmem : heapSymbol k ∈ s.2.data := hsettled.mem_data.2 (.inr ⟨k, hold, rfl⟩)
        have hnot : ¬ EmitCall.defines ⟨s, n, s'⟩ (heapSymbol k) = true :=
          fun hdef => (EmitCall.defines_iff.1 hdef).1 hmem
        obtain ⟨c, hc, id, o, d, hw⟩ := ih hold
        refine ⟨c, by rw [List.filter_cons, if_neg hnot, hc], id, o, d, ?_⟩
        exact ⟨hkeeps k id hw.number, hw.stored, hw.added, hs.emitted.keeps _ d hw.stays, hw.holds.mono hkeeps,
          hw.names.mono hkeeps fun _ hp => hp⟩
      · have hafter := hsettled.emit hemit
        have hnone : heapSymbol k ∉ s.2.data := by
          rw [hsettled.mem_data]
          rintro (hfirst | ⟨j, hj, heq⟩)
          · exact hafter.notMem_first hk hfirst
          · have := heapSymbol_inj heq
            omega
        have hdefines : EmitCall.defines ⟨s, n, s'⟩ (heapSymbol k) = true :=
          EmitCall.defines_iff.2 ⟨hnone, hafter.mem_data.2 (.inr ⟨k, hk, rfl⟩)⟩
        have hothers : calls.filter (·.defines (heapSymbol k)) = [] :=
          List.filter_eq_nil_iff.2 fun c hc hdef => hnone (hr.calls_subset c hc _ (EmitCall.defines_iff.1 hdef).2)
        have hcall : (⟨s, n, s'⟩ :: calls).filter (·.defines (heapSymbol k)) = [⟨s, n, s'⟩] := by
          rw [List.filter_cons, if_pos hdefines, hothers]
        have hroom : k < s'.1.interned.length := hk.trans_le hafter.within
        have hnumber : s'.1.interned[k]? = some s'.1.interned[k] := List.getElem?_eq_getElem hroom
        have hstored : s'.1.interned[k] < s'.1.store.size := hafter.linked.interned _ (List.getElem_mem hroom)
        have ho : s'.1.store[s'.1.interned[k]]? = some s'.1.store[s'.1.interned[k]] :=
          Array.getElem?_eq_getElem hstored
        obtain ⟨d, hd, hholds, -⟩ := hs.emitted.defined k hnew hk _ _ hnumber ho
        refine ⟨_, hcall, _, _, d, hnumber, ?_, hd, hd, hholds, ?_⟩
        · exact hs.emitted.store ▸ ho
        · exact hs.refers k _ _ d hnew hk hnumber ho hd

/-- What holds after a call of emission that follows on others. -/
structure Closure (m : Module) (earlier : List EmitCall) (c : EmitCall) : Prop where
  /-- The data is that of the numbers below the size of the heap, next to what was there at first. -/
  names : ∀ name, name ∈ c.after.2.data ↔ name ∈ m.data ∨ ∃ k < c.after.1.length, name = heapSymbol k
  fresh : ∀ k < c.after.1.length, heapSymbol k ∉ m.data
  bijection : Set.BijOn c.after.1.symbolOf {id | id ∈ c.after.1.interned}
    {name | ∃ k < c.after.1.length, name = heapSymbol k}
  /-- The objects are those that were interned and what is reached from them through objects that this call emits. -/
  interned : ∀ id, id ∈ c.after.1.interned ↔
    ∃ root ∈ c.before.1.interned, Relation.ReflTransGen c.before.1.Leads root id
  /-- One call wrote the initializer of an object, with the symbols of the objects that it pointed to then. -/
  written : ∀ id ∈ c.after.1.interned, ∃ call o d,
    (c :: earlier).filter (·.defines (c.after.1.symbolOf id)) = [call] ∧ call.before.1.store[id]? = some o ∧
      call.after.2.data[c.after.1.symbolOf id]? = some d ∧ c.after.2.data[c.after.1.symbolOf id]? = some d ∧
      Holds c.after.1 d.type d.value o ∧
      (∀ target, o.PointsTo target → target ∈ c.after.1.interned) ∧
      ∀ name ∈ d.value.symbols, name ∈ c.after.2.data ∧
        ∃ target ∈ c.after.1.interned, o.PointsTo target ∧ name = c.after.1.symbolOf target
  counts : ((c :: earlier).map (·.count)).sum = c.after.1.length

theorem Stores.interned {h : Heap} {type : IrType} {c : Constant} {offset size : Int} {id : ObjectId}
    (hs : Stores h type c offset size (.reference (some id))) : id ∈ h.interned := by
  obtain ⟨_, _, _, _, _, _, _, k, hk, _⟩ := hs
  exact List.mem_of_getElem? hk

theorem Holds.interned {h : Heap} {type : IrType} {c : Constant} {o : HeapObject} (hs : Holds h type c o)
    {id : ObjectId} (hid : o.PointsTo id) : id ∈ h.interned := by
  cases o with
  | instanceOf cls values =>
      obtain ⟨f, hf, hvalue⟩ := hid
      exact Stores.interned (hvalue ▸ (hs f hf).1)
  | arrayOf a =>
      obtain ⟨v, hv, rfl⟩ := hid
      obtain ⟨i, hi⟩ := List.getElem?_of_mem hv
      exact (hs.2.2 i _ hi).interned

/-- What an emission leads to is interned when it ends. -/
theorem Serializes.mem_of_leads {s s' : Heap × Module} (hs : Serializes s s')
    (hwithin : s.1.emitted ≤ s.1.interned.length) (hdone : s'.1.interned.length ≤ s'.1.emitted)
    {root id : ObjectId} (hroot : root ∈ s.1.interned) (hreach : Relation.ReflTransGen s.1.Leads root id) :
    id ∈ s'.1.interned := by
  induction hreach with
  | refl => exact hs.emitted.interned.subset hroot
  | @tail source target _ hleads ih =>
      obtain ⟨hpending, o, ho, hpoints⟩ := hleads
      obtain ⟨k, hk⟩ := List.getElem?_of_mem ih
      have hroom := (List.getElem?_eq_some_iff.1 hk).1
      have hnew : s.1.emitted ≤ k := by
        by_contra hlt
        obtain ⟨more, hmore⟩ := hs.emitted.interned
        rw [← hmore, List.getElem?_append_left (by omega)] at hk
        exact hpending (List.mem_of_getElem? ((List.getElem?_take_of_lt (by omega)).trans hk))
      obtain ⟨d, -, hholds, -⟩ := hs.emitted.defined k hnew (by omega) source o hk (hs.emitted.store ▸ ho)
      exact hholds.interned hpoints

theorem Run.symbolOf_stays {m : Module} {calls more : List EmitCall} {s s' : Heap × Module}
    (hr : Run ({}, m) calls s) (hmore : Run s more s') {id : ObjectId} (hid : id ∈ s.1.interned) :
    id ∈ s'.1.interned ∧ s'.1.symbolOf id = s.1.symbolOf id := by
  obtain ⟨hlinked, hinit, -⟩ := hmore.grows hr.settled.linked
  obtain ⟨k, -, hk, hsymbol⟩ := exists_number hr.settled.linked.nodup hid
  exact ⟨hinit.subset hid, (symbolOf_eq hlinked.nodup (keeps_of_isPrefix hinit k id hk)).trans hsymbol.symm⟩

theorem Run.closure {m : Module} {calls : List EmitCall} {s s' : Heap × Module} {n : Nat}
    (hr : Run ({}, m) calls s) (hemit : Heap.emit s = .ok n s') : Closure m calls ⟨s, n, s'⟩ := by
  have hrun := hr.emit hemit
  have hsettled := hrun.settled
  have hs := serializes_of_emit hr.settled.linked hemit
  obtain ⟨-, -, -, hall⟩ := hr.settled.linked.emit hemit
  have hdone : s'.1.emitted = s'.1.length := Nat.le_antisymm hsettled.within hall
  refine ⟨fun name => ?_, fun k hk => hsettled.notMem_first (hdone.symm ▸ hk), symbolOf_bijOn hsettled.linked.nodup,
    fun id => ⟨hs.reached id, ?_⟩, fun id hid => ?_, ?_⟩
  · exact hdone ▸ hsettled.mem_data
  · rintro ⟨root, hroot, hreach⟩
    exact hs.mem_of_leads hr.settled.within hall hroot hreach
  · obtain ⟨k, hlt, hk, hsymbol⟩ := exists_number hsettled.linked.nodup hid
    obtain ⟨call, hcall, id', o, d, hw⟩ := hrun.written (hdone.symm ▸ hlt)
    cases hk.symm.trans hw.number
    rw [hsymbol]
    refine ⟨call, o, d, hcall, hw.stored, hw.added, hw.stays, hw.holds, fun target => hw.holds.interned,
      fun name hname => ?_⟩
    obtain ⟨j, target, hj, hpoints, rfl⟩ := hw.names name hname
    refine ⟨hsettled.mem_data.2 (.inr ⟨j, ?_, rfl⟩), target, List.mem_of_getElem? hj, hpoints,
      (symbolOf_eq hsettled.linked.nodup hj).symm⟩
    exact hdone ▸ (List.getElem?_eq_some_iff.1 hj).1
  · exact hrun.counts.trans hdone

def applyAll (h : Heap) (requests : List Request) : Heap := requests.foldl Request.apply h

def AllKnown (h : Heap) : List Request → Prop
  | [] => True
  | r :: rest => r.Known h ∧ AllKnown (r.apply h) rest

theorem Run.applyAll {start : Heap × Module} {calls : List EmitCall} {h : Heap} {m : Module}
    {requests : List Request} (hr : Run start calls (h, m)) (hknown : AllKnown h requests) :
    Run start calls (Heap.applyAll h requests, m) := by
  induction requests generalizing h with
  | nil => exact hr
  | cons r rest ih => exact ih (hr.request hknown.1) hknown.2

end NativeBackend.Heap
