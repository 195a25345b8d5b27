import NativeBackend.Proofs.Heap.Literal
import NativeBackend.Proofs.Maps

namespace NativeBackend

def HeapObject.RefersTo (id : ObjectId) : HeapObject → Prop
  | .instanceOf _ values => ∃ name, (name, .reference (some id)) ∈ values
  | .arrayOf a => ∃ v ∈ a.values, v.RefersTo id

/-- The objects that an object's fields or elements refer to. A value under the name of no field does not count. -/
def HeapObject.PointsTo (id : ObjectId) : HeapObject → Prop
  | .instanceOf cls values => ∃ f ∈ cls.instanceFields, (Heap.fieldValue values f).RefersTo id
  | .arrayOf a => ∃ v ∈ a.values, v.RefersTo id

theorem HeapObject.PointsTo.refersTo {o : HeapObject} {id : ObjectId} (h : o.PointsTo id) : o.RefersTo id := by
  cases o with
  | instanceOf cls values =>
      obtain ⟨f, -, hf⟩ := h
      exact Heap.fieldValue_refersTo hf
  | arrayOf a => exact h

def HeapObject.Built : HeapObject → Prop
  | .instanceOf cls _ => cls.Built
  | .arrayOf _ => True

theorem HeapArray.members_layout (a : HeapArray) : a.layout.members =
    [⟨"typeId", 0, .unsigned 4, 4⟩, ⟨"length", 4, .signed 4, 4⟩,
      ⟨"content", 8, .array a.elementType a.length, a.elementType.align⟩] := by
  cases a <;> rfl

theorem HeapArray.size_layout (a : HeapArray) :
    a.layout.size = alignUp (8 + a.elementType.size * a.length) (max 4 a.elementType.align) := by
  cases a <;> rfl

namespace Heap

open Steps

/-- An initializer holds what an object consists of, every part at its place and of its kind. -/
def Holds (h : Heap) (type : IrType) (c : Constant) : HeapObject → Prop
  | .instanceOf cls values => ∀ f ∈ cls.instanceFields, Stores h type c f.offset f.size (fieldValue values f) ∧
      (fieldValue values f).fits f.descriptor = true
  | .arrayOf a => (0, .i32, .int a.typeId) ∈ Constant.scalars 0 type c ∧
      (4, .i32, .int a.length) ∈ Constant.scalars 0 type c ∧
      ∀ (i : Nat) v, a.values[i]? = some v →
        Stores h type c (8 + i * a.elementType.size) a.elementType.size v

section

variable {h h' : Heap} (hkeeps : Keeps h h')

include hkeeps

theorem Stores.mono {type : IrType} {c : Constant} {offset size : Int} {value : HeapValue}
    (hs : Stores h type c offset size value) : Stores h' type c offset size value := by
  obtain ⟨start, t, k, hmem, hstart, hsize, hstored⟩ := hs
  exact ⟨start, t, k, hmem, hstart, hsize, hstored.mono hkeeps⟩

theorem Holds.mono {type : IrType} {c : Constant} {o : HeapObject} (hs : Holds h type c o) :
    Holds h' type c o := by
  cases o with
  | instanceOf cls values => exact fun f hf => ⟨(hs f hf).1.mono hkeeps, (hs f hf).2⟩
  | arrayOf a => exact ⟨hs.1, hs.2.1, fun i v hv => (hs.2.2 i v hv).mono hkeeps⟩

end

theorem literal_eq_ok {o : HeapObject} {h h' : Heap} {type : IrType} {c : Constant}
    (hl : literal o h = .ok (type, c) h') :
    Extends (o.PointsTo ·) h h' ∧ Holds h' type c o ∧ (o.Built → (type.size : Int) = o.pointee.size) := by
  cases o with
  | instanceOf cls values => exact instanceLiteral_eq_ok hl
  | arrayOf a =>
      obtain ⟨hextends, htypeId, hlength, helements, hsize⟩ := arrayLiteral_eq_ok hl
      exact ⟨hextends, ⟨htypeId, hlength, helements⟩, fun _ => hsize.trans a.size_layout.symm⟩

/-- What emission has come to: objects keep their numbers, data that was there stays, and each object that was
emitted on the way has its initializer. -/
structure Emitted (start now : Heap × Module) : Prop where
  store : now.1.store = start.1.store
  interned : start.1.interned <+: now.1.interned
  advances : start.1.emitted ≤ now.1.emitted
  keeps : ∀ (name : String) d, start.2.data[name]? = some d → now.2.data[name]? = some d
  defined : ∀ k, start.1.emitted ≤ k → k < now.1.emitted → ∀ id o, now.1.interned[k]? = some id →
    now.1.store[id]? = some o → ∃ d, now.2.data[heapSymbol k]? = some d ∧ Holds now.1 d.type d.value o ∧
      (o.Built → (d.type.size : Int) = o.pointee.size)

theorem Emitted.refl (s : Heap × Module) : Emitted s s :=
  ⟨rfl, List.prefix_rfl, Nat.le_refl _, fun _ _ hd => hd, fun k hle hlt => absurd hlt (by omega)⟩

theorem addVariable_eq_ok {m m' : Module} {name : String} {type : IrType} {value : Constant} {linkage : Linkage}
    (h : m.addVariable name type value linkage = .ok m') :
    m'.data[name]? = some ⟨name, type, value, linkage, false⟩ ∧
      ∀ (other : String) d, m.data[other]? = some d → m'.data[other]? = some d := by
  rw [Module.addVariable, Module.define] at h
  split at h
  · cases h
  · rename_i hnew
    cases h
    refine ⟨Std.TreeMap.getElem?_insert_self, fun other d hd => ?_⟩
    exact Maps.getElem?_insert_of_new (Std.TreeMap.getElem?_eq_none (mt Std.TreeMap.mem_iff_contains.1 hnew)) hd

theorem emitNext_eq_ok {h : Heap} {m : Module} {id : ObjectId} {s' : Heap × Module}
    (hnext : emitNext id (h, m) = .ok () s') :
    (h.store[id]? = none ∧ s' = ({ h with emitted := h.emitted + 1 }, m)) ∨
      ∃ o type value, h.store[id]? = some o ∧
        literal o { h with emitted := h.emitted + 1 } = .ok (type, value) s'.1 ∧
        m.addVariable (heapSymbol h.emitted) type value .internal = .ok s'.2 := by
  rw [emitNext] at hnext
  cases ho : h.store[id]? with
  | none =>
      simp only [ho] at hnext
      cases hnext
      exact .inl ⟨rfl, rfl⟩
  | some o =>
      simp only [ho] at hnext
      cases hl : literal o { h with emitted := h.emitted + 1 } with
      | error e h₁ =>
          simp only [hl] at hnext
          cases hnext
      | ok literal h₁ =>
          obtain ⟨type, value⟩ := literal
          simp only [hl] at hnext
          cases hadd : m.addVariable (heapSymbol h.emitted) type value .internal with
          | error e =>
              simp only [hadd] at hnext
              cases hnext
          | ok m' =>
              simp only [hadd] at hnext
              cases hnext
              exact .inr ⟨o, type, value, rfl, hl, hadd⟩

theorem Emitted.emitNext {start s s' : Heap × Module} (hs : Emitted start s) {id : ObjectId}
    (hid : s.1.interned[s.1.emitted]? = some id) (hnext : Heap.emitNext id s = .ok () s') : Emitted start s' := by
  obtain ⟨h, m⟩ := s
  have hadvance : ∀ k, k < h.emitted + 1 → k < h.emitted ∨ k = h.emitted := fun k hk => by omega
  rcases emitNext_eq_ok hnext with ⟨ho, rfl⟩ | ⟨o, type, value, ho, hl, hadd⟩
  · refine ⟨hs.store, hs.interned, Nat.le_succ_of_le hs.advances, hs.keeps, fun k hle hlt id' o' hid' ho' => ?_⟩
    rcases hadvance k hlt with hlt | rfl
    · exact hs.defined k hle hlt id' o' hid' ho'
    · cases hid.symm.trans hid'
      cases ho.symm.trans ho'
  · obtain ⟨hextends, hholds, hsize⟩ := literal_eq_ok hl
    obtain ⟨hdata, hkeeps⟩ := addVariable_eq_ok hadd
    obtain ⟨more, hmore, -⟩ := hextends.interned
    refine ⟨hextends.store.trans hs.store, hs.interned.trans ⟨more, hmore.symm⟩, ?_,
      fun name d hd => hkeeps name d (hs.keeps name d hd), fun k hle hlt id' o' hid' ho' => ?_⟩
    · rw [hextends.emitted]
      exact Nat.le_succ_of_le hs.advances
    · replace hlt : k < h.emitted + 1 := hlt.trans_eq hextends.emitted
      replace ho' : h.store[id']? = some o' := hextends.store ▸ ho'
      have hroom : h.emitted < h.interned.length := (List.getElem?_eq_some_iff.1 hid).1
      have hnumbered : k < h.interned.length := by omega
      have hsame : h.interned[k]? = some id' := by
        rw [← hid', hmore, List.getElem?_append_left hnumbered]
      rcases hadvance k hlt with hlt | rfl
      · obtain ⟨d, hd, hholds', hsize'⟩ := hs.defined k hle hlt id' o' hsame ho'
        exact ⟨d, hkeeps _ d hd, hholds'.mono hextends.keeps, hsize'⟩
      · cases hid.symm.trans hsame
        cases ho.symm.trans ho'
        exact ⟨_, hdata, hholds, hsize⟩

section

variable {s : Heap × Module} (steps : Nat)

theorem emitFrom_of_none (hid : s.1.interned[s.1.emitted]? = none) : emitFrom (steps + 1) s = .ok 0 s := by
  rw [emitFrom, bind_of_ok (get_apply s)]
  simp only [hid]
  rfl

theorem emitFrom_of_some {id : ObjectId} (hid : s.1.interned[s.1.emitted]? = some id) :
    emitFrom (steps + 1) s = (Heap.emitNext id >>= fun _ => emitFrom steps >>= fun n => pure (n + 1)) s := by
  rw [emitFrom, bind_of_ok (get_apply s)]
  simp only [hid]

end

/-- What each emission of an object keeps holds after any number of them. -/
theorem emitFrom_induct {P : Heap × Module → Prop}
    (hstep : ∀ s s' id, P s → s.1.interned[s.1.emitted]? = some id → Heap.emitNext id s = .ok () s' → P s')
    {s s' : Heap × Module} (hs : P s) {steps n : Nat} (h : emitFrom steps s = .ok n s') : P s' := by
  induction steps generalizing s n with
  | zero =>
      cases h
      exact hs
  | succ steps ih =>
      cases hid : s.1.interned[s.1.emitted]? with
      | none =>
          rw [emitFrom_of_none steps hid] at h
          cases h
          exact hs
      | some id =>
          rw [emitFrom_of_some steps hid] at h
          obtain ⟨_, s₁, hnext, h⟩ := bind_eq_ok.1 h
          obtain ⟨n', s₂, hrest, hdone⟩ := bind_eq_ok.1 h
          cases hdone
          exact ih (hstep s s₁ id hs hid hnext) hrest

theorem emit_apply (s : Heap × Module) : emit s = emitFrom s.1.store.size s := bind_of_ok (get_apply s) _

theorem emitted_of_emit {s s' : Heap × Module} {n : Nat} (h : emit s = .ok n s') : Emitted s s' :=
  emitFrom_induct (fun _ _ _ hs => hs.emitNext) (Emitted.refl s) ((emit_apply s).symm.trans h)

end Heap

end NativeBackend
