import Mathlib.Data.List.Perm.Subperm
import NativeBackend.Proofs.Heap.Emitted
import NativeBackend.Proofs.Ir.Symbols

namespace NativeBackend

namespace HeapObject

variable {o o' : HeapObject}

theorem RefersTo.setField {store : Array HeapObject} {name : String} {value : HeapValue}
    (h : o.setField store name value = .ok o') {id : ObjectId} (hid : o'.RefersTo id) :
    o.RefersTo id ∨ value.RefersTo id := by
  cases o with
  | arrayOf a => cases h
  | instanceOf cls values =>
      rw [HeapObject.setField] at h
      split at h
      · cases h
      · split at h
        · cases h
          obtain ⟨name', hmem⟩ := hid
          rcases List.mem_cons.1 hmem with heq | hmem
          · cases heq
            exact .inr rfl
          · exact .inl ⟨name', (List.mem_filter.1 hmem).1⟩
        · cases h

theorem RefersTo.setElement {index : Nat} {value : Option ObjectId} (h : o.setElement index value = .ok o')
    {id : ObjectId} (hid : o'.RefersTo id) : o.RefersTo id ∨ value = some id := by
  unfold HeapObject.setElement at h
  split at h
  · split at h
    · cases h
      obtain ⟨v, hv, rfl⟩ := hid
      obtain ⟨target, htarget, heq⟩ := List.mem_map.1 hv
      cases heq
      rcases List.mem_or_eq_of_mem_set htarget with hmem | heq
      · exact .inl ⟨_, List.mem_map_of_mem hmem, rfl⟩
      · exact .inr heq.symm
    · cases h
  · cases h

theorem not_refersTo_of_create {cls : ClassDef} (h : create cls = .ok o) (id : ObjectId) : ¬ o.RefersTo id := by
  rw [create] at h
  split at h
  · cases h
    rintro ⟨name, hmem⟩
    cases hmem
  · cases h
  · cases h

end HeapObject

namespace Heap

open Steps

/-- A heap as it is made before anything is emitted: objects are allocated, linked to objects that are there, and
interned. -/
inductive Prepared (p : Program) : Heap → Prop
  | fresh : Prepared p {}
  | allocate {h : Heap} {o : HeapObject} : Prepared p h → (∀ id, o.RefersTo id → id < h.store.size) →
      Prepared p (h.allocate o).2
  | setField {h h' : Heap} {id : ObjectId} {name : String} {value : HeapValue} : Prepared p h →
      (∀ target, value.RefersTo target → target < h.store.size) →
      h.update id (·.setField h.store name value) = .ok h' → Prepared p h'
  | setElement {h h' : Heap} {id : ObjectId} {index : Nat} {value : Option ObjectId} : Prepared p h →
      (∀ target, value = some target → target < h.store.size) → h.update id (·.setElement index value) = .ok h' →
      Prepared p h'
  | intern {h : Heap} {id : ObjectId} : Prepared p h → id < h.store.size → Prepared p (h.intern id).2
  | internString {h h' : Heap} {value : String} {number : Nat} : Prepared p h →
      Heap.internString p value h = .ok number h' → Prepared p h'

/-- Numbers and references are those of objects in the store. -/
structure Linked (h : Heap) : Prop where
  nodup : h.interned.Nodup
  interned : ∀ id ∈ h.interned, id < h.store.size
  refers : ∀ (id : ObjectId) o, h.store[id]? = some o → ∀ target, o.RefersTo target → target < h.store.size

theorem update_run {h h' : Heap} {id : ObjectId} {change : HeapObject → Except Error HeapObject}
    (hupdate : h.update id change = .ok h') :
    h' = h ∨ ∃ o o', h.store[id]? = some o ∧ change o = .ok o' ∧
      h' = { h with store := h.store.setIfInBounds id o' } := by
  rw [update] at hupdate
  cases hid : h.store[id]? with
  | none =>
      simp only [hid] at hupdate
      cases hupdate
      exact .inl rfl
  | some o =>
      simp only [hid] at hupdate
      cases ho : change o with
      | error e =>
          simp only [ho] at hupdate
          cases hupdate
      | ok o' =>
          simp only [ho] at hupdate
          cases hupdate
          exact .inr ⟨o, o', rfl, ho, rfl⟩

namespace Linked

variable {h h' : Heap}

theorem allocate (hl : Linked h) {o : HeapObject} (ho : ∀ id, o.RefersTo id → id < h.store.size) :
    Linked (h.allocate o).2 := by
  have hsize : (h.allocate o).2.store.size = h.store.size + 1 := Array.size_push _
  refine ⟨hl.nodup, fun id hid => ?_, fun id o' ho' target htarget => ?_⟩
  · rw [hsize]
    exact Nat.lt_succ_of_lt (hl.interned id hid)
  · rw [hsize]
    refine Nat.lt_succ_of_lt ?_
    simp only [Heap.allocate, Array.getElem?_push] at ho'
    split at ho'
    · cases ho'
      exact ho target htarget
    · exact hl.refers id o' ho' target htarget

theorem update (hl : Linked h) {id : ObjectId} {change : HeapObject → Except Error HeapObject}
    (hchange : ∀ o o', change o = .ok o' → ∀ target, o'.RefersTo target →
      o.RefersTo target ∨ target < h.store.size)
    (hupdate : h.update id change = .ok h') : Linked h' := by
  rcases update_run hupdate with rfl | ⟨o, o', hid, ho, rfl⟩
  · exact hl
  · refine ⟨hl.nodup, by simpa using hl.interned, fun other o₂ ho₂ target htarget => ?_⟩
    dsimp only at ho₂ ⊢
    rw [Array.size_setIfInBounds]
    rw [Array.getElem?_setIfInBounds] at ho₂
    split at ho₂
    · split at ho₂
      · cases ho₂
        exact (hchange o o' ho target htarget).elim (hl.refers id o hid target) (·)
      · cases ho₂
    · exact hl.refers other o₂ ho₂ target htarget

theorem extend {new : ObjectId → Prop} (hl : Linked h) (he : Extends new h h')
    (hnew : ∀ id, new id → id < h.store.size) : Linked h' := by
  obtain ⟨more, hmore, hall⟩ := he.interned
  refine ⟨he.nodup hl.nodup, fun id hid => ?_, ?_⟩
  · rw [he.store]
    rw [hmore] at hid
    exact (List.mem_append.1 hid).elim (hl.interned id) fun hid => hnew id (hall id hid)
  · rw [he.store]
    exact hl.refers

theorem intern (hl : Linked h) {id : ObjectId} (hid : id < h.store.size) : Linked (h.intern id).2 :=
  hl.extend (h.intern_extends id).1 fun _ heq => heq ▸ hid

theorem length_le (hl : Linked h) : h.interned.length ≤ h.store.size := by
  have hsubset : h.interned ⊆ List.range h.store.size := fun id hid => List.mem_range.2 (hl.interned id hid)
  simpa using (hl.nodup.subperm hsubset).length_le

end Linked

theorem not_refersTo_of_stringContents {value : String} {d : Descriptor} {contents : HeapArray}
    (h : stringContents value d = .ok contents) (id : ObjectId) : ¬ (HeapObject.arrayOf contents).RefersTo id := by
  rintro ⟨v, hv, rfl⟩
  unfold stringContents at h
  split at h <;> cases h <;> simp [HeapArray.values] at hv

/-- A new string is an array of its characters and an instance that refers to it. Otherwise the heap stays. -/
theorem internString_run {p : Program} {value : String} {h : Heap} {r : EStateM.Result Error Heap Nat}
    (hstring : internString p value h = r) :
    (∃ e, r = .error e h) ∨ (∃ number, r = .ok number h) ∨ ∃ contents o strings number,
      (∀ id, ¬ (HeapObject.arrayOf contents).RefersTo id) ∧ (∀ id, o.RefersTo id → id = h.store.size) ∧
      r = .ok number { (((h.allocate (.arrayOf contents)).2.allocate o).2.intern
        ((h.allocate (.arrayOf contents)).2.allocate o).1).2 with strings := strings } := by
  rw [internString, bind_of_ok (get_apply h)] at hstring
  rcases hlookup : h.strings.lookup value with _ | k
  · rw [hlookup] at hstring
    rcases hcls : p.class? "java/lang/String" with _ | cls
    · rw [hcls] at hstring
      exact .inl ⟨_, hstring.symm⟩
    rw [hcls] at hstring
    dsimp only at hstring
    rw [bind_of_ok (pure_apply _ _)] at hstring
    rcases hobject : HeapObject.create cls with e | o
    · rw [hobject] at hstring
      exact .inl ⟨_, hstring.symm⟩
    rw [hobject] at hstring
    dsimp only at hstring
    rw [bind_of_ok (pure_apply _ _)] at hstring
    rcases hfield : cls.instanceField? "value" with _ | field
    · rw [hfield] at hstring
      exact .inl ⟨_, hstring.symm⟩
    rw [hfield] at hstring
    dsimp only at hstring
    rw [bind_of_ok (pure_apply _ _)] at hstring
    rcases hcontents : stringContents value field.descriptor with e | contents
    · rw [hcontents] at hstring
      exact .inl ⟨_, hstring.symm⟩
    rw [hcontents] at hstring
    dsimp only at hstring
    rw [bind_of_ok (pure_apply _ _)] at hstring
    rcases hset : o.setField (h.allocate (.arrayOf contents)).2.store "value"
        (.reference (some (h.allocate (.arrayOf contents)).1)) with e | string
    · rw [hset] at hstring
      exact .inl ⟨_, hstring.symm⟩
    rw [hset] at hstring
    refine .inr (.inr ⟨contents, string, _, _, not_refersTo_of_stringContents hcontents, fun id hid => ?_,
      hstring.symm⟩)
    rcases hid.setField hset with hid | hid
    · exact absurd hid (HeapObject.not_refersTo_of_create hobject id)
    · cases hid
      rfl
  · rw [hlookup] at hstring
    exact .inr (.inl ⟨_, hstring.symm⟩)

theorem Linked.internString {p : Program} {value : String} {h h' : Heap} {number : Nat} (hl : Linked h)
    (hstring : Heap.internString p value h = .ok number h') :
    Linked h' ∧ h'.emitted = h.emitted ∧ h.interned <+: h'.interned := by
  rcases internString_run hstring with ⟨e, he⟩ | ⟨_, heq⟩ | ⟨contents, o, strings, _, hcontents, ho, heq⟩
  · cases he
  · cases heq
    exact ⟨hl, rfl, List.prefix_rfl⟩
  cases heq
  have harray := hl.allocate fun id hid => absurd hid (hcontents id)
  have hsize : (h.allocate (.arrayOf contents)).2.store.size = h.store.size + 1 := Array.size_push _
  have hobject := harray.allocate (o := o) fun id hid => by
    rw [ho id hid, hsize]
    exact Nat.lt_succ_self _
  have hnumber : Linked (((h.allocate (.arrayOf contents)).2.allocate o).2.intern
      ((h.allocate (.arrayOf contents)).2.allocate o).1).2 := by
    refine hobject.intern ?_
    rw [Heap.allocate, Array.size_push]
    exact Nat.lt_succ_self _
  have hextends := (intern_extends ((h.allocate (.arrayOf contents)).2.allocate o).2
    ((h.allocate (.arrayOf contents)).2.allocate o).1).1
  obtain ⟨more, hmore, -⟩ := hextends.interned
  exact ⟨⟨hnumber.nodup, hnumber.interned, hnumber.refers⟩, hextends.emitted, more, hmore.symm⟩

theorem Prepared.linked {p : Program} {h : Heap} (hp : Prepared p h) : Linked h ∧ h.emitted = 0 := by
  induction hp with
  | fresh => exact ⟨⟨List.nodup_nil, by simp, by simp⟩, rfl⟩
  | allocate _ ho ih => exact ⟨ih.1.allocate ho, ih.2⟩
  | setField _ hvalue hupdate ih =>
      refine ⟨ih.1.update (fun o o' hset target htarget => ?_) hupdate, ?_⟩
      · exact (htarget.setField hset).imp_right (hvalue target)
      · rcases update_run hupdate with rfl | ⟨_, _, _, _, rfl⟩ <;> exact ih.2
  | setElement _ hvalue hupdate ih =>
      refine ⟨ih.1.update (fun o o' hset target htarget => ?_) hupdate, ?_⟩
      · exact (htarget.setElement hset).imp_right (hvalue target)
      · rcases update_run hupdate with rfl | ⟨_, _, _, _, rfl⟩ <;> exact ih.2
  | @intern h id _ hid ih => exact ⟨ih.1.intern hid, (h.intern_extends id).1.emitted.trans ih.2⟩
  | internString _ hstring ih =>
      obtain ⟨hlinked, hemitted, -⟩ := ih.1.internString hstring
      exact ⟨hlinked, hemitted.trans ih.2⟩

def Numbered (h : Heap) (c : Constant) : Prop := ∀ name ∈ c.symbols, ∃ k < h.interned.length, name = heapSymbol k

def Names (h : Heap) (kind : ObjectId → Prop) (c : Constant) : Prop :=
  ∀ name ∈ c.symbols, ∃ k id, h.interned[k]? = some id ∧ kind id ∧ name = heapSymbol k

variable {h h' : Heap} {kind kind' : ObjectId → Prop} {type : IrType} {c : Constant}

theorem Names.mono (hc : Names h kind c) (hkeeps : Keeps h h') (himp : ∀ id, kind id → kind' id) :
    Names h' kind' c := by
  intro name hname
  obtain ⟨k, id, hk, hid, rfl⟩ := hc name hname
  exact ⟨k, id, hkeeps k id hk, himp id hid, rfl⟩

theorem Names.numbered (hc : Names h kind c) : Numbered h c := by
  intro name hname
  obtain ⟨k, id, hk, -, rfl⟩ := hc name hname
  exact ⟨k, (List.getElem?_eq_some_iff.1 hk).1, rfl⟩

theorem names_of_nil (hc : c.symbols = []) : Names h kind c := by
  rw [Names, hc]
  simp

theorem StoredAs.names {value : HeapValue} (hs : StoredAs h value type c) : Names h value.RefersTo c := by
  cases value with
  | reference target =>
      obtain ⟨-, hrefers⟩ := hs
      cases target with
      | none => exact names_of_nil (by rw [show c = .null from hrefers, Constant.symbols])
      | some id =>
          obtain ⟨k, hk, rfl⟩ := hrefers
          intro name hname
          rw [Constant.symbols, List.mem_singleton] at hname
          exact ⟨k, id, hk, rfl, hname⟩
  | float bits =>
      obtain ⟨-, wide, rfl, -⟩ := hs
      exact names_of_nil (by rw [Constant.symbols])
  | _ =>
      obtain ⟨-, rfl⟩ := hs
      exact names_of_nil (by rw [Constant.symbols])

theorem fieldLiterals_names {cls : ClassDef} {values : List (String × HeapValue)} {finish cursor : Int}
    {fs : List Field} {literals : List (IrType × Constant)}
    (hf : fieldLiterals cls values finish cursor fs h = .ok literals h') :
    Keeps h h' ∧ ∀ p ∈ literals, Names h' (fun id => ∃ f ∈ fs, (fieldValue values f).RefersTo id) p.2 := by
  have hpadding : ∀ (h : Heap) kind n, ∀ p ∈ padding n, Names h kind p.2 := by
    intro h kind n p hp
    rw [padding] at hp
    split at hp
    · rw [List.mem_singleton.1 hp]
      exact names_of_nil (by rw [Constant.symbols])
    · cases hp
  induction fs generalizing cursor h literals with
  | nil =>
      cases hf
      exact ⟨fun _ _ hk => hk, hpadding _ _ _⟩
  | cons f rest ih =>
      rw [fieldLiterals] at hf
      split at hf
      · cases hf
      obtain ⟨⟨type, c⟩, h₁, hvalue, hf⟩ := bind_eq_ok.1 hf
      obtain ⟨literals', h₂, hrest, hdone⟩ := bind_eq_ok.1 hf
      cases hdone
      obtain ⟨hextends, hstored, -⟩ := valueLiteral_eq_ok hvalue
      obtain ⟨hkeeps, hall⟩ := ih hrest
      refine ⟨fun k id hk => hkeeps k id (hextends.keeps k id hk), fun p hp => ?_⟩
      rcases List.mem_append.1 hp with hp | hp
      · exact hpadding _ _ _ p hp
      · rcases List.mem_cons.1 hp with rfl | hp
        · exact hstored.names.mono hkeeps fun id hid => ⟨f, List.mem_cons_self, hid⟩
        · refine (hall p hp).mono (fun _ _ hk => hk) ?_
          rintro id ⟨g, hg, hid⟩
          exact ⟨g, List.mem_cons_of_mem _ hg, hid⟩

theorem literal_names {o : HeapObject} (hl : literal o h = .ok (type, c) h') : Names h' (o.PointsTo ·) c := by
  cases o with
  | instanceOf cls values =>
      obtain ⟨literals, h₁, hfields, hdone⟩ := bind_eq_ok.1 hl
      cases hdone
      obtain ⟨-, hall⟩ := fieldLiterals_names hfields
      intro name hname
      rw [Constant.symbols, Constant.mem_fieldSymbols] at hname
      obtain ⟨p, hp, hname⟩ := hname
      rcases List.mem_cons.1 hp with rfl | hp
      · rw [Constant.symbols] at hname
        cases hname
      · obtain ⟨k, id, hk, ⟨f, hf, hid⟩, hnumber⟩ := hall p hp name hname
        exact ⟨k, id, hk, ⟨f, List.mem_mergeSort.1 hf, hid⟩, hnumber⟩
  | arrayOf a =>
      obtain ⟨⟨element, cs⟩, h₁, helements, hdone⟩ := bind_eq_ok.1 hl
      cases hdone
      obtain ⟨-, hall, -⟩ := elementLiterals_eq_ok helements
      intro name hname
      rw [Constant.symbols, Constant.mem_fieldSymbols] at hname
      obtain ⟨p, hp, hname⟩ := hname
      simp only [List.mem_cons, List.not_mem_nil, or_false] at hp
      rcases hp with rfl | rfl | rfl
      · rw [Constant.symbols] at hname
        cases hname
      · rw [Constant.symbols] at hname
        cases hname
      · dsimp only at hname
        split at hname
        · rw [Constant.symbols] at hname
          cases hname
        · rw [Constant.symbols, Constant.mem_elementSymbols] at hname
          obtain ⟨c, hc, hname⟩ := hname
          obtain ⟨i, hi, rfl⟩ := List.getElem_of_mem hc
          have hvalue : i < a.values.length := hall.length_eq.symm ▸ hi
          obtain ⟨k, id, hk, hid, hnumber⟩ := (hall.get hvalue hi).names name hname
          exact ⟨k, id, hk, ⟨a.values[i], List.getElem_mem hvalue, hid⟩, hnumber⟩

theorem literal_numbered {o : HeapObject} (hl : literal o h = .ok (type, c) h') : Numbered h' c :=
  (literal_names hl).numbered

section

variable {s s' : Heap × Module} {id : ObjectId}

theorem Linked.serialized (hl : Linked s.1) (hid : s.1.interned[s.1.emitted]? = some id)
    (hnext : Heap.emitNext id s = .ok () s') :
    ∃ o type value, s.1.store[id]? = some o ∧
      literal o { s.1 with emitted := s.1.emitted + 1 } = .ok (type, value) s'.1 ∧
      s.2.addVariable (heapSymbol s.1.emitted) type value .internal = .ok s'.2 := by
  have hstored : id < s.1.store.size := hl.interned id (List.mem_of_getElem? hid)
  rcases emitNext_eq_ok hnext with ⟨hnone, -⟩ | hsome
  · rw [Array.getElem?_eq_getElem hstored] at hnone
    cases hnone
  · exact hsome

theorem Linked.emitNext (hl : Linked s.1) (hid : s.1.interned[s.1.emitted]? = some id)
    (hnext : Heap.emitNext id s = .ok () s') :
    Linked s'.1 ∧ s'.1.emitted = s.1.emitted + 1 ∧ s'.1.store = s.1.store := by
  obtain ⟨o, type, value, ho, hliteral, -⟩ := hl.serialized hid hnext
  obtain ⟨hextends, -, -⟩ := literal_eq_ok hliteral
  have hstart : Linked { s.1 with emitted := s.1.emitted + 1 } := ⟨hl.nodup, hl.interned, hl.refers⟩
  exact ⟨hstart.extend hextends fun target htarget => hl.refers id o ho target htarget.refersTo, hextends.emitted,
    hextends.store⟩

theorem Linked.emitFrom (hl : Linked s.1) {steps n : Nat} (h : Heap.emitFrom steps s = .ok n s') :
    Linked s'.1 ∧ s'.1.store = s.1.store ∧ s'.1.emitted = s.1.emitted + n ∧
      (s'.1.interned.length ≤ s'.1.emitted ∨ n = steps) := by
  induction steps generalizing s n with
  | zero =>
      cases h
      exact ⟨hl, rfl, rfl, .inr rfl⟩
  | succ steps ih =>
      cases hid : s.1.interned[s.1.emitted]? with
      | none =>
          rw [emitFrom_of_none steps hid] at h
          cases h
          exact ⟨hl, rfl, rfl, .inl (List.getElem?_eq_none_iff.1 hid)⟩
      | some id =>
          rw [emitFrom_of_some steps hid] at h
          obtain ⟨_, s₁, hnext, h₁⟩ := bind_eq_ok.1 h
          obtain ⟨n', s₂, hrest, hdone⟩ := bind_eq_ok.1 h₁
          cases hdone
          obtain ⟨hlinked, hemitted, hstore⟩ := hl.emitNext hid hnext
          obtain ⟨hlinked', hstore', hemitted', hend⟩ := ih hlinked hrest
          refine ⟨hlinked', hstore'.trans hstore, ?_, hend.imp_right fun hend => by rw [hend]⟩
          rw [hemitted', hemitted]
          omega

/-- The steps that emission is given are enough to get to the end. -/
theorem Linked.emit (hl : Linked s.1) {n : Nat} (h : Heap.emit s = .ok n s') :
    Linked s'.1 ∧ s'.1.store = s.1.store ∧ s'.1.emitted = s.1.emitted + n ∧
      s'.1.interned.length ≤ s'.1.emitted := by
  obtain ⟨hlinked, hstore, hemitted, hend⟩ := hl.emitFrom ((emit_apply s).symm.trans h)
  refine ⟨hlinked, hstore, hemitted, hend.elim id fun hend => ?_⟩
  have hlength := hlinked.length_le
  rw [hstore, ← hend] at hlength
  omega

end

/-- A module while objects are added to it: what is mentioned and not known belongs to an interned object, and
what was emitted is known. -/
structure Fills (start : Module) (s : Heap × Module) : Prop where
  linked : Linked s.1
  functions : s.2.functions = start.functions
  named : s.2.Named
  mentions : ∀ name, s.2.Mentions name → s.2.Knows name ∨ ∃ k < s.1.interned.length, name = heapSymbol k
  emitted : ∀ k < s.1.emitted, s.2.Knows (heapSymbol k)

section

variable {start : Module} {s s' : Heap × Module}

theorem Fills.emitNext (hs : Fills start s) {id : ObjectId} (hid : s.1.interned[s.1.emitted]? = some id)
    (hnext : Heap.emitNext id s = .ok () s') : Fills start s' := by
  obtain ⟨o, type, value, ho, hl, hadd⟩ := hs.linked.serialized hid hnext
  obtain ⟨hlinked, hemitted, -⟩ := hs.linked.emitNext hid hnext
  obtain ⟨hextends, -, -⟩ := literal_eq_ok hl
  obtain ⟨hfunctions, -, hknows, hknown⟩ := Module.define_eq_ok hadd
  refine ⟨hlinked, hfunctions.trans hs.functions, hs.named.define hadd, fun name hname => ?_, fun k hk => ?_⟩
  · rcases Module.mentions_define hadd hname with hold | hnew
    · refine (hs.mentions name hold).imp (hknows name) ?_
      rintro ⟨k, hk, rfl⟩
      obtain ⟨more, hmore, -⟩ := hextends.interned
      refine ⟨k, ?_, rfl⟩
      rw [hmore, List.length_append]
      exact Nat.lt_add_right _ hk
    · exact .inr (literal_numbered hl name hnew)
  · rw [hemitted] at hk
    rcases Nat.lt_succ_iff_lt_or_eq.1 hk with hk | rfl
    · exact hknows _ (hs.emitted k hk)
    · exact hknown

/-- Emitting a prepared heap adds data only, and leaves no symbol without its definition or declaration. -/
theorem emit_closed {p : Program} {h h' : Heap} {m m' : Module} {n : Nat} (hp : Prepared p h) (hnamed : m.Named)
    (hclosed : m.Closed) (hemit : emit (h, m) = .ok n (h', m')) :
    m'.Closed ∧ m'.Named ∧ m'.functions = m.functions := by
  obtain ⟨hlinked, hnone⟩ := hp.linked
  have hstart : Fills m (h, m) :=
    ⟨hlinked, rfl, hnamed, fun name hname => .inl (hclosed name hname), fun k hk => by
      rw [hnone] at hk
      cases hk⟩
  have hfills := emitFrom_induct (fun _ _ _ hs hid hnext => (hs.emitNext hid hnext)) hstart
    ((emit_apply (h, m)).symm.trans hemit)
  obtain ⟨-, -, -, hall⟩ := hlinked.emit (s := (h, m)) hemit
  refine ⟨fun name hname => ?_, hfills.named, hfills.functions⟩
  rcases hfills.mentions name hname with hknown | ⟨k, hk, rfl⟩
  · exact hknown
  · exact hfills.emitted k (Nat.lt_of_lt_of_le hk hall)

end

end Heap

end NativeBackend
