import NativeBackend.Proofs.Heap.Failures
import NativeBackend.Proofs.Text.Decoding
import NativeBackend.Types.Target

namespace NativeBackend

def Constant.int? : Constant → Option Int
  | .int value => some value
  | _ => none

def Constant.integers? (length : Nat) : Constant → Option (List Int)
  | .zero => some (List.replicate length 0)
  | .array _ items => if items.length = length then items.mapM int? else none
  | _ => none

structure IntegerArray where
  typeId : Int
  length : Int
  element : IrType
  elements : List Int

def DataDefinition.integers? (d : DataDefinition) : Option IntegerArray :=
  match d.type, d.value with
  | .struct false [.i32, .i32, .array n element],
    .struct false [(_, .int typeId), (_, .int length), (_, content)] =>
    (content.integers? n).map fun elements => ⟨typeId, length, element, elements⟩
  | _, _ => none

/-- An initializer of an array of some kind, whose elements are a text. -/
def DataDefinition.IsText (d : DataDefinition) (element : Descriptor) (text : String) : Prop :=
  ∃ type elements, element.valueType.target = .ok type ∧
    d.integers? = some ⟨element.arrayTypeId, elements.length, type, elements⟩ ∧
      decodeText? element elements = some text

structure DataDefinition.IsInstance (d : DataDefinition) (cls : ClassDef) (f : Field) (target : String) : Prop where
  typeId : (0, .i32, .int cls.typeId) ∈ Constant.scalars 0 d.type d.value
  field : ∃ start, (start, .ptr, .symbol target) ∈ Constant.scalars 0 d.type d.value ∧ (start : Int) = f.offset

/-- The data under a symbol is an instance that refers to an array of its characters. -/
def Module.HoldsString (m : Module) (cls : ClassDef) (f : Field) (symbol text : String) : Prop :=
  ∃ d target array element, m.data[symbol]? = some d ∧ d.IsInstance cls f target ∧ m.data[target]? = some array ∧
    f.descriptor = .array element ∧ array.IsText element text

/-- A program has a class for strings, with a field for an array of code units or of bytes. -/
structure Program.HasStrings (p : Program) (cls : ClassDef) (f : Field) : Prop where
  found : p.class? "java/lang/String" = some cls
  concrete : cls.isConcrete = true
  field : cls.instanceField? "value" = some f
  contents : f.descriptor = .array .char ∨ f.descriptor = .array .byte

namespace Heap

open Steps

section

variable {text text' : String} {d : Descriptor} {contents : HeapArray} {h h' : Heap}

theorem stringContents_eq_ok (hc : stringContents text d = .ok contents) :
    (d = .array .char ∧ contents = .char (text.toList.flatMap utf16Units)) ∨
      (d = .array .byte ∧ contents = .byte ((text.toList.flatMap utf8Bytes).map UInt8.toInt8)) := by
  unfold stringContents at hc
  split at hc
  · cases hc
    exact .inl ⟨rfl, rfl⟩
  · cases hc
    exact .inr ⟨rfl, rfl⟩
  · cases hc

theorem integers?_content {α : Type} (type : IrType) (elements : List α) (value : α → Int) :
    let items := elements.map fun e => Constant.int (value e)
    (if items.isEmpty then Constant.zero else .array type items).integers? items.length =
      some (elements.map value) := by
  intro items
  have hall : (elements.map fun e => Constant.int (value e)).mapM Constant.int? = some (elements.map value) := by
    induction elements with
    | nil => rfl
    | cons e rest ih => simp [ih, Constant.int?]
  cases elements with
  | nil => rfl
  | cons e rest => exact (if_pos rfl).trans hall

theorem isText_of_literal {a : DataDefinition} (hc : stringContents text d = .ok contents)
    (hl : literal (.arrayOf contents) h = .ok (a.type, a.value) h') :
    ∃ element, d = .array element ∧ a.IsText element text := by
  obtain ⟨name, type, value, linkage, isConstant⟩ := a
  rcases stringContents_eq_ok hc with ⟨rfl, rfl⟩ | ⟨rfl, rfl⟩
  · cases hl
    refine ⟨.char, rfl, .i16, _, rfl, ?_, decodeText?_char text⟩
    exact (congrArg (Option.map _) (integers?_content ..)).trans (by simp [HeapArray.typeId, HeapArray.element])
  · cases hl
    refine ⟨.byte, rfl, .i8, _, rfl, ?_, decodeText?_byte text⟩
    exact (congrArg (Option.map _) (integers?_content ..)).trans (by simp [HeapArray.typeId, HeapArray.element])

theorem stringContents_inj (hc : stringContents text d = .ok contents) (hc' : stringContents text' d = .ok contents) :
    text = text' := by
  rcases stringContents_eq_ok hc with ⟨rfl, rfl⟩ | ⟨rfl, rfl⟩ <;>
    rcases stringContents_eq_ok hc' with ⟨hd, hsame⟩ | ⟨hd, hsame⟩
  · have hread := decodeText?_char text
    rw [HeapArray.char.inj hsame, decodeText?_char] at hread
    exact (Option.some.inj hread).symm
  · cases hd
  · cases hd
  · have hread := decodeText?_byte text
    rw [HeapArray.byte.inj hsame, decodeText?_byte] at hread
    exact (Option.some.inj hread).symm

theorem instanceLiteral_typeId {cls : ClassDef} {values : List (String × HeapValue)} {type : IrType} {c : Constant}
    (hl : literal (.instanceOf cls values) h = .ok (type, c) h') :
    (0, .i32, .int cls.typeId) ∈ Constant.scalars 0 type c := by
  obtain ⟨literals, h₁, -, hdone⟩ := bind_eq_ok.1 hl
  cases hdone
  simp [Constant.scalars, Constant.fieldScalars, IrType.startOf]

end

def stringObject (cls : ClassDef) (array : ObjectId) : HeapObject :=
  .instanceOf cls [("value", .reference (some array))]

section

variable {p : Program} {cls : ClassDef} {f : Field} {h h' : Heap} {text text' : String} {k : Nat}

theorem internString_of_lookup (hk : h.strings.lookup text = some k) : internString p text h = .ok k h := by
  rw [internString, bind_of_ok (get_apply h), hk]
  rfl

def withString (h : Heap) (cls : ClassDef) (text : String) (contents : HeapArray) : Heap :=
  { h with
    store := (h.store.push (.arrayOf contents)).push (stringObject cls h.store.size)
    interned := h.interned ++ [h.store.size + 1]
    strings := (text, h.length) :: h.strings }

theorem withString_lookup (h : Heap) (cls : ClassDef) (text other : String) (contents : HeapArray) :
    (h.withString cls text contents).strings.lookup other =
      if other = text then some h.length else h.strings.lookup other := by
  rw [withString, List.lookup_cons]
  by_cases hsame : other = text
  · simp [hsame]
  · rw [if_neg hsame, beq_false_of_ne hsame]

theorem internString_of_none (hp : p.HasStrings cls f) (hl : Linked h) (hnew : h.strings.lookup text = none) :
    ∃ contents, stringContents text f.descriptor = .ok contents ∧
      internString p text h = .ok h.length (h.withString cls text contents) := by
  obtain ⟨contents, hcontents⟩ : ∃ contents, stringContents text f.descriptor = .ok contents := by
    rcases hp.contents with hd | hd <;> exact hd ▸ ⟨_, rfl⟩
  have hcreate : HeapObject.create cls = .ok (.instanceOf cls []) := by
    have hk : cls.kind = .concrete := by simpa [ClassDef.isConcrete] using hp.concrete
    rw [HeapObject.create, hk]
  have hset : ∀ store, (HeapObject.instanceOf cls []).setField store "value" (.reference (some h.store.size)) =
      .ok (stringObject cls h.store.size) := by
    intro store
    have hfits : (HeapValue.reference (some h.store.size)).fits f.descriptor = true := by
      rcases hp.contents with hd | hd <;> rw [hd] <;> rfl
    rw [HeapObject.setField, hp.field]
    exact if_pos hfits
  have hnumber : h.interned.idxOf? (h.store.size + 1) = none := by
    refine List.idxOf?_eq_none_iff.2 fun hmem => ?_
    exact absurd (hl.interned _ hmem) (by simp)
  refine ⟨contents, hcontents, ?_⟩
  rw [internString, bind_of_ok (get_apply h), hnew]
  simp [hp.found, hcreate, hp.field, hcontents, hset, allocate, intern, hnumber, withString, length]

def Spells (cls : ClassDef) (d : Descriptor) (h : Heap) (k : Nat) (text : String) : Prop :=
  ∃ id array contents, h.interned[k]? = some id ∧ h.store[id]? = some (stringObject cls array) ∧
    h.store[array]? = some (.arrayOf contents) ∧ stringContents text d = .ok contents

theorem Spells.eq {d : Descriptor} (hs : Spells cls d h k text) (hs' : Spells cls d h k text') : text = text' := by
  obtain ⟨id, array, contents, hk, ho, harray, hcontents⟩ := hs
  obtain ⟨id', array', contents', hk', ho', harray', hcontents'⟩ := hs'
  cases hk.symm.trans hk'
  cases ho.symm.trans ho'
  cases harray.symm.trans harray'
  exact stringContents_inj hcontents hcontents'

theorem Spells.mono {d : Descriptor} (hs : Spells cls d h k text) (hkeeps : Keeps h h')
    (hstore : ∀ (id : ObjectId) o, h.store[id]? = some o → h'.store[id]? = some o) : Spells cls d h' k text := by
  obtain ⟨id, array, contents, hk, ho, harray, hcontents⟩ := hs
  exact ⟨id, array, contents, hkeeps k id hk, hstore _ _ ho, hstore _ _ harray, hcontents⟩

theorem withString_keeps (h : Heap) (cls : ClassDef) (text : String) (contents : HeapArray) :
    Keeps h (h.withString cls text contents) ∧
      ∀ (id : ObjectId) o, h.store[id]? = some o → (h.withString cls text contents).store[id]? = some o := by
  refine ⟨keeps_of_isPrefix ⟨_, rfl⟩, fun id o ho => ?_⟩
  obtain ⟨hlt, -⟩ := Array.getElem?_eq_some_iff.1 ho
  have hroom : id < (h.store.push (.arrayOf contents)).size :=
    (Nat.lt_succ_of_lt hlt).trans_eq (Array.size_push _).symm
  rw [withString, Array.getElem?_push, if_neg hroom.ne, Array.getElem?_push, if_neg hlt.ne, ho]

theorem withString_spells {contents : HeapArray} {d : Descriptor} (hcontents : stringContents text d = .ok contents) :
    Spells cls d (h.withString cls text contents) h.length text := by
  refine ⟨h.store.size + 1, h.store.size, contents, by simp [withString, length], ?_, ?_, hcontents⟩
  · rw [withString, Array.getElem?_push, if_pos (Array.size_push _).symm]
  · rw [withString, Array.getElem?_push, if_neg (by simp), Array.getElem?_push, if_pos rfl]

end

def Initialized (s : Heap × Module) (k : Nat) : Prop :=
  ∃ id o d h h', s.1.interned[k]? = some id ∧ s.1.store[id]? = some o ∧ s.2.data[heapSymbol k]? = some d ∧
    literal o h = .ok (d.type, d.value) h' ∧ Keeps h' s.1

theorem Initialized.mono {s s' : Heap × Module} {k : Nat} (hs : Initialized s k) (hkeeps : Keeps s.1 s'.1)
    (hstore : ∀ (id : ObjectId) o, s.1.store[id]? = some o → s'.1.store[id]? = some o)
    (hdata : ∀ (name : String) d, s.2.data[name]? = some d → s'.2.data[name]? = some d) : Initialized s' k := by
  obtain ⟨id, o, d, h, h', hk, ho, hd, hl, hold⟩ := hs
  exact ⟨id, o, d, h, h', hkeeps k id hk, hstore id o ho, hdata _ d hd, hl,
    fun j id hj => hkeeps j id (hold j id hj)⟩

/-- Calls for strings on an empty heap, with emissions that succeed among them. The strings are listed with the
numbers that were returned, the latest first. -/
inductive Speaks (p : Program) (m : Module) : List (String × Nat) → Heap × Module → Prop
  | start : Speaks p m [] ({}, m)
  | string {calls : List (String × Nat)} {h h' : Heap} {m' : Module} {text : String} {k : Nat} :
      Speaks p m calls (h, m') → internString p text h = .ok k h' → Speaks p m ((text, k) :: calls) (h', m')
  | emit {calls : List (String × Nat)} {s s' : Heap × Module} {n : Nat} : Speaks p m calls s →
      Heap.emit s = .ok n s' → Speaks p m calls s'

def StringPart (cls : ClassDef) (d : Descriptor) (o : HeapObject) : Prop :=
  (∃ array, o = stringObject cls array) ∨
    ∃ text contents, o = .arrayOf contents ∧ stringContents text d = .ok contents

/-- Every string that was asked for is known, known strings are there, and what was emitted is in the module. -/
structure Spoken (cls : ClassDef) (f : Field) (calls : List (String × Nat)) (s : Heap × Module) : Prop where
  linked : Linked s.1
  parts : ∀ o ∈ s.1.store, StringPart cls f.descriptor o
  known : ∀ c ∈ calls, s.1.strings.lookup c.1 = some c.2
  spells : ∀ text k, s.1.strings.lookup text = some k → Spells cls f.descriptor s.1 k text
  initialized : ∀ k < s.1.emitted, Initialized s k

namespace Spoken

variable {p : Program} {cls : ClassDef} {f : Field} {calls : List (String × Nat)} {s s' : Heap × Module}

theorem emitNext (hs : Spoken cls f calls s) {id : ObjectId} (hid : s.1.interned[s.1.emitted]? = some id)
    (hnext : Heap.emitNext id s = .ok () s') : Spoken cls f calls s' := by
  obtain ⟨o, type, value, ho, hl, hadd⟩ := hs.linked.serialized hid hnext
  obtain ⟨hlinked, hemitted, hstore⟩ := hs.linked.emitNext hid hnext
  obtain ⟨hdata, hkept⟩ := addVariable_eq_ok hadd
  obtain ⟨hextends, -, -⟩ := literal_eq_ok hl
  have hstrings : s'.1.strings = s.1.strings := hextends.strings
  have hkeeps : Keeps s.1 s'.1 := hextends.keeps
  have hsame : ∀ (id : ObjectId) o, s.1.store[id]? = some o → s'.1.store[id]? = some o := fun _ _ ho => hstore ▸ ho
  refine ⟨hlinked, hstore ▸ hs.parts, hstrings ▸ hs.known, fun text k hk => ?_, fun k hk => ?_⟩
  · exact (hs.spells text k (hstrings ▸ hk)).mono hkeeps hsame
  · rw [hemitted] at hk
    rcases Nat.lt_succ_iff_lt_or_eq.1 hk with hk | rfl
    · exact (hs.initialized k hk).mono hkeeps hsame hkept
    · exact ⟨id, o, _, _, _, hkeeps _ _ hid, hsame _ _ ho, hdata, hl, fun _ _ hj => hj⟩

theorem emit (hs : Spoken cls f calls s) {n : Nat} (h : Heap.emit s = .ok n s') : Spoken cls f calls s' :=
  emitFrom_induct (fun _ _ _ hs => hs.emitNext) hs ((emit_apply s).symm.trans h)

theorem string (hp : p.HasStrings cls f) {h h' : Heap} {m : Module} (hs : Spoken cls f calls (h, m)) {text : String}
    {k : Nat} (hstring : internString p text h = .ok k h') : Spoken cls f ((text, k) :: calls) (h', m) := by
  obtain ⟨hlinked, hemitted, -⟩ := hs.linked.internString hstring
  cases hlookup : h.strings.lookup text with
  | some number =>
      cases (internString_of_lookup hlookup).symm.trans hstring
      exact ⟨hlinked, hs.parts, List.forall_mem_cons.2 ⟨hlookup, hs.known⟩, hs.spells, hs.initialized⟩
  | none =>
      obtain ⟨contents, hcontents, hrun⟩ := internString_of_none hp hs.linked hlookup
      cases hrun.symm.trans hstring
      obtain ⟨hkeeps, hstore⟩ := h.withString_keeps cls text contents
      refine ⟨hlinked, fun o ho => ?_, List.forall_mem_cons.2 ⟨?_, fun c hc => ?_⟩, fun other k hk => ?_,
        fun k hk => ?_⟩
      · rcases Array.mem_push.1 ho with ho | rfl
        · rcases Array.mem_push.1 ho with ho | rfl
          · exact hs.parts o ho
          · exact .inr ⟨text, contents, rfl, hcontents⟩
        · exact .inl ⟨_, rfl⟩
      · rw [withString_lookup, if_pos rfl]
      · have hold := hs.known c hc
        rw [withString_lookup, if_neg, hold]
        rintro rfl
        cases hlookup.symm.trans hold
      · rw [withString_lookup] at hk
        split at hk
        · subst other
          cases hk
          exact withString_spells hcontents
        · exact (hs.spells other k hk).mono hkeeps hstore
      · exact (hs.initialized k hk).mono hkeeps hstore fun _ _ hd => hd

theorem holdsString (hp : p.HasStrings cls f) (hs : Spoken cls f calls s) (hdone : s.1.interned.length ≤ s.1.emitted)
    {text : String} {k : Nat} (hk : s.1.strings.lookup text = some k) :
    s.2.HoldsString cls f (heapSymbol k) text := by
  obtain ⟨id, array, contents, hid, ho, harray, hcontents⟩ := hs.spells text k hk
  have hpassed : ∀ {j : Nat} {id}, s.1.interned[j]? = some id → j < s.1.emitted := fun hj =>
    (List.getElem?_eq_some_iff.1 hj).1.trans_le hdone
  obtain ⟨id', o, d, h, h', hid', ho', hd, hl, hkeeps⟩ := hs.initialized k (hpassed hid)
  cases hid.symm.trans hid'
  cases ho.symm.trans ho'
  obtain ⟨hmem, hname⟩ := cls.mem_of_instanceField? hp.field
  obtain ⟨⟨start, type, c, hscalar, hstart, -, hstored⟩, -⟩ := (literal_eq_ok hl).2.1 f hmem
  have hvalue : fieldValue [("value", .reference (some array))] f = .reference (some array) := by
    simp [fieldValue, hname]
  rw [hvalue] at hstored
  obtain ⟨rfl, j, hj, rfl⟩ := hstored
  have hnumber := hkeeps j array hj
  obtain ⟨array', o', a, h₁, h₁', hj', ho', ha, hl', -⟩ := hs.initialized j (hpassed hnumber)
  cases hnumber.symm.trans hj'
  cases harray.symm.trans ho'
  obtain ⟨element, helement, htext⟩ := isText_of_literal hcontents hl'
  exact ⟨d, heapSymbol j, a, element, hd, ⟨instanceLiteral_typeId hl, start, hscalar, hstart⟩, ha, helement, htext⟩

end Spoken

theorem Speaks.spoken {p : Program} {cls : ClassDef} {f : Field} (hp : p.HasStrings cls f) {m : Module}
    {calls : List (String × Nat)} {s : Heap × Module} (hr : Speaks p m calls s) : Spoken cls f calls s := by
  induction hr with
  | start =>
      exact ⟨⟨List.nodup_nil, by simp, by simp⟩, by simp, by simp, by simp,
        fun k hk => absurd hk (Nat.not_lt_zero k)⟩
  | string _ hstring ih => exact ih.string hp hstring
  | emit _ hemit ih => exact ih.emit hemit

/-- String literals are read back from the module. Any string is accepted after any calls, two calls give the same
symbol exactly for the same string, and where emission succeeds every string that was asked for is under its
symbol. -/
theorem strings_round_trip {p : Program} {cls : ClassDef} {f : Field} (hp : p.HasStrings cls f) {m : Module}
    {calls : List (String × Nat)} {s : Heap × Module} (hr : Speaks p m calls s) :
    (∀ text, ∃ k h, internString p text s.1 = .ok k h) ∧
      (∀ c ∈ calls, ∀ c' ∈ calls, heapSymbol c.2 = heapSymbol c'.2 ↔ c.1 = c'.1) ∧
      ∀ n s', emit s = .ok n s' → ∀ c ∈ calls, s'.2.HoldsString cls f (heapSymbol c.2) c.1 := by
  have hs := hr.spoken hp
  refine ⟨fun text => ?_, fun c hc c' hc' => ⟨fun hsymbol => ?_, fun htext => ?_⟩, fun n s' hemit c hc => ?_⟩
  · cases hlookup : s.1.strings.lookup text with
    | some k => exact ⟨k, s.1, internString_of_lookup hlookup⟩
    | none =>
        obtain ⟨contents, -, hrun⟩ := internString_of_none hp hs.linked hlookup
        exact ⟨_, _, hrun⟩
  · have hsame := hs.spells _ _ (hs.known c' hc')
    rw [← heapSymbol_inj hsymbol] at hsame
    exact (hs.spells _ _ (hs.known c hc)).eq hsame
  · have hnumber := hs.known c hc
    rw [htext, hs.known c' hc'] at hnumber
    rw [Option.some.inj hnumber]
  · have hafter := hs.emit hemit
    exact hafter.holdsString hp (hs.linked.emit hemit).2.2.2 (hafter.known c hc)

theorem Speaks.history {p : Program} {m : Module} {calls : List (String × Nat)} {s : Heap × Module}
    (hr : Speaks p m calls s) : History ({}, m) [] s := by
  induction hr with
  | start => exact .start
  | @string calls h h' m' text k _ hstring ih =>
      have hrequest := ih.request (r := .internString p text) trivial
      rwa [Request.apply, hstring] at hrequest
  | emit _ hemit ih => exact ih.emit hemit

/-- Strings are emitted unless the module has symbols of the heap, or a field that is hidden by the one for the
contents takes no array. -/
theorem Speaks.emit_isOk {p : Program} {cls : ClassDef} {f : Field} (hp : p.HasStrings cls f) (hbuilt : cls.Built)
    (hfits : ∀ array, ∀ g ∈ cls.instanceFields,
      (fieldValue [("value", .reference (some array))] g).fits g.descriptor = true)
    {m : Module} (hfree : ∀ k, heapSymbol k ∉ m.data) {calls : List (String × Nat)} {s : Heap × Module}
    (hr : Speaks p m calls s) : ∃ n s', Heap.emit s = .ok n s' := by
  cases hemit : Heap.emit s with
  | ok n s' => exact ⟨n, s', rfl⟩
  | error e s' =>
      obtain ⟨k, id, o, -, -, -, -, ho, ⟨h, h', -, hl⟩ | ⟨htaken, -⟩⟩ := hr.history.accounted.emit_error hemit
      · have hpart := (hr.spoken hp).parts o (Array.mem_of_getElem? ho)
        rcases hpart with ⟨array, rfl⟩ | ⟨text, contents, rfl, hcontents⟩
        · obtain ⟨r, h₁, hwritten⟩ := (instanceLiteral_isOk_iff hbuilt h).2 (hfits array)
          cases hwritten.symm.trans hl
        · rcases stringContents_eq_ok hcontents with ⟨-, rfl⟩ | ⟨-, rfl⟩ <;> cases hl
      · exact absurd htaken (hfree k)

def lettered : ClassDef :=
  ⟨"java/lang/String", 20, .concrete, none, [], [], [⟨"value", .array .char, false, 8⟩], 16⟩

theorem hasStrings_lettered : Program.HasStrings ⟨[lettered]⟩ lettered ⟨"value", .array .char, false, 8⟩ :=
  ⟨rfl, rfl, rfl, .inl rfl⟩

theorem built_lettered : lettered.Built :=
  @ClassDef.Built.of_build "java/lang/String" 20 .concrete none [] [] [⟨"value", "[C", false⟩] lettered
    (by rintro _ ⟨⟩) (by decide) rfl

def clef : Heap := withString {} lettered "𝄞" (.char [0xD834, 0xDD1E])

theorem strings_round_trip_of_clef :
    ∃ s n s', Speaks ⟨[lettered]⟩ blank [("", 1), ("𝄞", 0)] s ∧ emit s = .ok n s' ∧
      s'.2.HoldsString lettered ⟨"value", .array .char, false, 8⟩ (heapSymbol 0) "𝄞" ∧
      s'.2.HoldsString lettered ⟨"value", .array .char, false, 8⟩ (heapSymbol 1) "" := by
  have hfirst : internString ⟨[lettered]⟩ "𝄞" {} = .ok 0 clef := rfl
  have hsecond : internString ⟨[lettered]⟩ "" clef = .ok 1 (clef.withString lettered "" (.char [])) := rfl
  have hr := (Speaks.start (m := blank)).string hfirst |>.string hsecond
  have hfits : ∀ array, ∀ g ∈ lettered.instanceFields,
      (fieldValue [("value", .reference (some array))] g).fits g.descriptor = true := by
    intro array g hg
    have hfields : lettered.instanceFields = [⟨"value", .array .char, false, 8⟩] := rfl
    rw [hfields, List.mem_singleton] at hg
    rw [hg]
    rfl
  obtain ⟨n, s', hemit⟩ := hr.emit_isOk hasStrings_lettered built_lettered hfits (by simp [blank])
  obtain ⟨-, -, hread⟩ := strings_round_trip hasStrings_lettered hr
  exact ⟨_, n, s', hr, hemit, hread n s' hemit ("𝄞", 0) (by simp), hread n s' hemit ("", 1) (by simp)⟩

end Heap

end NativeBackend
