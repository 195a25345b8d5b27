import NativeBackend.Proofs.Heap.Emitted

namespace NativeBackend

namespace Pointer

theorem inRange_of_le {n bound : Int} (hlow : 0 ≤ n) (hhigh : n ≤ bound) (hbound : inRange bound = true) :
    inRange n = true := by
  have hmin : Int64.minValue.toInt ≤ 0 := by decide
  simp only [inRange, Bool.and_eq_true, decide_eq_true_eq] at hbound ⊢
  omega

theorem derive_of_inRange {p : Pointer} (what : String) (step : Derivation) (t : Ty) {n u place : Int}
    (hat : p.offset + n * u = place) (hdelta : inRange (n * u) = true) (hoffset : inRange place = true) :
    ∃ q, p.derive what step t n u = .ok q ∧ q.root = p.root ∧ q.offset = place ∧ q.pointee = t := by
  subst hat
  rw [derive, hdelta, hoffset]
  exact ⟨_, rfl, rfl, rfl, rfl⟩

end Pointer

namespace Heap

open Steps

/-- Where a pointer leads, a scalar with a number of bytes stands for a value, and a load gives what is written there
as a whole number. -/
def Finds (h : Heap) (type : IrType) (c : Constant) (q : Pointer) (size : Int) (value : HeapValue) : Prop :=
  ∃ start scalarType scalar, (start, scalarType, scalar) ∈ Constant.scalars 0 type c ∧ (start : Int) = q.offset ∧
    (scalarType.size : Int) = size ∧ StoredAs h value scalarType scalar ∧
    ∀ n, scalar = .int n → scalar.loaded? q.pointee scalarType = some n

def FindsWord (type : IrType) (c : Constant) (q : Pointer) (n : Int) : Prop :=
  ∃ start, (start, .i32, .int n) ∈ Constant.scalars 0 type c ∧ (start : Int) = q.offset

theorem Stores.finds {h : Heap} {type : IrType} {c : Constant} {q : Pointer} {size : Int} {value : HeapValue}
    (hs : Stores h type c q.offset size value) (hsigned : q.pointee.isSigned = value.isSigned) :
    Finds h type c q size value := by
  obtain ⟨start, scalarType, scalar, hmem, hstart, hsize, hstored⟩ := hs
  exact ⟨start, scalarType, scalar, hmem, hstart, hsize, hstored, fun _ => hstored.loaded hsigned⟩

/-- Pointers into an object and the initializer of its data name the same bytes: every derivation succeeds and
leads to a scalar of the part's size that stands for the part's value. The word for the length is signed, so a load
gives the length of an array only below `2 ^ 31`. -/
def Agrees (h : Heap) (p : Pointer) (type : IrType) (c : Constant) : HeapObject → Prop
  | .instanceOf cls values => ∀ f ∈ cls.instanceFields, ∃ g q, cls.instanceField? f.name = some g ∧
      p.instanceField f.name = .ok q ∧ q.root = p.root ∧ Finds h type c q g.size (fieldValue values g)
  | .arrayOf a => ∃ typeId length content,
      (p.member 0 = .ok typeId ∧ typeId.root = p.root ∧ FindsWord type c typeId a.typeId ∧
        (Constant.int a.typeId).loaded? typeId.pointee .i32 = some (a.typeId : Int)) ∧
      (p.member 1 = .ok length ∧ length.root = p.root ∧ FindsWord type c length a.length ∧
        ((Constant.int a.length).loaded? length.pointee .i32 = some (a.length : Int) ↔ a.length < 2 ^ 31)) ∧
      p.member 2 = .ok content ∧ ∀ (i : Nat) v, a.values[i]? = some v → ∃ q, content.element i = .ok q ∧
        q.root = p.root ∧ Finds h type c q a.elementType.size v

theorem loaded_typeId (a : HeapArray) : (Constant.int a.typeId).loaded? (.unsigned 4) .i32 = some (a.typeId : Int) := by
  cases a <;> rfl

theorem loaded_signed_lt {type : IrType} (hsize : type.size = 4) {c : Constant} {n : Int}
    (h : c.loaded? (.signed 4) type = some n) : n < 2 ^ 31 := by
  unfold Constant.loaded? at h
  split at h
  · cases h
    rw [hsize]
    exact BitVec.toInt_lt
  · cases h

theorem loaded_length_iff (n : Nat) : (Constant.int n).loaded? (.signed 4) .i32 = some (n : Int) ↔ n < 2 ^ 31 := by
  constructor
  · intro h
    have := loaded_signed_lt rfl h
    omega
  · intro hlt
    refine congrArg some ((BitVec.toInt_ofInt _).trans ?_)
    exact Int.bmod_eq_of_le_mul_two (by simp [IrType.size]; omega) (by simp [IrType.size]; omega)

theorem instanceField_eq_ok {cls : ClassDef} (hbuilt : cls.Built) (hword : Pointer.inRange cls.instanceSize = true)
    (symbol : String) {f : Field} (hf : f ∈ cls.instanceFields) :
    ∃ g ∈ cls.instanceFields, cls.instanceField? f.name = some g ∧ ∃ q,
      (Pointer.global symbol (.object cls)).instanceField f.name = .ok q ∧ q.root = .global symbol ∧
        q.offset = g.offset ∧ q.pointee = g.type := by
  obtain ⟨g, hg, hfield, -⟩ := ClassDef.exists_instanceField? hf
  obtain ⟨hlow, hhigh⟩ := hbuilt.fields_inside.2 g hg
  have hsize : 0 ≤ g.size := g.descriptor.size_valueType_nonneg
  have hrange : Pointer.inRange g.offset = true := Pointer.inRange_of_le (by omega) (by omega) hword
  obtain ⟨q, hq, hplace⟩ := @Pointer.derive_of_inRange (.global symbol (.object cls)) "a field"
    (.field f.name) g.type 1 g.offset g.offset (by simp [Pointer.global, Pointer.ofRoot]) (by simpa) hrange
  refine ⟨g, hg, hfield, q, ?_, hplace⟩
  rw [← hq]
  simp only [Pointer.instanceField, Pointer.global, Pointer.ofRoot, hfield]

theorem member_eq_ok (symbol : String) (layout : Compound) {k : Nat} {t : Member} (ht : layout.members[k]? = some t)
    (hrange : Pointer.inRange t.offset = true) :
    ∃ q, (Pointer.global symbol (.compound layout)).member k = .ok q ∧ q.root = .global symbol ∧
      q.offset = t.offset ∧ q.pointee = t.type := by
  obtain ⟨q, hq, hplace⟩ := @Pointer.derive_of_inRange (.global symbol (.compound layout)) "a member"
    (.member k t.name) t.type 1 t.offset t.offset (by simp [Pointer.global, Pointer.ofRoot]) (by simpa) hrange
  refine ⟨q, ?_, hplace⟩
  rw [← hq]
  simp only [Pointer.member, Pointer.global, Pointer.ofRoot, ht]

theorem element_eq_ok (a : HeapArray) (hword : Pointer.inRange a.layout.size = true) {p : Pointer}
    (hpointee : p.pointee = .array a.elementType a.length) (hoffset : p.offset = 8) {i : Nat} (hi : i < a.length) :
    ∃ q, p.element i = .ok q ∧ q.root = p.root ∧ q.offset = 8 + i * a.elementType.size ∧
      q.pointee = a.elementType := by
  have hsize : 0 ≤ a.elementType.size := by cases a <;> exact Int.natCast_nonneg _
  have hwhole : 8 + a.elementType.size * a.length ≤ a.layout.size := by
    rw [a.size_layout]
    refine le_alignUp ?_ _
    have := Int.mul_nonneg hsize (Int.natCast_nonneg a.length)
    omega
  have hinside : (i : Int) * a.elementType.size ≤ a.elementType.size * a.length := by
    rw [Int.mul_comm]
    exact Int.mul_le_mul_of_nonneg_left (by omega) hsize
  have hlow := Int.mul_nonneg (Int.natCast_nonneg i) hsize
  obtain ⟨q, hq, hplace⟩ := @Pointer.derive_of_inRange p "an element" (.element i) a.elementType i
    a.elementType.size (8 + i * a.elementType.size) (by rw [hoffset])
    (Pointer.inRange_of_le hlow (by omega) hword) (Pointer.inRange_of_le (by omega) (by omega) hword)
  refine ⟨q, ?_, hplace⟩
  rw [← hq]
  simp only [Pointer.element, hpointee]

theorem agrees_of_holds {h : Heap} {type : IrType} {c : Constant} {o : HeapObject} (hholds : Holds h type c o)
    (hbuilt : o.Built) (hword : Pointer.inRange o.pointee.size = true) (symbol : String) :
    Agrees h (.global symbol o.pointee) type c o := by
  cases o with
  | instanceOf cls values =>
      intro f hf
      obtain ⟨g, hg, hfield, q, hq, hroot, hoffset, hpointee⟩ := instanceField_eq_ok hbuilt hword symbol hf
      obtain ⟨hstores, hfits⟩ := hholds g hg
      rw [← hoffset] at hstores
      exact ⟨g, q, hfield, hq, hroot, hstores.finds (hpointee ▸ HeapValue.isSigned_of_fits hfits)⟩
  | arrayOf a =>
      obtain ⟨htypeId, hlength, helements⟩ := hholds
      obtain ⟨q₀, hq₀, hroot₀, hoffset₀, hpointee₀⟩ :=
        member_eq_ok symbol a.layout (k := 0) (by rw [a.members_layout]; rfl) (by decide)
      obtain ⟨q₁, hq₁, hroot₁, hoffset₁, hpointee₁⟩ :=
        member_eq_ok symbol a.layout (k := 1) (by rw [a.members_layout]; rfl) (by decide)
      obtain ⟨q₂, hq₂, hroot₂, hoffset₂, hpointee₂⟩ :=
        member_eq_ok symbol a.layout (k := 2) (by rw [a.members_layout]; rfl)
          (show Pointer.inRange 8 = true from by decide)
      refine ⟨q₀, q₁, q₂, ⟨hq₀, hroot₀, ⟨0, htypeId, hoffset₀.symm⟩, ?_⟩,
        ⟨hq₁, hroot₁, ⟨4, hlength, hoffset₁.symm⟩, ?_⟩, hq₂, fun i v hv => ?_⟩
      · rw [hpointee₀]
        exact loaded_typeId a
      · rw [hpointee₁]
        exact loaded_length_iff a.length
      have hi : i < a.length := by
        rw [← a.length_values]
        exact (List.getElem?_eq_some_iff.1 hv).1
      obtain ⟨q, hq, hroot, hoffset, hpointee⟩ := element_eq_ok a hword hpointee₂ hoffset₂ hi
      have hstores := helements i v hv
      rw [← hoffset] at hstores
      refine ⟨q, hq, hroot.trans hroot₂, hstores.finds ?_⟩
      rw [hpointee]
      exact HeapArray.isSigned_of_mem (List.mem_of_getElem? hv)

theorem pointerTo_eq {h : Heap} {id : ObjectId} {k : Nat} {o : HeapObject} (hnumber : h.interned.idxOf? id = some k)
    (ho : h.store[id]? = some o) : h.pointerTo id = (.global (heapSymbol k) o.pointee, h) := by
  rw [pointerTo, intern, hnumber]
  simp only [ho, Option.map_some, Option.getD_some]

/-- What emission writes is what pointers see: the object of the `k`-th number has the symbol that its pointer
starts at, of as many bytes as its type has, with a scalar for each of its parts where the pointer finds the part.
That the size of the object's type fits a word of the machine is all that pointers need to reach its parts. -/
theorem emit_agrees {h h' : Heap} {m m' : Module} {n : Nat} (hemit : emit (h, m) = .ok n (h', m')) {id : ObjectId}
    {k : Nat} {o : HeapObject} (hnumber : h'.interned.idxOf? id = some k) (hnew : h.emitted ≤ k)
    (hdone : k < h'.emitted) (ho : h.store[id]? = some o) (hbuilt : o.Built)
    (hword : Pointer.inRange o.pointee.size = true) :
    ∃ p d, h'.pointerTo id = (p, h') ∧ (h.interned.idxOf? id = some k → h.pointerTo id = (p, h)) ∧
      p.root = .global (heapSymbol k) ∧ p.offset = 0 ∧ m'.data[heapSymbol k]? = some d ∧
      (d.type.size : Int) = o.pointee.size ∧ Agrees h' p d.type d.value o := by
  obtain ⟨hstore, -, -, -, hdefined⟩ := emitted_of_emit hemit
  obtain ⟨hlt, hid, -⟩ := List.idxOf?_eq_some_iff.1 hnumber
  replace ho' : h'.store[id]? = some o := hstore ▸ ho
  obtain ⟨d, hd, hholds, hsize⟩ := hdefined k hnew hdone id o (List.getElem?_eq_some_iff.2 ⟨hlt, hid⟩) ho'
  exact ⟨_, d, pointerTo_eq hnumber ho', fun hbefore => pointerTo_eq hbefore ho, rfl, rfl, hd, hsize hbuilt,
    agrees_of_holds hholds hbuilt hword _⟩

def link : ClassDef :=
  ⟨"Link", 20, .concrete, none, [], [], [⟨"marked", .boolean, false, 8⟩, ⟨"next", .object "Link", false, 16⟩], 24⟩

def weighted : ClassDef :=
  ⟨"Weighted", 21, .concrete, some link, [], [], [⟨"rank", .short, false, 24⟩, ⟨"weight", .int, false, 28⟩], 32⟩

theorem built_weighted : weighted.Built := by
  refine @ClassDef.Built.of_build "Weighted" 21 .concrete (some link) [] []
    [⟨"rank", "S", false⟩, ⟨"weight", "I", false⟩] weighted ?_ (by decide) rfl
  rintro a ⟨⟩
  exact @ClassDef.Built.of_build "Link" 20 .concrete none [] [] [⟨"marked", "Z", false⟩, ⟨"next", "LLink;", false⟩]
    link (by rintro _ ⟨⟩) (by decide) rfl

def knot : HeapObject := .instanceOf weighted [("next", .reference (some 0)), ("weight", .int 7)]

def knotted : Heap where
  store := #[knot]
  interned := [0]

def blank : Module where
  name := "blank"
  pie := false

theorem emit_knotted : ∃ s, emit (knotted, blank) = .ok 1 s ∧ s.1.interned = [0] ∧ s.1.emitted = 1 := by
  have hsorted : weighted.instanceFields.mergeSort (·.offset ≤ ·.offset) = weighted.instanceFields :=
    List.mergeSort_of_pairwise (by decide)
  have hliteral : ∃ type value, literal knot { knotted with emitted := 1 } =
      .ok (type, value) { knotted with emitted := 1 } := by
    simp only [knot, literal, instanceLiteral, hsorted]
    exact ⟨_, _, rfl⟩
  obtain ⟨type, value, hliteral⟩ := hliteral
  have hnext : ∃ m, emitNext 0 (knotted, blank) = .ok ⟨⟩ ({ knotted with emitted := 1 }, m) := by
    have hknot : knotted.store[0]? = some knot := rfl
    simp only [emitNext, hknot, show knotted.emitted + 1 = 1 from rfl, hliteral]
    exact ⟨_, rfl⟩
  obtain ⟨m, hnext⟩ := hnext
  refine ⟨({ knotted with emitted := 1 }, m), ?_, rfl, rfl⟩
  change emitFrom (0 + 1) (knotted, blank) = _
  rw [emitFrom_of_some 0 (show knotted.interned[0]? = some 0 from rfl), bind_of_ok hnext]
  rfl

theorem emit_knotted_agrees :
    ∃ h' m' p d, emit (knotted, blank) = .ok 1 (h', m') ∧ h'.pointerTo 0 = (p, h') ∧
      p.root = .global "kiln_initial_heap_obj_0" ∧ p.offset = 0 ∧ m'.data["kiln_initial_heap_obj_0"]? = some d ∧
      (d.type.size : Int) = 32 ∧ Agrees h' p d.type d.value knot := by
  obtain ⟨s, h, hinterned, hdone⟩ := emit_knotted
  have hnumber : s.1.interned.idxOf? 0 = some 0 := by
    rw [hinterned]
    rfl
  obtain ⟨p, d, hp, -, hagrees⟩ := emit_agrees h hnumber (Nat.le_refl 0) (by omega) rfl built_weighted (by decide)
  exact ⟨s.1, s.2, p, d, h, hp, hagrees⟩

def alarmed : Heap where
  store := #[.arrayOf (.float [0x7F800001])]
  interned := [0]

def crowded (n : Nat) : Heap where
  store := #[.arrayOf (.boolean (List.replicate n false))]
  interned := [0]

theorem emit_crowded (n : Nat) : ∃ s, emit (crowded n, blank) = .ok 1 s := ⟨_, rfl⟩

/-- The element's bits are not kept, and no word where the pointer finds the length can hold the length of an array
with `2 ^ 31` elements. -/
theorem not_emit_agrees :
    (∃ h' m' p content q d, emit (alarmed, blank) = .ok 1 (h', m') ∧ h'.pointerTo 0 = (p, h') ∧
      p.member 2 = .ok content ∧ content.element 0 = .ok q ∧ m'.data["kiln_initial_heap_obj_0"]? = some d ∧
      ∀ start type wide, (start, type, .float wide) ∈ Constant.scalars 0 d.type d.value → (start : Int) = q.offset →
        BinaryFormat.double.value wide.toNat ≠ BinaryFormat.single.value 0x7F800001) ∧
    ∃ s p length, emit (crowded (2 ^ 31), blank) = .ok 1 s ∧
      (crowded (2 ^ 31)).pointerTo 0 = (p, crowded (2 ^ 31)) ∧ p.member 1 = .ok length ∧
      ∀ (type : IrType) (c : Constant), type.size = 4 → c.loaded? length.pointee type ≠ some (2 ^ 31) := by
  constructor
  · refine ⟨_, _, _, _, _, ⟨heapSymbol 0, .struct false [.i32, .i32, .array 1 .float], .struct false
      [(.i32, .int 15), (.i32, .int 1), (.array 1 .float, .array .float [.float 0x7FF8000020000000])],
      .internal, false⟩,
      rfl, rfl, rfl, rfl, Std.TreeMap.getElem?_insert_self, ?_⟩
    intro start type wide hmem hstart
    obtain ⟨-, -, rfl⟩ : start = 8 ∧ type = .float ∧ wide = 0x7FF8000020000000 := by
      simpa [Constant.scalars, Constant.fieldScalars, Constant.elementScalars, IrType.startOf, IrType.size,
        IrType.align, roundUp] using hmem
    have hquiet : BinaryFormat.double.value (0x7FF8000020000000 : UInt64).toNat =
        .nan false ((2 ^ 51 + 2 ^ 29 : ℕ) / 2 ^ 52) := rfl
    have hstored : BinaryFormat.single.value 0x7F800001 = .nan false ((1 : ℕ) / 2 ^ 23) := rfl
    rw [hquiet, hstored]
    intro heq
    rw [FloatValue.nan.injEq] at heq
    norm_num at heq
  · obtain ⟨s, hs⟩ := emit_crowded (2 ^ 31)
    refine ⟨s, _, _, hs, rfl, rfl, fun type c hsize hload => ?_⟩
    exact Int.lt_irrefl _ (loaded_signed_lt hsize hload)

end Heap

end NativeBackend
