import NativeBackend.Proofs.Class.Layout
import NativeBackend.Proofs.Heap.Interning
import NativeBackend.Proofs.Ir.Layout
import NativeBackend.Proofs.Number.Widening

namespace NativeBackend

namespace Constant

def IsScalar (type : IrType) (c : Constant) : Prop := ∀ start, scalars start type c = [(start, type, c)]

theorem mem_elementScalars {type : IrType} {start : Nat} {cs : List Constant} {i : Nat} {c : Constant}
    (hc : cs[i]? = some c) (hscalar : IsScalar type c) :
    (start + i * type.size, type, c) ∈ elementScalars type start cs := by
  induction cs generalizing start i with
  | nil => simp at hc
  | cons c' cs ih =>
      rw [elementScalars, List.mem_append]
      cases i with
      | zero =>
          cases hc
          left
          simp [hscalar start]
      | succ i =>
          right
          have hstart : start + (i + 1) * type.size = start + type.size + i * type.size := by
            rw [Nat.succ_mul]
            omega
          rw [hstart]
          exact ih hc

end Constant

def HeapArray.values : HeapArray → List HeapValue
  | .boolean elements => elements.map .boolean
  | .byte elements => elements.map .byte
  | .char elements => elements.map .char
  | .short elements => elements.map .short
  | .int elements => elements.map .int
  | .float elements => elements.map .float
  | .long elements => elements.map .long
  | .double elements => elements.map .double
  | .reference elements => elements.map .reference

theorem HeapArray.length_values (a : HeapArray) : a.values.length = a.length := by
  cases a <;> exact List.length_map _

def HeapValue.isSigned : HeapValue → Bool
  | .byte _ | .short _ | .int _ | .long _ => true
  | _ => false

theorem HeapValue.isSigned_of_fits {value : HeapValue} {d : Descriptor} (h : value.fits d = true) :
    d.valueType.isSigned = value.isSigned := by
  unfold fits at h
  split at h
  case h_11 => cases h
  all_goals rfl

theorem HeapArray.isSigned_of_mem {a : HeapArray} {v : HeapValue} (hv : v ∈ a.values) :
    a.elementType.isSigned = v.isSigned := by
  cases a <;> obtain ⟨_, -, rfl⟩ := List.mem_map.1 hv <;> rfl

def HeapValue.RefersTo (value : HeapValue) (id : ObjectId) : Prop := value = .reference (some id)

namespace Heap

open Steps

/-- A scalar that stands for a value of the heap. A number of single precision is written as a double of the
same value, and a signalling pattern as the quiet one. -/
def StoredAs (h : Heap) (value : HeapValue) (type : IrType) (c : Constant) : Prop :=
  match value with
  | .boolean v => type = .i8 ∧ c = .int (if v then 1 else 0)
  | .byte v => type = .i8 ∧ c = .int v.toInt
  | .char v => type = .i16 ∧ c = .int v.toNat
  | .short v => type = .i16 ∧ c = .int v.toInt
  | .int v => type = .i32 ∧ c = .int v.toInt
  | .float bits => type = .float ∧
      ∃ wide, c = .float wide ∧ BinaryFormat.double.value wide.toNat = (BinaryFormat.single.value bits.toNat).quiet
  | .long v => type = .i64 ∧ c = .int v.toInt
  | .double bits => type = .double ∧ c = .float bits
  | .reference target => type = .ptr ∧ h.Refers target c

theorem StoredAs.mono {h h' : Heap} {value : HeapValue} {type : IrType} {c : Constant}
    (hs : StoredAs h value type c) (hkeeps : Keeps h h') : StoredAs h' value type c := by
  cases value with
  | reference target => exact ⟨hs.1, hs.2.mono hkeeps⟩
  | _ => exact hs

theorem StoredAs.isScalar {h : Heap} {value : HeapValue} {type : IrType} {c : Constant}
    (hs : StoredAs h value type c) : Constant.IsScalar type c := by
  cases value <;> obtain ⟨rfl, -⟩ := hs <;> simp [Constant.IsScalar, Constant.scalars]

theorem StoredAs.loaded {h : Heap} {value : HeapValue} {type : IrType} {c : Constant} (hs : StoredAs h value type c)
    {t : Ty} (hsigned : t.isSigned = value.isSigned) {n : Int} (hn : c = .int n) : c.loaded? t type = some n := by
  subst hn
  rw [Constant.loaded?, hsigned]
  cases value with
  | boolean v =>
      obtain ⟨rfl, hn⟩ := hs
      cases hn
      cases v <;> rfl
  | byte v | short v | int v | long v =>
      obtain ⟨rfl, hn⟩ := hs
      cases hn
      exact congrArg (fun b => some (BitVec.toInt b)) (BitVec.ofInt_toInt (x := v.toBitVec))
  | char v =>
      obtain ⟨rfl, hn⟩ := hs
      cases hn
      exact congrArg (fun b => some ((BitVec.toNat b : Nat) : Int)) (BitVec.ofNat_toNat 16 v.toBitVec)
  | float bits =>
      obtain ⟨-, wide, ⟨⟩, -⟩ := hs
  | double bits => cases hs.2
  | reference target =>
      cases target with
      | none => cases hs.2
      | some id =>
          obtain ⟨-, k, -, ⟨⟩⟩ := hs

theorem valueLiteral_eq_ok {d : Descriptor} {value : HeapValue} {h h' : Heap} {type : IrType} {c : Constant}
    (hv : valueLiteral d value h = .ok (type, c) h') :
    Extends value.RefersTo h h' ∧ StoredAs h' value type c ∧ (type.size : Int) = d.valueType.size ∧
      value.fits d = true := by
  unfold valueLiteral at hv
  split at hv
  case h_6 bits =>
    cases hv
    exact ⟨.refl _, ⟨rfl, _, rfl, BinaryFormat.value_widenSingle bits⟩, rfl, rfl⟩
  case h_9 name target =>
    obtain ⟨c', h₁, hc, hdone⟩ := bind_eq_ok.1 hv
    cases hdone
    obtain ⟨hextends, hrefers⟩ := reference_eq_ok hc
    exact ⟨hextends.mono fun id hid => hid ▸ rfl, ⟨rfl, hrefers⟩, rfl, rfl⟩
  case h_10 element target =>
    obtain ⟨c', h₁, hc, hdone⟩ := bind_eq_ok.1 hv
    cases hdone
    obtain ⟨hextends, hrefers⟩ := reference_eq_ok hc
    exact ⟨hextends.mono fun id hid => hid ▸ rfl, ⟨rfl, hrefers⟩, rfl, rfl⟩
  case h_11 => cases hv
  case h_1 v =>
    cases hv
    exact ⟨.refl _, ⟨rfl, by cases v <;> rfl⟩, rfl, rfl⟩
  all_goals
    cases hv
    exact ⟨.refl _, ⟨rfl, rfl⟩, rfl, rfl⟩

theorem fieldScalars_padding (n : Int) (base cursor : Nat) (rest : List (IrType × Constant)) :
    Constant.fieldScalars true base (cursor + n.toNat) rest ⊆
      Constant.fieldScalars true base cursor (padding n ++ rest) := by
  rw [padding]
  split
  · rw [List.singleton_append, Constant.fieldScalars]
    have hsize : (IrType.array n.toNat .i8).size = n.toNat := by simp [IrType.size]
    rw [hsize]
    exact List.subset_append_right _ _
  · have hzero : n.toNat = 0 := by omega
    rw [hzero]
    exact List.Subset.refl _

theorem endOf_padding (n : Int) (cursor : Nat) (rest : List (IrType × Constant)) :
    IrType.endOf true cursor ((padding n ++ rest).map (·.1)) =
      IrType.endOf true (cursor + n.toNat) (rest.map (·.1)) := by
  rw [padding]
  split
  · rw [List.singleton_append, List.map_cons, IrType.endOf]
    have hsize : (IrType.array n.toNat .i8).size = n.toNat := by simp [IrType.size]
    rw [hsize]
    rfl
  · have hzero : n.toNat = 0 := by omega
    rw [hzero]
    rfl

def fieldValue (values : List (String × HeapValue)) (f : Field) : HeapValue :=
  (values.lookup f.name).getD (.zero f.descriptor)

theorem fieldValue_refersTo {values : List (String × HeapValue)} {f : Field} {id : ObjectId}
    (h : (fieldValue values f).RefersTo id) : ∃ name, (name, .reference (some id)) ∈ values := by
  rw [HeapValue.RefersTo, fieldValue] at h
  cases hl : values.lookup f.name with
  | none =>
      rw [hl, Option.getD_none] at h
      cases hd : f.descriptor <;> rw [hd] at h <;> cases h
  | some v =>
      rw [hl, Option.getD_some] at h
      obtain ⟨before, after, rfl, -⟩ := List.lookup_eq_some_iff.1 hl
      exact ⟨f.name, h ▸ List.mem_append_right _ List.mem_cons_self⟩

def Stores (h : Heap) (type : IrType) (c : Constant) (offset size : Int) (value : HeapValue) : Prop :=
  ∃ start scalarType scalar, (start, scalarType, scalar) ∈ Constant.scalars 0 type c ∧ (start : Int) = offset ∧
    (scalarType.size : Int) = size ∧ StoredAs h value scalarType scalar

/-- Fields written in order: each lies at its offset, and filler leads from one to the next and to the end. -/
theorem fieldLiterals_eq_ok {cls : ClassDef} {values : List (String × HeapValue)} {finish : Int} {fs : List Field}
    {cursor : Nat} {h h' : Heap} {literals : List (IrType × Constant)}
    (hf : fieldLiterals cls values finish cursor fs h = .ok literals h') :
    Extends (fun id => ∃ f ∈ fs, (fieldValue values f).RefersTo id) h h' ∧
      (∀ f ∈ fs, ∃ start type c, (start, type, c) ∈ Constant.fieldScalars true 0 cursor literals ∧
        (start : Int) = f.offset ∧ (type.size : Int) = f.size ∧ StoredAs h' (fieldValue values f) type c ∧
        (fieldValue values f).fits f.descriptor = true) ∧
      ((cursor : Int) ≤ finish → (∀ f ∈ fs, f.offset + f.size ≤ finish) →
        (IrType.endOf true cursor (literals.map (·.1)) : Int) = finish) := by
  induction fs generalizing cursor h literals with
  | nil =>
      cases hf
      refine ⟨.refl _, by simp, fun hle _ => ?_⟩
      have hend := endOf_padding (finish - cursor) cursor []
      rw [List.append_nil] at hend
      rw [hend, List.map_nil, IrType.endOf]
      omega
  | cons f rest ih =>
      rw [fieldLiterals] at hf
      split at hf
      · cases hf
      rename_i hcursor
      obtain ⟨⟨type, c⟩, h₁, hvalue, hf⟩ := bind_eq_ok.1 hf
      obtain ⟨literals', h₂, hrest, hdone⟩ := bind_eq_ok.1 hf
      cases hdone
      obtain ⟨hextends, hstored, hsize, hfits⟩ := valueLiteral_eq_ok hvalue
      -- a field behind the cursor is refused, so the filler reaches exactly to the field
      have hstart : ((cursor + (f.offset - cursor).toNat : Nat) : Int) = f.offset := by omega
      have hnext : ((cursor + (f.offset - cursor).toNat + type.size : Nat) : Int) = f.offset + f.size := by
        rw [Nat.cast_add, hstart, hsize]
        rfl
      rw [← hnext] at hrest
      obtain ⟨hextends', hfields, hend⟩ := ih hrest
      refine ⟨(hextends.mono fun id hid => ⟨f, List.mem_cons_self, hid⟩).trans (hextends'.mono fun id hid => ?_),
        fun g hg => ?_, fun hle hinside => ?_⟩
      · obtain ⟨g, hg, hid⟩ := hid
        exact ⟨g, List.mem_cons_of_mem _ hg, hid⟩
      · rcases List.mem_cons.1 hg with rfl | hg
        · refine ⟨_, type, c, fieldScalars_padding _ _ _ _ ?_, hstart, hsize, hstored.mono hextends'.keeps,
            hfits⟩
          rw [Constant.fieldScalars, List.mem_append, hstored.isScalar]
          exact .inl (by simp [IrType.startOf])
        · obtain ⟨start, type', c', hmem, hg'⟩ := hfields g hg
          refine ⟨start, type', c', fieldScalars_padding _ _ _ _ ?_, hg'⟩
          rw [Constant.fieldScalars]
          exact List.mem_append_right _ hmem
      · rw [endOf_padding, List.map_cons, IrType.endOf]
        refine hend ?_ fun g hg => hinside g (List.mem_cons_of_mem _ hg)
        rw [hnext]
        exact hinside f List.mem_cons_self

theorem instanceLiteral_eq_ok {cls : ClassDef} {values : List (String × HeapValue)} {h h' : Heap} {type : IrType}
    {c : Constant} (hl : instanceLiteral cls values h = .ok (type, c) h') :
    Extends (fun id => ∃ f ∈ cls.instanceFields, (fieldValue values f).RefersTo id) h h' ∧
      (∀ f ∈ cls.instanceFields, Stores h' type c f.offset f.size (fieldValue values f) ∧
        (fieldValue values f).fits f.descriptor = true) ∧
      (cls.Built → (type.size : Int) = cls.instanceSize) := by
  obtain ⟨literals, h₁, hfields, hdone⟩ := bind_eq_ok.1 hl
  cases hdone
  obtain ⟨hextends, hstored, hend⟩ := @fieldLiterals_eq_ok _ _ _ _ 4 _ _ _ hfields
  refine ⟨hextends.mono fun id hid => ?_, fun f hf => ?_, fun hc => ?_⟩
  · obtain ⟨f, hf, hid⟩ := hid
    exact ⟨f, List.mem_mergeSort.1 hf, hid⟩
  · obtain ⟨start, type, c, hmem, hplace, hsize, hvalue, hfits⟩ := hstored f (List.mem_mergeSort.2 hf)
    refine ⟨⟨start, type, c, ?_, hplace, hsize, hvalue⟩, hfits⟩
    rw [Constant.scalars, Constant.fieldScalars]
    exact List.mem_append_right _ hmem
  · obtain ⟨hroom, hinside⟩ := hc.fields_inside
    have hmax : max cls.instanceSize objectHeaderSize = cls.instanceSize := by
      rw [objectHeaderSize]
      omega
    rw [IrType.size, List.map_cons, IrType.endOf]
    rw [hmax] at hend
    exact hend (by omega) fun f hf => (hinside f (List.mem_mergeSort.1 hf)).2

theorem storedAs_map {α : Type} {h : Heap} {type : IrType} {elements : List α} {value : α → HeapValue}
    {constant : α → Constant} (hstored : ∀ e ∈ elements, StoredAs h (value e) type (constant e)) :
    List.Forall₂ (fun v c => StoredAs h v type c) (elements.map value) (elements.map constant) := by
  rw [List.forall₂_map_left_iff, List.forall₂_map_right_iff, List.forall₂_same]
  exact hstored

theorem elementLiterals_eq_ok {a : HeapArray} {h h' : Heap} {type : IrType} {cs : List Constant}
    (he : elementLiterals a h = .ok (type, cs) h') :
    Extends (fun id => ∃ v ∈ a.values, v.RefersTo id) h h' ∧
      List.Forall₂ (fun v c => StoredAs h' v type c) a.values cs ∧ (type.size : Int) = a.elementType.size ∧
      (type.align : Int) = a.elementType.align ∧ type.align ∣ 8 := by
  cases a with
  | reference elements =>
      obtain ⟨cs', h₁, hrefs, hdone⟩ := bind_eq_ok.1 he
      cases hdone
      obtain ⟨hextends, hall⟩ := references_eq_ok hrefs
      refine ⟨hextends.mono fun id hid => ⟨_, List.mem_map_of_mem hid, rfl⟩, ?_, rfl, rfl, by decide⟩
      rw [HeapArray.values, List.forall₂_map_left_iff]
      exact hall.imp fun _ _ hrefers => ⟨rfl, hrefers⟩
  | float elements =>
      cases he
      exact ⟨.refl _, storedAs_map fun bits _ => ⟨rfl, _, rfl, BinaryFormat.value_widenSingle bits⟩, rfl, rfl,
        by decide⟩
  | boolean elements =>
      cases he
      exact ⟨.refl _, storedAs_map fun v _ => ⟨rfl, by cases v <;> rfl⟩, rfl, rfl, by decide⟩
  | _ =>
      cases he
      exact ⟨.refl _, storedAs_map fun _ _ => ⟨rfl, rfl⟩, rfl, rfl, by decide⟩

theorem arrayLiteral_eq_ok {a : HeapArray} {h h' : Heap} {type : IrType} {c : Constant}
    (hl : arrayLiteral a h = .ok (type, c) h') :
    Extends (fun id => ∃ v ∈ a.values, v.RefersTo id) h h' ∧
      (0, .i32, .int a.typeId) ∈ Constant.scalars 0 type c ∧ (4, .i32, .int a.length) ∈ Constant.scalars 0 type c ∧
      (∀ (i : Nat) v, a.values[i]? = some v →
        Stores h' type c (8 + i * a.elementType.size) a.elementType.size v) ∧
      (type.size : Int) = alignUp (8 + a.elementType.size * a.length) (max 4 a.elementType.align) := by
  obtain ⟨⟨element, cs⟩, h₁, helements, hdone⟩ := bind_eq_ok.1 hl
  cases hdone
  obtain ⟨hextends, hall, hsize, halign, hdvd⟩ := elementLiterals_eq_ok helements
  have hlength : cs.length = a.length := by rw [← hall.length_eq, HeapArray.length_values]
  have hpos : 0 < element.align := Nat.pos_of_dvd_of_pos hdvd (by decide)
  have hfirst : IrType.startOf false 0 .i32 = 0 := rfl
  have hsecond : IrType.startOf false 4 .i32 = 4 := rfl
  have hcontent : ∀ n, IrType.startOf false 8 (.array n element) = 8 := fun _ => roundUp_of_dvd hpos hdvd
  have hword : IrType.size .i32 = 4 := rfl
  refine ⟨hextends, ?_, ?_, fun i v hv => ?_, ?_⟩
  · simp [Constant.scalars, Constant.fieldScalars, hfirst]
  · simp [Constant.scalars, Constant.fieldScalars, hfirst, hsecond, hword, hlength]
  · obtain ⟨c, hc, hstored⟩ : ∃ c, cs[i]? = some c ∧ StoredAs h' v element c := by
      have hlt : i < cs.length := by
        rw [← hall.length_eq]
        exact (List.getElem?_eq_some_iff.1 hv).1
      refine ⟨cs[i], List.getElem?_eq_getElem hlt, ?_⟩
      obtain ⟨hlt', rfl⟩ := List.getElem?_eq_some_iff.1 hv
      exact hall.get hlt' hlt
    have hsome : cs.isEmpty = false := by
      cases cs with
      | nil => simp at hc
      | cons => rfl
    refine ⟨8 + i * element.size, element, c, ?_, by rw [← hsize]; push_cast; ring, hsize, hstored⟩
    simp only [Constant.scalars, Constant.fieldScalars, hfirst, hsecond, hcontent, hword, hsome, Bool.false_eq_true,
      if_false]
    exact List.mem_append_right _ (List.mem_append_right _ (List.mem_append_left _
      (Constant.mem_elementScalars hc hstored.isScalar)))
  · have halignAll : IrType.alignAll [.i32, .i32, .array cs.length element] = max 4 element.align := by
      simp only [IrType.alignAll, IrType.align]
      omega
    have hend : IrType.endOf false 0 [.i32, .i32, .array cs.length element] = 8 + cs.length * element.size := by
      simp only [IrType.endOf, hfirst, hsecond, hcontent, IrType.size]
    have hmax : ((max 4 element.align : Nat) : Int) = max 4 a.elementType.align := by omega
    rw [IrType.size, halignAll, hend, ← alignUp_eq_roundUp _ _ (by omega), hlength]
    rw [hmax]
    push_cast
    rw [hsize, Int.mul_comm]

end Heap

end NativeBackend
