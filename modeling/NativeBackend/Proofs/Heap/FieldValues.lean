import NativeBackend.Proofs.Heap.Addresses
import NativeBackend.Proofs.Lists
import NativeBackend.Proofs.Pointer.Derivation

namespace NativeBackend

namespace ClassDef

def lastSet? (cls : ClassDef) (calls : List (String × HeapValue)) (f : Field) : Option HeapValue :=
  (calls.reverse.find? fun call => cls.instanceField? call.1 == some f).map (·.2)

theorem lastSet?_concat (cls : ClassDef) (calls : List (String × HeapValue)) (name : String) (value : HeapValue)
    (f : Field) : cls.lastSet? (calls ++ [(name, value)]) f =
      if cls.instanceField? name = some f then some value else cls.lastSet? calls f := by
  rw [lastSet?, List.reverse_append, List.reverse_singleton, List.singleton_append, List.find?_cons]
  by_cases h : cls.instanceField? name = some f
  · simp [h]
  · have hne : (cls.instanceField? name == some f) = false := beq_eq_false_iff_ne.2 h
    simp only [hne, if_neg h]
    rfl

end ClassDef

namespace HeapObject

/-- Calls that set fields of an object one after the other, each of them successful. -/
inductive Sets (o : HeapObject) : List (String × HeapValue) → HeapObject → Prop
  | nil : Sets o [] o
  | concat {calls : List (String × HeapValue)} {o' o'' : HeapObject} {name : String} {value : HeapValue}
      (store : Array HeapObject) (h : Sets o calls o') (hset : o'.setField store name value = .ok o'') :
      Sets o (calls ++ [(name, value)]) o''

theorem setField_eq_ok {cls : ClassDef} {values : List (String × HeapValue)} {store : Array HeapObject}
    {name : String} {value : HeapValue} {o : HeapObject}
    (h : (instanceOf cls values).setField store name value = .ok o) :
    ∃ f, cls.instanceField? name = some f ∧ value.fits f.descriptor = true ∧
      o = .instanceOf cls ((name, value) :: values.filter (·.1 != name)) := by
  rw [setField] at h
  split at h
  · cases h
  · rename_i f hf
    split at h
    · rename_i hfits
      cases h
      exact ⟨f, hf, hfits, rfl⟩
    · cases h

theorem Sets.lookup {cls : ClassDef} {calls : List (String × HeapValue)} {o : HeapObject}
    (h : Sets (.instanceOf cls []) calls o) : ∃ values, o = .instanceOf cls values ∧
      ∀ name f, cls.instanceField? name = some f → values.lookup name = cls.lastSet? calls f ∧
        ∀ value, values.lookup name = some value → value.fits f.descriptor = true := by
  induction h with
  | nil => exact ⟨[], rfl, fun _ _ _ => ⟨rfl, by simp⟩⟩
  | @concat calls o' o'' name value _ _ hset ih =>
      obtain ⟨values, rfl, hvalues⟩ := ih
      obtain ⟨g, hg, hfits, rfl⟩ := setField_eq_ok hset
      refine ⟨_, rfl, fun name' f hf => ?_⟩
      rw [ClassDef.lastSet?_concat]
      by_cases hname : name' = name
      · subst hname
        obtain rfl : g = f := Option.some.inj (hg.symm.trans hf)
        rw [List.lookup_cons_self, if_pos hg]
        exact ⟨rfl, fun value' hvalue' => Option.some.inj hvalue' ▸ hfits⟩
      · have hother : cls.instanceField? name ≠ some f := fun hsame => by
          rw [← (cls.mem_of_instanceField? hf).2, ← (cls.mem_of_instanceField? hsame).2] at hname
          exact hname rfl
        have hmiss : (name' == name) = false := beq_eq_false_iff_ne.2 hname
        rw [List.lookup_cons, hmiss, Lists.lookup_filter_ne hname, if_neg hother]
        exact hvalues name' f hf

end HeapObject

theorem Descriptor.size_valueType_pos {d : Descriptor} (h : d ≠ .void) : 0 < d.valueType.size := by
  cases d with
  | void => exact absurd rfl h
  | object _ | array _ => exact Int.natCast_pos.2 (by decide : 0 < 8)
  | _ => decide

theorem ClassDef.Apart.nodup {c : ClassDef} (hc : c.Apart) (hpositive : ∀ f ∈ c.instanceFields, 0 < f.size) :
    c.instanceFields.Nodup := by
  refine hc.precedes.imp_of_mem fun {f g} hf _ hprecedes hsame => ?_
  subst hsame
  have := hpositive f hf
  rw [Field.Precedes] at hprecedes
  omega

theorem HeapValue.zero_fits {d : Descriptor} (h : d ≠ .void) : (zero d).fits d = true := by
  cases d with
  | void => exact absurd rfl h
  | _ => rfl

namespace Heap

open Steps

theorem reference_isOk (target : Option ObjectId) (h : Heap) : ∃ c h', reference target h = .ok c h' := by
  cases target <;> exact ⟨_, _, rfl⟩

theorem valueLiteral_isOk_iff (d : Descriptor) (value : HeapValue) (h : Heap) :
    (∃ r h', valueLiteral d value h = .ok r h') ↔ value.fits d = true := by
  constructor
  · rintro ⟨r, h', hv⟩
    unfold valueLiteral at hv
    split at hv
    case h_11 => cases hv
    all_goals rfl
  · intro hfits
    unfold HeapValue.fits at hfits
    split at hfits
    case h_9 target name =>
      obtain ⟨c, h', hc⟩ := reference_isOk target h
      exact ⟨(.ptr, c), h', bind_eq_ok.2 ⟨c, h', hc, rfl⟩⟩
    case h_10 target element =>
      obtain ⟨c, h', hc⟩ := reference_isOk target h
      exact ⟨(.ptr, c), h', bind_eq_ok.2 ⟨c, h', hc, rfl⟩⟩
    case h_11 => cases hfits
    all_goals exact ⟨_, _, rfl⟩

variable {cls : ClassDef} {values : List (String × HeapValue)} {finish : Int}

/-- Fields that lie one behind the other are written exactly if each has a value of its kind. -/
theorem fieldLiterals_isOk_iff {fs : List Field} {cursor : Int} (hcursor : ∀ f ∈ fs, cursor ≤ f.offset)
    (hprecedes : fs.Pairwise Field.Precedes) (h : Heap) :
    (∃ r h', fieldLiterals cls values finish cursor fs h = .ok r h') ↔
      ∀ f ∈ fs, (fieldValue values f).fits f.descriptor = true := by
  induction fs generalizing cursor h with
  | nil => simp [fieldLiterals]
  | cons f rest ih =>
      rw [List.pairwise_cons] at hprecedes
      have hstart : ¬ f.offset < cursor := Int.not_lt.2 (hcursor f List.mem_cons_self)
      rw [fieldLiterals, if_neg hstart, List.forall_mem_cons, ← valueLiteral_isOk_iff f.descriptor _ h, fieldValue]
      constructor
      · rintro ⟨r, h', hr⟩
        obtain ⟨literal, h₁, hvalue, hr⟩ := bind_eq_ok.1 hr
        obtain ⟨literals, h₂, hrest, -⟩ := bind_eq_ok.1 hr
        exact ⟨⟨literal, h₁, hvalue⟩, (ih hprecedes.1 hprecedes.2 h₁).1 ⟨literals, h₂, hrest⟩⟩
      · rintro ⟨⟨literal, h₁, hvalue⟩, hfits⟩
        obtain ⟨literals, h₂, hrest⟩ := (ih hprecedes.1 hprecedes.2 h₁).2 hfits
        exact ⟨_, h₂, bind_eq_ok.2 ⟨literal, h₁, hvalue, bind_eq_ok.2 ⟨literals, h₂, hrest, rfl⟩⟩⟩

theorem mergeSort_instanceFields (hbuilt : cls.Built) :
    cls.instanceFields.mergeSort (·.offset ≤ ·.offset) = cls.instanceFields := by
  refine List.mergeSort_of_pairwise ((hbuilt.made.apart hbuilt.interfacesBare).precedes.imp fun {f g} h => ?_)
  have hsize : 0 ≤ f.size := f.descriptor.size_valueType_nonneg
  rw [Field.Precedes] at h
  exact decide_eq_true (by omega)

theorem instanceLiteral_isOk_iff (hbuilt : cls.Built) (h : Heap) :
    (∃ r h', instanceLiteral cls values h = .ok r h') ↔
      ∀ f ∈ cls.instanceFields, (fieldValue values f).fits f.descriptor = true := by
  have hcursor : ∀ f ∈ cls.instanceFields, (4 : Int) ≤ f.offset := fun f hf => by
    have := (hbuilt.fields_inside.2 f hf).1
    omega
  rw [← fieldLiterals_isOk_iff hcursor (hbuilt.made.apart hbuilt.interfacesBare).precedes h]
  constructor
  · rintro ⟨r, h', hr⟩
    obtain ⟨literals, h₁, hfields, -⟩ := bind_eq_ok.1 hr
    rw [mergeSort_instanceFields hbuilt] at hfields
    exact ⟨literals, h₁, hfields⟩
  · rintro ⟨literals, h₁, hfields⟩
    rw [← mergeSort_instanceFields hbuilt] at hfields
    exact ⟨_, h₁, bind_eq_ok.2 ⟨literals, h₁, hfields, rfl⟩⟩

theorem fieldValue_of_sets {calls : List (String × HeapValue)} {o : HeapObject}
    (h : (HeapObject.instanceOf cls []).Sets calls o) : ∃ values, o = .instanceOf cls values ∧
      ∀ f ∈ cls.instanceFields, ∃ g, cls.instanceField? f.name = some g ∧
        fieldValue values f = (cls.lastSet? calls g).getD (.zero f.descriptor) ∧
        ∀ value, cls.lastSet? calls g = some value → value.fits g.descriptor = true := by
  obtain ⟨values, rfl, hvalues⟩ := h.lookup
  refine ⟨values, rfl, fun f hf => ?_⟩
  obtain ⟨g, -, hg, -⟩ := ClassDef.exists_instanceField? hf
  obtain ⟨hlookup, hfits⟩ := hvalues f.name g hg
  rw [hlookup] at hfits
  exact ⟨g, hg, by rw [fieldValue, hlookup], hfits⟩

/-- An instance whose fields were set by name is written with a value in each field's place: the one that the
field of this name nearest up the chain was last set to, or the field's own zero. Where no name is declared
twice this is each field's own last value. Otherwise a hidden field is given the value of the one that hides it,
and the instance is written exactly if such values are of the hidden fields' kinds. -/
theorem literal_of_sets (hbuilt : cls.Built) (hvoid : ∀ f ∈ cls.instanceFields, f.descriptor ≠ .void)
    {o o' : HeapObject} (hcreate : HeapObject.create cls = .ok o) {calls : List (String × HeapValue)}
    (hsets : o.Sets calls o') (h : Heap) :
    cls.instanceFields.Nodup ∧
    ((∃ r h', literal o' h = .ok r h') ↔ ∀ f ∈ cls.instanceFields, ∀ g value, cls.instanceField? f.name = some g →
      g ≠ f → cls.lastSet? calls g = some value → value.fits f.descriptor = true) ∧
    ∀ type c h', literal o' h = .ok (type, c) h' → ∀ f ∈ cls.instanceFields, ∃ g,
      cls.instanceField? f.name = some g ∧
        Stores h' type c f.offset f.size ((cls.lastSet? calls g).getD (.zero f.descriptor)) := by
  rw [HeapObject.create] at hcreate
  split at hcreate
  case h_2 | h_3 => cases hcreate
  cases hcreate
  obtain ⟨values, rfl, hkept⟩ := fieldValue_of_sets hsets
  rw [literal, instanceLiteral_isOk_iff hbuilt]
  refine ⟨(hbuilt.made.apart hbuilt.interfacesBare).nodup fun f hf => Descriptor.size_valueType_pos (hvoid f hf),
    ⟨fun hall f hf g value hg _ hlast => ?_, fun hall f hf => ?_⟩, fun type c h' hl f hf => ?_⟩
  · obtain ⟨g', hg', hvalue, -⟩ := hkept f hf
    obtain rfl : g' = g := Option.some.inj (hg'.symm.trans hg)
    have hfits := hall f hf
    rwa [hvalue, hlast, Option.getD_some] at hfits
  · obtain ⟨g, hg, hvalue, hfits⟩ := hkept f hf
    rw [hvalue]
    cases hlast : cls.lastSet? calls g with
    | none => exact HeapValue.zero_fits (hvoid f hf)
    | some value =>
        by_cases hsame : g = f
        · exact hsame ▸ hfits value hlast
        · exact hall f hf g value hg hsame hlast
  · obtain ⟨g, hg, hvalue, -⟩ := hkept f hf
    exact ⟨g, hg, hvalue ▸ ((instanceLiteral_eq_ok hl).2.1 f hf).1⟩

def weighing : List (String × HeapValue) := [("weight", .int 3), ("next", .reference none), ("weight", .int 7)]

def weighed : HeapObject := .instanceOf weighted [("weight", .int 7), ("next", .reference none)]

theorem sets_weighed : (HeapObject.instanceOf weighted []).Sets weighing weighed :=
  .concat #[] (.concat #[] (.concat #[] .nil rfl) rfl) rfl

theorem literal_of_sets_weighed :
    HeapObject.create weighted = .ok (.instanceOf weighted []) ∧ weighted.Built ∧
      (HeapObject.instanceOf weighted []).Sets weighing weighed ∧
      ∃ type c h', literal weighed {} = .ok (type, c) h' ∧
        Stores h' type c 28 4 (.int 7) ∧ Stores h' type c 24 2 (.short 0) := by
  obtain ⟨-, hok, hstored⟩ := literal_of_sets built_weighted (by decide) rfl sets_weighed {}
  have hvisible : ∀ f ∈ weighted.instanceFields, weighted.instanceField? f.name = some f := by decide
  obtain ⟨⟨type, c⟩, h', hl⟩ := hok.2 fun f hf g value hg hne _ =>
    absurd (Option.some.inj (hg.symm.trans (hvisible f hf))) hne
  obtain ⟨g, hg, hweight⟩ := hstored type c h' hl ⟨"weight", .int, false, 28⟩ (by decide)
  obtain ⟨g', hg', hrank⟩ := hstored type c h' hl ⟨"rank", .short, false, 24⟩ (by decide)
  cases (hvisible ⟨"weight", .int, false, 28⟩ (by decide)).symm.trans hg
  cases (hvisible ⟨"rank", .short, false, 24⟩ (by decide)).symm.trans hg'
  exact ⟨rfl, built_weighted, sets_weighed, type, c, h', hl, hweight, hrank⟩

def doubled : HeapObject := .instanceOf Pointer.recounted [("x", .int 7)]

theorem built_recounted : Pointer.recounted.Built := by
  refine @ClassDef.Built.of_build "Derived" 21 .concrete (some Pointer.counted) [] [] [⟨"x", "I", false⟩]
    Pointer.recounted ?_ (by decide) rfl
  rintro a ⟨⟩
  exact Pointer.counted_built

/-- The inherited field was never set, but its place has the value of the field that hides it. -/
theorem not_literal_of_sets_redeclared :
    HeapObject.create Pointer.recounted = .ok (.instanceOf Pointer.recounted []) ∧ Pointer.recounted.Built ∧
      (HeapObject.instanceOf Pointer.recounted []).Sets [("x", .int 7)] doubled ∧
      ⟨"x", .int, false, 8⟩ ∈ Pointer.counted.ownInstanceFields ∧
      Pointer.recounted.lastSet? [("x", .int 7)] ⟨"x", .int, false, 8⟩ = none ∧
      ∃ type c h', literal doubled {} = .ok (type, c) h' ∧ Stores h' type c 8 4 (.int 7) ∧
        ¬ Stores h' type c 8 4 (.zero .int) := by
  have hl : literal doubled {} = .ok
      (.struct true [.i32, .array 4 .i8, .i32, .array 4 .i8, .i32, .array 4 .i8],
        .struct true [(.i32, .int 21), (.array 4 .i8, .zero), (.i32, .int 7), (.array 4 .i8, .zero), (.i32, .int 7),
          (.array 4 .i8, .zero)]) {} := by
    rw [doubled, literal, instanceLiteral, mergeSort_instanceFields built_recounted]
    rfl
  refine ⟨rfl, built_recounted, .concat #[] .nil rfl, by decide, by decide, _, _, _, hl, ?_, ?_⟩
  · refine ⟨8, .i32, .int 7, ?_, rfl, rfl, rfl, rfl⟩
    simp [Constant.scalars, Constant.fieldScalars, IrType.startOf, IrType.size]
  · rintro ⟨start, type, scalar, hmem, hstart, -, -, hzero⟩
    obtain rfl : start = 8 := by omega
    obtain ⟨-, rfl⟩ : type = .i32 ∧ scalar = .int 7 := by
      simpa [Constant.scalars, Constant.fieldScalars, IrType.startOf, IrType.size] using hmem
    cases hzero

end Heap

end NativeBackend
