import NativeBackend.Class.Layout
import NativeBackend.Proofs.Steps

namespace NativeBackend

theorem le_alignUp {n : Int} (hn : 0 ≤ n) (align : Int) : n ≤ alignUp n align := by
  rw [alignUp]
  split
  · exact Int.le_refl _
  · rename_i h
    have hpos : 0 < align := by omega
    rw [Int.tdiv_eq_ediv_of_nonneg (by omega)]
    have hdiv := Int.ediv_mul_add_emod (n + align - 1) align
    have hmod := Int.emod_lt_of_pos (n + align - 1) hpos
    omega

theorem dvd_alignUp (n : Int) {align : Int} (h : 0 < align) : align ∣ alignUp n align := by
  rw [alignUp]
  split
  · obtain rfl : align = 1 := by omega
    exact Int.one_dvd n
  · exact Int.dvd_mul_left _ _

theorem Descriptor.size_valueType_nonneg (d : Descriptor) : 0 ≤ d.valueType.size := by
  cases d <;> simp [valueType, Ty.size, Ty.signed, Ty.unsigned, pointerSize]

namespace ClassDef

/-- What building a class after its superclass can give, where no class of the chain is an interface. -/
inductive Built : ClassDef → Prop
  | of_build {name : String} {typeId : Nat} {kind : ClassKind} {parent : Option ClassDef}
      {interfaces : List ClassDef} {methods : List MethodDecl} {fields : List FieldDecl} {c : ClassDef}
      (hparent : ∀ a, parent = some a → Built a) (hkind : kind ≠ .interface)
      (h : build name typeId kind parent interfaces methods fields = .ok c) : Built c

theorem placeFields_bounds {start : Int} (hstart : 0 ≤ start) (decls : List (String × Descriptor × Bool)) :
    start ≤ (placeFields start decls).2 ∧
      ∀ f ∈ (placeFields start decls).1, f.isStatic = false →
        start ≤ f.offset ∧ f.offset + f.size ≤ (placeFields start decls).2 := by
  induction decls generalizing start with
  | nil => exact ⟨Int.le_refl _, by simp [placeFields]⟩
  | cons decl rest ih =>
      obtain ⟨name, descriptor, isStatic⟩ := decl
      cases isStatic with
      | true =>
          obtain ⟨hle, hfields⟩ := ih hstart
          refine ⟨hle, fun f hf hstatic => ?_⟩
          rcases List.mem_cons.1 hf with rfl | hf
          · cases hstatic
          · exact hfields f hf hstatic
      | false =>
          have hsize := descriptor.size_valueType_nonneg
          have hplace := le_alignUp hstart descriptor.valueType.size
          obtain ⟨hle, hfields⟩ := @ih (alignUp start descriptor.valueType.size + descriptor.valueType.size) (by omega)
          refine ⟨Int.le_trans (by omega) hle, fun f hf hstatic => ?_⟩
          rcases List.mem_cons.1 hf with rfl | hf
          · exact ⟨hplace, hle⟩
          · obtain ⟨hlow, hhigh⟩ := hfields f hf hstatic
            exact ⟨by omega, hhigh⟩

theorem build_eq_ok {name : String} {typeId : Nat} {kind : ClassKind} {parent : Option ClassDef}
    {interfaces : List ClassDef} {methods : List MethodDecl} {fields : List FieldDecl} {c : ClassDef}
    (h : build name typeId kind parent interfaces methods fields = .ok c) :
    c.parent = parent ∧ ∃ decls, c.fields = (placeFields (fieldsStart kind parent) decls).1 ∧
      c.instanceSize = alignUp (placeFields (fieldsStart kind parent) decls).2 objectHeaderSize := by
  obtain ⟨ms, -, h⟩ := Steps.except_bind_eq_ok.1 h
  obtain ⟨decls, -, h⟩ := Steps.except_bind_eq_ok.1 h
  cases h
  exact ⟨rfl, decls, rfl, rfl⟩

theorem Built.fields_inside {c : ClassDef} (hc : c.Built) :
    8 ≤ c.instanceSize ∧ ∀ f ∈ c.instanceFields, 8 ≤ f.offset ∧ f.offset + f.size ≤ c.instanceSize := by
  induction hc with
  | @of_build name typeId kind parent interfaces methods fields c _ hkind h ih =>
      obtain ⟨rfl, decls, hfields, hsize⟩ := build_eq_ok h
      have hstart : 8 ≤ fieldsStart kind c.parent ∧
          (∀ a, c.parent = some a → fieldsStart kind c.parent = a.instanceSize) := by
        cases kind with
        | interface => exact absurd rfl hkind
        | _ =>
            cases hp : c.parent with
            | none => exact ⟨by decide, by simp⟩
            | some a => exact ⟨(ih a hp).1, fun b hb => by cases hb; rfl⟩
      obtain ⟨hle, hplaced⟩ := placeFields_bounds (by omega : 0 ≤ fieldsStart kind c.parent) decls
      have hround := le_alignUp (by omega : 0 ≤ (placeFields (fieldsStart kind c.parent) decls).2) objectHeaderSize
      refine ⟨by omega, fun f hf => ?_⟩
      rw [instanceFields, lineage_eq, List.reverse_cons, List.flatMap_append] at hf
      rcases List.mem_append.1 hf with hf | hf
      · cases hp : c.parent with
        | none => simp [ancestors, hp, lineageOf] at hf
        | some a =>
            rw [ancestors, hp, lineageOf] at hf
            have hinside := (ih a hp).2 f hf
            have hparent := hstart.2 a hp
            omega
      · rw [List.flatMap_singleton, ownInstanceFields, hfields, List.mem_filter] at hf
        have hinside := hplaced f hf.1 (by simpa using hf.2)
        omega

theorem mem_instanceFields {c : ClassDef} {f : Field} :
    f ∈ c.instanceFields ↔ ∃ k ∈ c.lineage, f ∈ k.ownInstanceFields := by
  simp [instanceFields]

theorem exists_instanceField? {c : ClassDef} {f : Field} (hf : f ∈ c.instanceFields) :
    ∃ g ∈ c.instanceFields, c.instanceField? f.name = some g ∧ g.name = f.name := by
  obtain ⟨k, hk, hfk⟩ := mem_instanceFields.1 hf
  cases hfield : c.instanceField? f.name with
  | none =>
      have hnone := List.findSome?_eq_none_iff.1 hfield k hk
      have := List.find?_eq_none.1 hnone f hfk
      simp at this
  | some g =>
      obtain ⟨k', hk', hg⟩ := List.exists_of_findSome?_eq_some hfield
      exact ⟨g, mem_instanceFields.2 ⟨k', hk', List.mem_of_find?_eq_some hg⟩, rfl,
        by simpa using List.find?_some hg⟩

end ClassDef

end NativeBackend
