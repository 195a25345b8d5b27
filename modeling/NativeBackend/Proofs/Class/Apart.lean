import NativeBackend.Proofs.Class.Hierarchy
import NativeBackend.Proofs.Class.Layout

namespace NativeBackend

def Field.Precedes (f g : Field) : Prop := f.offset + f.size ≤ g.offset

namespace ClassDef

/-- What building a class after its superclass can give, also where interfaces are in the chain. -/
inductive Made : ClassDef → Prop
  | of_build {name : String} {typeId : Nat} {kind : ClassKind} {parent : Option ClassDef}
      {interfaces : List ClassDef} {methods : List MethodDecl} {fields : List FieldDecl} {c : ClassDef}
      (hparent : ∀ a, parent = some a → Made a)
      (h : build name typeId kind parent interfaces methods fields = .ok c) : Made c

/-- Interfaces have no room for a superclass: none in the chain inherits an instance field. -/
def InterfacesBare (c : ClassDef) : Prop :=
  ∀ k ∈ c.lineage, k.isInterface = true → ∀ a, k.parent = some a → a.instanceFields = []

theorem instanceFields_of_parent {c a : ClassDef} (h : c.parent = some a) :
    c.instanceFields = a.instanceFields ++ c.ownInstanceFields := by
  rw [instanceFields, parent_lineage_suffix h, List.reverse_cons, List.flatMap_append, List.flatMap_singleton,
    instanceFields]

theorem instanceFields_of_root {c : ClassDef} (h : c.parent = none) : c.instanceFields = c.ownInstanceFields := by
  rw [instanceFields, lineage_eq, ancestors, h, lineageOf, List.reverse_singleton, List.flatMap_singleton]

theorem InterfacesBare.parent {c a : ClassDef} (h : c.InterfacesBare) (hp : c.parent = some a) : a.InterfacesBare := by
  intro k hk
  exact h k (by rw [parent_lineage_suffix hp]; exact List.mem_cons_of_mem _ hk)

theorem placeFields_precedes {start : Int} (hstart : 0 ≤ start) (decls : List (String × Descriptor × Bool)) :
    ((placeFields start decls).1.filter (!·.isStatic)).Pairwise Field.Precedes := by
  induction decls generalizing start with
  | nil => exact .nil
  | cons decl rest ih =>
      obtain ⟨name, descriptor, isStatic⟩ := decl
      cases isStatic with
      | true => exact ih hstart
      | false =>
          have hsize := descriptor.size_valueType_nonneg
          have hplace := le_alignUp hstart descriptor.valueType.size
          have hnext : 0 ≤ alignUp start descriptor.valueType.size + descriptor.valueType.size := by omega
          refine List.pairwise_cons.2 ⟨fun g hg => ?_, ih hnext⟩
          obtain ⟨hg, hstatic⟩ := List.mem_filter.1 hg
          exact ((placeFields_bounds hnext rest).2 g hg (by simpa using hstatic)).1

theorem placeFields_aligned (start : Int) (decls : List (String × Descriptor × Bool)) :
    ∀ f ∈ (placeFields start decls).1, f.isStatic = false → 0 < f.size → f.size ∣ f.offset := by
  induction decls generalizing start with
  | nil => simp [placeFields]
  | cons decl rest ih =>
      obtain ⟨name, descriptor, isStatic⟩ := decl
      cases isStatic with
      | true =>
          refine List.forall_mem_cons.2 ⟨fun hstatic => ?_, ih start⟩
          cases hstatic
      | false => exact List.forall_mem_cons.2 ⟨fun _ hpos => dvd_alignUp start hpos, ih _⟩

structure Apart (c : ClassDef) : Prop where
  size : 0 ≤ c.instanceSize
  inside : ∀ f ∈ c.instanceFields, 0 ≤ f.offset ∧ f.offset + f.size ≤ c.instanceSize
  precedes : c.instanceFields.Pairwise Field.Precedes

theorem kind_of_build {name : String} {typeId : Nat} {kind : ClassKind} {parent : Option ClassDef}
    {interfaces : List ClassDef} {methods : List MethodDecl} {fields : List FieldDecl} {c : ClassDef}
    (h : build name typeId kind parent interfaces methods fields = .ok c) : c.kind = kind := by
  obtain ⟨ms, -, h⟩ := Steps.except_bind_eq_ok.1 h
  obtain ⟨decls, -, h⟩ := Steps.except_bind_eq_ok.1 h
  cases h
  rfl

theorem inherited_inside {c : ClassDef} (hbare : c.InterfacesBare) (hparent : ∀ a, c.parent = some a → a.Apart) :
    0 ≤ fieldsStart c.kind c.parent ∧ ∃ inherited, c.instanceFields = inherited ++ c.ownInstanceFields ∧
      (∀ f ∈ inherited, 0 ≤ f.offset ∧ f.offset + f.size ≤ fieldsStart c.kind c.parent) ∧
      inherited.Pairwise Field.Precedes := by
  cases hp : c.parent with
  | none =>
      refine ⟨?_, [], instanceFields_of_root hp, by simp, .nil⟩
      cases c.kind <;> decide
  | some a =>
      have ha := hparent a hp
      have happend := instanceFields_of_parent hp
      by_cases hkind : c.kind = .interface
      · have hnone : a.instanceFields = [] :=
          hbare c (by rw [lineage_eq]; exact List.mem_cons_self) (by simp [isInterface, hkind]) a hp
        rw [hnone] at happend
        exact ⟨by simp [hkind, fieldsStart], [], happend, by simp, .nil⟩
      · rw [show fieldsStart c.kind (some a) = a.instanceSize by cases h : c.kind <;> simp_all [fieldsStart]]
        exact ⟨ha.size, a.instanceFields, happend, ha.inside, ha.precedes⟩

/-- Instance fields share no byte, with those of superclasses or with each other. -/
theorem Made.apart {c : ClassDef} (hc : c.Made) (hbare : c.InterfacesBare) : c.Apart := by
  induction hc with
  | @of_build name typeId kind parent interfaces methods fields c _ h ih =>
      obtain rfl := kind_of_build h
      obtain ⟨rfl, decls, hfields, hsize⟩ := build_eq_ok h
      obtain ⟨hstart, inherited, happend, hinside, hprecedes⟩ :=
        inherited_inside hbare fun a ha => ih a ha (hbare.parent ha)
      obtain ⟨hle, hplaced⟩ := placeFields_bounds hstart decls
      have hround := le_alignUp (Int.le_trans hstart hle) objectHeaderSize
      rw [← hsize] at hround
      have hown : ∀ f ∈ c.ownInstanceFields, fieldsStart c.kind c.parent ≤ f.offset ∧
          f.offset + f.size ≤ (placeFields (fieldsStart c.kind c.parent) decls).2 := by
        intro f hf
        obtain ⟨hf, hstatic⟩ := List.mem_filter.1 hf
        exact hplaced f (hfields ▸ hf) (by simpa using hstatic)
      refine ⟨by omega, fun f hf => ?_, ?_⟩
      · rcases List.mem_append.1 (happend ▸ hf) with hf | hf
        · have := hinside f hf
          omega
        · have := hown f hf
          omega
      · rw [happend, List.pairwise_append]
        refine ⟨hprecedes, ?_, fun f hf g hg => Int.le_trans (hinside f hf).2 (hown g hg).1⟩
        rw [ownInstanceFields, hfields]
        exact placeFields_precedes hstart decls

theorem Made.aligned {c : ClassDef} (hc : c.Made) :
    (∀ f ∈ c.instanceFields, 0 < f.size → f.size ∣ f.offset) ∧ objectHeaderSize ∣ c.instanceSize := by
  induction hc with
  | @of_build name typeId kind parent interfaces methods fields c _ h ih =>
      obtain ⟨rfl, decls, hfields, hsize⟩ := build_eq_ok h
      refine ⟨fun f hf => ?_, hsize ▸ dvd_alignUp _ (by decide)⟩
      obtain ⟨k, hk, hfk⟩ := mem_instanceFields.1 hf
      rw [lineage_eq] at hk
      rcases List.mem_cons.1 hk with rfl | hk
      · obtain ⟨hfk, hstatic⟩ := List.mem_filter.1 hfk
        exact placeFields_aligned _ decls f (hfields ▸ hfk) (by simpa using hstatic)
      · cases hp : c.parent with
        | none => simp [ancestors, hp, lineageOf] at hk
        | some a =>
            rw [ancestors, hp, lineageOf] at hk
            exact (ih a hp).1 f (mem_instanceFields.2 ⟨k, hk, hfk⟩)

theorem mem_of_instanceField? {c : ClassDef} {name : String} {f : Field} (h : c.instanceField? name = some f) :
    f ∈ c.instanceFields ∧ f.name = name := by
  obtain ⟨k, hk, hf⟩ := List.exists_of_findSome?_eq_some h
  exact ⟨mem_instanceFields.2 ⟨k, hk, List.mem_of_find?_eq_some hf⟩, by simpa using List.find?_some hf⟩

theorem Apart.find?_eq_some {c : ClassDef} (hc : c.Apart) {f : Field} (hf : f ∈ c.instanceFields) {offset : Int}
    (hlow : f.offset ≤ offset) (hhigh : offset < f.offset + f.size) :
    (c.instanceFields.find? fun g => g.offset ≤ offset && offset < g.offset + g.size) = some f := by
  obtain ⟨before, behind, hsplit⟩ := List.append_of_mem hf
  refine List.find?_eq_some_iff_append.2 ⟨by simp [hlow, hhigh], before, behind, hsplit, fun g hg => ?_⟩
  have hprecedes := hc.precedes
  rw [hsplit, List.pairwise_append] at hprecedes
  have hbefore : g.offset + g.size ≤ f.offset := hprecedes.2.2 g hg f List.mem_cons_self
  simp only [Bool.not_eq_true', Bool.and_eq_false_iff, decide_eq_false_iff_not]
  omega

theorem Built.parent {c a : ClassDef} (hc : c.Built) (hp : c.parent = some a) : a.Built := by
  obtain ⟨hparent, -, h⟩ := hc
  exact hparent a ((build_eq_ok h).1 ▸ hp)

theorem Built.isInterface {c : ClassDef} (hc : c.Built) : c.isInterface = false := by
  obtain ⟨-, hkind, h⟩ := hc
  rw [ClassDef.isInterface, kind_of_build h, beq_eq_false_iff_ne]
  exact hkind

theorem Built.instanceSize_le {c a : ClassDef} (hc : c.Built) (hp : c.parent = some a) :
    a.instanceSize ≤ c.instanceSize := by
  have hroom := (hc.parent hp).fields_inside.1
  have hinterface := hc.isInterface
  obtain ⟨-, -, h⟩ := hc
  obtain rfl := kind_of_build h
  obtain ⟨rfl, decls, -, hsize⟩ := build_eq_ok h
  have hstart : fieldsStart c.kind c.parent = a.instanceSize := by
    rw [hp]
    cases hkind : c.kind <;> simp_all [fieldsStart, ClassDef.isInterface]
  obtain ⟨hle, -⟩ := placeFields_bounds (by omega : 0 ≤ fieldsStart c.kind c.parent) decls
  have hround := le_alignUp (by omega : 0 ≤ (placeFields (fieldsStart c.kind c.parent) decls).2) objectHeaderSize
  omega

/-- An instance starts like one of any superclass: the fields inherited from there come first, each in its place. -/
theorem Built.inherits {c : ClassDef} (hc : c.Built) :
    ∀ a ∈ c.lineage, a.instanceSize ≤ c.instanceSize ∧ a.instanceFields <+: c.instanceFields := by
  induction hc with
  | @of_build name typeId kind parent interfaces methods fields c hparent hkind h ih =>
      have hc : c.Built := .of_build hparent hkind h
      obtain ⟨rfl, -⟩ := build_eq_ok h
      intro a ha
      rw [lineage_eq] at ha
      rcases List.mem_cons.1 ha with rfl | ha
      · exact ⟨Int.le_refl _, List.prefix_rfl⟩
      · cases hp : c.parent with
        | none => simp [ancestors, hp, lineageOf] at ha
        | some parent =>
            rw [ancestors, hp, lineageOf] at ha
            obtain ⟨hsize, hprefix⟩ := ih parent hp a ha
            have happend := instanceFields_of_parent hp
            exact ⟨Int.le_trans hsize (hc.instanceSize_le hp), hprefix.trans ⟨_, happend.symm⟩⟩

theorem Built.made {c : ClassDef} (hc : c.Built) : c.Made := by
  induction hc with
  | of_build _ _ h ih => exact .of_build ih h

theorem Built.interfacesBare {c : ClassDef} (hc : c.Built) : c.InterfacesBare := by
  intro k hk hinterface
  have hk : k.Built := forall_mem_lineage (fun c hc a => hc.parent) hc k hk
  rw [hk.isInterface] at hinterface
  cases hinterface

end ClassDef

end NativeBackend
