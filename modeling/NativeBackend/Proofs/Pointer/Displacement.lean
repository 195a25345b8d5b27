import NativeBackend.Class.Layout
import NativeBackend.Pointer.Resolve
import NativeBackend.Proofs.Steps

namespace NativeBackend

mutual

def Ty.classes : Ty → List ClassDef
  | .array element _ => element.classes
  | .compound layout => layout.classes
  | .object cls => [cls]
  | _ => []

def Compound.classes : Compound → List ClassDef
  | ⟨_, _, members, _, _⟩ => Member.classesAll members

def Member.classesAll : List Member → List ClassDef
  | [] => []
  | m :: ms => m.classes ++ Member.classesAll ms

def Member.classes : Member → List ClassDef
  | ⟨_, _, type, _⟩ => type.classes

end

theorem Member.classes_subset {m : Member} {ms : List Member} (h : m ∈ ms) :
    m.type.classes ⊆ Member.classesAll ms := by
  induction ms with
  | nil => cases h
  | cons n ms ih =>
      rw [classesAll]
      rcases List.mem_cons.1 h with rfl | h
      · cases m
        exact List.subset_append_left _ _
      · exact List.subset_append_of_subset_right _ (ih h)

theorem Descriptor.classes_valueType (d : Descriptor) : d.valueType.classes = [] := by
  cases d <;> rfl

namespace Pointer

variable {p q : Pointer} {offset rest : Int} {sibling : Bool}

structure Displaced (p q : Pointer) (bytes : Int) : Prop where
  root : q.root = p.root
  offset : q.offset = p.offset + bytes

theorem Displaced.trans {r : Pointer} {n m : Int} (h : Displaced p q n) (h' : Displaced q r m) :
    Displaced p r (n + m) where
  root := h'.root.trans h.root
  offset := by rw [h'.offset, h.offset, Int.add_assoc]

theorem Displaced.congr {n m : Int} (h : Displaced p q n) (hbytes : n = m) : Displaced p q m := hbytes ▸ h

theorem displaced_of_derive {what : String} {step : Derivation} {t : Ty} {n u : Int}
    (h : p.derive what step t n u = .ok q) : Displaced p q (n * u) := by
  rw [derive] at h
  split at h
  · cases h
    exact ⟨rfl, rfl⟩
  · cases h

theorem displaced_of_element {t : Ty} {n i : Int} (hp : p.pointee = .array t n) (h : p.element i = .ok q) :
    Displaced p q (i * t.size) := by
  simp only [element, hp] at h
  exact displaced_of_derive h

theorem displaced_of_stride {n : Int} (h : p.stride n = .ok q) : Displaced p q (n * p.pointee.size) := by
  rw [stride] at h
  split at h
  · rename_i hn
    cases h
    exact ⟨rfl, by simp [hn]⟩
  · exact displaced_of_derive h

theorem displaced_of_member {c : Compound} {i : Nat} {m : Member} (hp : p.pointee = .compound c)
    (hm : c.members[i]? = some m) (h : p.member i = .ok q) : Displaced p q m.offset ∧ q.pointee = m.type := by
  simp only [member, hp, hm] at h
  exact ⟨by simpa using displaced_of_derive h, pointee_of_derive h⟩

theorem displaced_of_instanceField {c : ClassDef} {name : String} (hp : p.pointee = .object c)
    (h : p.instanceField name = .ok q) :
    ∃ f, c.instanceField? name = some f ∧ Displaced p q f.offset ∧ q.pointee = f.type := by
  simp only [instanceField, hp] at h
  split at h
  · rename_i f hf
    exact ⟨f, hf, by simpa using displaced_of_derive h, pointee_of_derive h⟩
  · cases h

theorem getElem?_of_memberAtOrBefore? {c : Compound} {m : Member} {i : Nat}
    (h : c.memberAtOrBefore? offset = some (m, i)) : c.members[i]? = some m := by
  have hmem := (List.mem_filter.1 (List.mem_of_getLast? h)).1
  exact List.mem_zipIdx_iff_getElem?.1 hmem

/-- How far a class may mislead: the way from a field to the one that its name refers to. -/
def Misleads (c : ClassDef) (bytes : Int) : Prop :=
  ∃ f ∈ c.instanceFields, ∃ g, c.instanceField? f.name = some g ∧ bytes = g.offset - f.offset

/-- One step toward an offset keeps the distance, except for a field whose name refers to another. -/
theorem displaced_of_part (h : p.part offset = .ok (q, rest)) :
    ∃ wrong, Displaced p q (offset - rest + wrong) ∧ q.pointee.classes ⊆ p.pointee.classes ∧
      (wrong = 0 ∨ q.pointee.classes = [] ∧ ∃ c ∈ p.pointee.classes, Misleads c wrong) := by
  rw [part.eq_def] at h
  split at h
  case h_1 layout ht =>
    split at h
    · rename_i m i hm
      obtain ⟨r, hr, he⟩ := map_eq_ok h
      cases he
      obtain ⟨hd, hpointee⟩ := displaced_of_member ht (getElem?_of_memberAtOrBefore? hm) hr
      refine ⟨0, hd.congr (by omega), ?_, .inl rfl⟩
      rw [hpointee, ht, Ty.classes]
      cases layout
      exact Member.classes_subset (List.mem_of_getElem? (getElem?_of_memberAtOrBefore? hm))
    · cases h
  case h_2 cls ht =>
    split at h
    · rename_i f hf
      obtain ⟨r, hr, he⟩ := map_eq_ok h
      cases he
      obtain ⟨g, hg, hd, hpointee⟩ := displaced_of_instanceField ht hr
      have hnone : q.pointee.classes = [] := by rw [hpointee, Field.type, Descriptor.classes_valueType]
      refine ⟨g.offset - f.offset, hd.congr (by omega), by simp [hnone], .inr ⟨hnone, cls, ?_, f, ?_, g, hg, rfl⟩⟩
      · rw [ht]
        exact List.mem_singleton_self _
      · exact List.mem_of_find?_eq_some hf
    · cases h
  case h_3 => cases h

theorem displaced_of_descend (h : p.descend offset sibling = .ok (q, rest)) :
    ∃ wrong, Displaced p q (offset - rest + wrong) ∧ q.pointee.classes ⊆ p.pointee.classes ∧
      (wrong = 0 ∨ q.pointee.classes = [] ∧ ∃ c ∈ p.pointee.classes, Misleads c wrong) := by
  rw [descend.eq_def] at h
  split at h
  case h_1 element n ht =>
    split at h
    · cases h
    · obtain ⟨r, hr, he⟩ := map_eq_ok h
      cases he
      refine ⟨0, ?_, ?_, .inl rfl⟩
      · have := Int.ediv_mul_add_emod offset element.size
        exact (displaced_of_element ht hr).congr (by omega)
      · rw [pointee_of_element ht hr, ht, Ty.classes]
        exact List.Subset.refl _
  case h_2 =>
    split at h
    · cases h
    · split at h
      · exact displaced_of_part h
      · split at h
        · obtain ⟨r, hr, he⟩ := map_eq_ok h
          cases he
          refine ⟨0, ?_, ?_, .inl rfl⟩
          · have := Int.ediv_mul_add_emod offset p.pointee.size
            exact (displaced_of_stride hr).congr (by omega)
          · rw [pointee_of_stride hr]
            exact List.Subset.refl _
        · cases h

theorem displaced_of_resolve (h : p.resolve offset sibling = .ok q) :
    ∃ wrong, Displaced p q (offset + wrong) ∧ (wrong = 0 ∨ ∃ c ∈ p.pointee.classes, Misleads c wrong) := by
  fun_induction resolve p offset sibling with
  | case1 p sibling =>
      cases h
      exact ⟨0, ⟨rfl, by simp⟩, .inl rfl⟩
  | case2 p offset sibling _ e hstep => cases h
  | case3 p offset sibling _ r rest hstep ih =>
      obtain ⟨wrong, hd, hsubset, hwrong⟩ := displaced_of_descend hstep
      obtain ⟨wrong', hd', hwrong'⟩ := ih h
      refine ⟨wrong + wrong', (hd.trans hd').congr (by omega), ?_⟩
      rcases hwrong with rfl | ⟨hnone, c, hc, hmisleads⟩
      · rw [Int.zero_add]
        exact hwrong'.imp_right fun ⟨c, hc, hmisleads⟩ => ⟨c, hsubset hc, hmisleads⟩
      · obtain rfl : wrong' = 0 := hwrong'.resolve_right fun ⟨c, hc, _⟩ => by simp [hnone] at hc
        rw [Int.add_zero]
        exact .inr ⟨c, hc, hmisleads⟩

/-- The pointer at a byte offset has the root of the pointer it starts from. It lies at the offset, or as
far off as two fields of one name in a class inside of the pointee are apart. -/
theorem resolve_offset (h : p.resolve offset sibling = .ok q) :
    q.root = p.root ∧ (q.offset = p.offset + offset ∨
      ∃ c ∈ p.pointee.classes, ∃ f ∈ c.instanceFields, ∃ g, c.instanceField? f.name = some g ∧
        g.offset ≠ f.offset ∧ q.offset = p.offset + offset + (g.offset - f.offset)) := by
  obtain ⟨wrong, hd, hwrong⟩ := displaced_of_resolve h
  have hoffset : q.offset = p.offset + offset + wrong := by
    have := hd.offset
    omega
  refine ⟨hd.root, ?_⟩
  rcases hwrong with rfl | ⟨c, hc, f, hf, g, hg, rfl⟩
  · exact .inl (by omega)
  · by_cases hsame : g.offset = f.offset
    · exact .inl (by omega)
    · exact .inr ⟨c, hc, f, hf, g, hg, hsame, hoffset⟩

def cells : Pointer :=
  .global "cells" (.compound (.layoutStruct "cell" [("key", .signed 8), ("parts", .array (.signed 2) 3)]))

theorem resolve_offset_before_cells :
    ∃ q, cells.resolve (-4) true = .ok q ∧ q.root = .global "cells" ∧ q.offset = -4 := by
  have hok : (cells.resolve (-4) true).isOk = true := by decide +kernel
  cases h : cells.resolve (-4) true with
  | error e =>
      rw [h] at hok
      cases hok
  | ok q =>
      obtain ⟨hroot, hoffset⟩ := resolve_offset h
      refine ⟨q, rfl, hroot, hoffset.resolve_right ?_⟩
      rintro ⟨c, hc, -⟩
      exact List.not_mem_nil hc

def counted : ClassDef := ⟨"Base", 20, .concrete, none, [], [], [⟨"x", .int, false, 8⟩], 16⟩

def recounted : ClassDef := ⟨"Derived", 21, .concrete, some counted, [], [], [⟨"x", .int, false, 16⟩], 24⟩

/-- The offset is in the inherited field, whose name refers to the subclass's own field. -/
theorem not_resolve_offset_of_redeclared :
    ClassDef.build "Base" 20 .concrete none [] [] [⟨"x", "I", false⟩] = .ok counted ∧
      ClassDef.build "Derived" 21 .concrete (some counted) [] [] [⟨"x", "I", false⟩] = .ok recounted ∧
      ∃ q, (Pointer.global "g" (.object recounted)).resolve 8 false = .ok q ∧ q.offset = 16 ∧
        q.offset ≠ (Pointer.global "g" (.object recounted)).offset + 8 := by
  have hoffset : ((Pointer.global "g" (.object recounted)).resolve 8 false).toOption.map (·.offset) = some 16 := by
    decide +kernel
  obtain ⟨q, h, hq⟩ := Steps.map_toOption_eq_some.1 hoffset
  exact ⟨rfl, rfl, q, h, hq, by rw [hq]; decide⟩

end Pointer

end NativeBackend
