import Mathlib.Order.Bounds.Basic
import Mathlib.Order.MinMax
import NativeBackend.Proofs.Types.Members

namespace NativeBackend

def alignedFrom (n align : Int) : Set Int := {k | align ∣ k ∧ n ≤ k}

theorem alignUp_lt_add {n align : Int} (hn : 0 ≤ n) (halign : 1 ≤ align) : alignUp n align < n + align := by
  rw [alignUp]
  split
  · omega
  · rw [Int.tdiv_eq_ediv_of_nonneg (by omega)]
    have hdiv := Int.ediv_mul_add_emod (n + align - 1) align
    have hmod := Int.emod_nonneg (n + align - 1) (by omega : align ≠ 0)
    omega

theorem alignUp_isLeast {n align : Int} (hn : 0 ≤ n) (halign : 1 ≤ align) :
    IsLeast (alignedFrom n align) (alignUp n align) := by
  have hdvd : align ∣ alignUp n align := dvd_alignUp n halign
  refine ⟨⟨hdvd, le_alignUp hn align⟩, ?_⟩
  rintro k ⟨hk, hle⟩
  have hlt := alignUp_lt_add hn halign
  by_contra hbelow
  have hgap : align ≤ alignUp n align - k := Int.le_of_dvd (by omega) (Int.dvd_sub hdvd hk)
  omega

namespace Member

def endFrom (start : Int) (ms : List Member) : Int := (ms.getLast?.map finish).getD start

@[simp]
theorem endFrom_nil (start : Int) : endFrom start [] = start := rfl

@[simp]
theorem endFrom_cons (start : Int) (m : Member) (ms : List Member) :
    endFrom start (m :: ms) = endFrom m.finish ms := by
  rw [endFrom, endFrom, List.getLast?_cons]
  cases ms.getLast? <;> rfl

theorem foldl_align_isGreatest (ms : List Member) (first : Int) :
    IsGreatest {a | a = first ∨ ∃ m ∈ ms, m.align = a} (ms.foldl (fun a m => max a m.align) first) := by
  induction ms generalizing first with
  | nil => exact ⟨.inl rfl, by rintro a (rfl | ⟨m, ⟨⟩, -⟩); exact Int.le_refl _⟩
  | cons m ms ih =>
      obtain ⟨hmem, hbound⟩ := ih (max first m.align)
      refine ⟨?_, ?_⟩
      · rcases hmem with heq | ⟨k, hk, heq⟩
        · rw [List.foldl_cons, heq]
          rcases max_choice first m.align with hmax | hmax
          · exact .inl hmax
          · exact .inr ⟨m, List.mem_cons_self, hmax.symm⟩
        · exact .inr ⟨k, List.mem_cons_of_mem _ hk, heq⟩
      · have hmax : max first m.align ≤ _ := hbound (.inl rfl)
        rintro a (rfl | ⟨k, hk, rfl⟩)
        · exact Int.le_trans (Int.le_max_left _ _) hmax
        · rcases List.mem_cons.1 hk with rfl | hk
          · exact Int.le_trans (Int.le_max_right _ _) hmax
          · exact hbound (.inr ⟨k, hk, rfl⟩)

end Member

namespace Compound

theorem map_place (start : Int) (fields : List (String × Ty)) :
    (place start fields).1.map (fun m => (m.name, m.type, m.align)) =
      fields.map fun f => (f.1, f.2, f.2.align) := by
  induction fields generalizing start with
  | nil => rfl
  | cons field rest ih => simp only [place, List.map_cons, ih]

theorem place_snd (start : Int) (fields : List (String × Ty)) :
    (place start fields).2 = Member.endFrom start (place start fields).1 := by
  induction fields generalizing start with
  | nil => rfl
  | cons field rest ih =>
      rw [place, Member.endFrom_cons]
      exact ih _

/-- Each member starts as early as its alignment allows behind the one before it. -/
theorem place_offset {start : Int} (hstart : 0 ≤ start) {fields : List (String × Ty)}
    (h : ∀ f ∈ fields, 0 ≤ f.2.size ∧ 1 ≤ f.2.align) {before behind : List Member} {m : Member}
    (hsplit : (place start fields).1 = before ++ m :: behind) :
    IsLeast (alignedFrom (Member.endFrom start before) m.align) m.offset := by
  induction fields generalizing start before with
  | nil => simp [place] at hsplit
  | cons field rest ih =>
      obtain ⟨name, type⟩ := field
      obtain ⟨hsize, halign⟩ := h _ List.mem_cons_self
      have hplace := le_alignUp hstart type.align
      rw [place] at hsplit
      cases before with
      | nil =>
          obtain ⟨rfl, -⟩ := List.cons.inj hsplit
          exact alignUp_isLeast hstart halign
      | cons first before =>
          obtain ⟨rfl, hrest⟩ := List.cons.inj hsplit
          rw [Member.endFrom_cons]
          have hfinish : 0 ≤ alignUp start type.align + type.size := by
            dsimp only at hsize
            omega
          exact ih hfinish (fun f hf => h f (List.mem_cons_of_mem _ hf)) hrest

/-- A struct of some fields in declaration order that wastes no bytes: every member and the end lie at the first place
that alignment allows. -/
structure Minimal (fields : List (String × Ty)) (c : Compound) : Prop where
  tag : c.tag = .struct
  declared : c.members.map (fun m => (m.name, m.type, m.align)) = fields.map fun f => (f.1, f.2, f.2.align)
  offset : ∀ before m behind, c.members = before ++ m :: behind →
    IsLeast (alignedFrom (Member.endFrom 0 before) m.align) m.offset
  apart : c.members.Pairwise Member.Precedes
  inside : ∀ m ∈ c.members, 0 ≤ m.offset ∧ m.offset ≤ m.finish ∧ m.finish ≤ c.size
  align : IsGreatest {a | a = 1 ∨ ∃ m ∈ c.members, m.align = a} c.align
  size : IsLeast (alignedFrom (Member.endFrom 0 c.members) c.align) c.size

/-- Rounding up gives the least multiple, and a struct laid out with it is minimal. It has a size and an alignment of
its own, so that it can be a field in turn. -/
theorem layoutStruct_minimal :
    (∀ n align : Int, 0 ≤ n → 1 ≤ align → IsLeast (alignedFrom n align) (alignUp n align)) ∧
      ∀ (name : String) (fields : List (String × Ty)), (∀ f ∈ fields, 0 ≤ f.2.size ∧ 1 ≤ f.2.align) →
        (layoutStruct name fields).name = name ∧ (layoutStruct name fields).Minimal fields ∧
          0 ≤ (Ty.compound (layoutStruct name fields)).size ∧ 1 ≤ (Ty.compound (layoutStruct name fields)).align := by
  refine ⟨fun n align hn halign => alignUp_isLeast hn halign, fun name fields h => ?_⟩
  have hsize : ∀ f ∈ fields, 0 ≤ f.2.size := fun f hf => (h f hf).1
  have halign := Member.foldl_align_isGreatest (place 0 fields).1 1
  have hone : 1 ≤ (layoutStruct name fields).align := halign.2 (.inl rfl)
  obtain ⟨hencloses, hprecedes⟩ := layoutStruct_encloses name hsize
  have hend : 0 ≤ (place 0 fields).2 := (place_bounds (Int.le_refl 0) hsize).1
  refine ⟨rfl, ⟨rfl, map_place 0 fields, ?_, hprecedes, fun m hm => ?_, halign, ?_⟩, hencloses.size, hone⟩
  · intro before m behind hsplit
    exact place_offset (Int.le_refl 0) h hsplit
  · obtain ⟨f, hf, htype⟩ := exists_of_mem_place hm
    obtain ⟨hlow, hhigh⟩ := hencloses.members m hm
    exact ⟨hlow, Int.le_add_of_nonneg_right (htype ▸ hsize f hf), hhigh⟩
  · change IsLeast (alignedFrom (Member.endFrom 0 (place 0 fields).1) _) (alignUp (place 0 fields).2 _)
    rw [← place_snd]
    exact alignUp_isLeast hend hone

def sample : Compound := .layoutStruct "sample" [("unit", .unsigned 2), ("value", .float 8)]

def readingFields : List (String × Ty) :=
  [("valid", .boolean), ("last", .compound sample), ("codes", .array (.unsigned 2) 3), ("final", .boolean)]

theorem layoutStruct_minimal_reading :
    (∀ f ∈ readingFields, 0 ≤ f.2.size ∧ 1 ≤ f.2.align) ∧ (layoutStruct "reading" readingFields).Minimal readingFields ∧
      (layoutStruct "reading" readingFields).members.map (·.offset) = [0, 8, 24, 30] ∧
      (layoutStruct "reading" readingFields).size = 32 ∧ (layoutStruct "reading" readingFields).align = 8 := by
  have hsample := (layoutStruct_minimal.2 "sample" [("unit", .unsigned 2), ("value", .float 8)] (by decide)).2.2
  have hfields : ∀ f ∈ readingFields, 0 ≤ f.2.size ∧ 1 ≤ f.2.align := by
    simp only [readingFields, List.forall_mem_cons]
    exact ⟨by decide, hsample, by decide, by decide, by simp⟩
  exact ⟨hfields, (layoutStruct_minimal.2 "reading" readingFields hfields).2.1, by decide, by decide, by decide⟩

end Compound

end NativeBackend
