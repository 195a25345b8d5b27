import NativeBackend.Proofs.Class.Layout

namespace NativeBackend

namespace Member

def finish (m : Member) : Int := m.offset + m.type.size

def Precedes (m n : Member) : Prop := m.finish ≤ n.offset

instance (m n : Member) : Decidable (m.Precedes n) := inferInstanceAs (Decidable (m.finish ≤ n.offset))

end Member

namespace Compound

structure Encloses (c : Compound) : Prop where
  size : 0 ≤ c.size
  members : ∀ m ∈ c.members, 0 ≤ m.offset ∧ m.finish ≤ c.size

theorem place_bounds {start : Int} (hstart : 0 ≤ start) {fields : List (String × Ty)}
    (hsize : ∀ f ∈ fields, 0 ≤ f.2.size) :
    start ≤ (place start fields).2 ∧
      (∀ m ∈ (place start fields).1, start ≤ m.offset ∧ m.finish ≤ (place start fields).2) ∧
      (place start fields).1.Pairwise Member.Precedes := by
  induction fields generalizing start with
  | nil => simp [place]
  | cons field rest ih =>
      obtain ⟨name, type⟩ := field
      have hfirst : 0 ≤ type.size := hsize _ List.mem_cons_self
      have hplace := le_alignUp hstart type.align
      obtain ⟨hle, hinside, hprecedes⟩ :=
        @ih (alignUp start type.align + type.size) (by omega) fun f hf => hsize f (List.mem_cons_of_mem _ hf)
      simp only [place, List.pairwise_cons, List.forall_mem_cons]
      exact ⟨by omega, ⟨⟨hplace, hle⟩, fun m hm => ⟨by have := (hinside m hm).1; omega, (hinside m hm).2⟩⟩,
        fun m hm => (hinside m hm).1, hprecedes⟩

theorem layoutStruct_encloses (name : String) {fields : List (String × Ty)} (hsize : ∀ f ∈ fields, 0 ≤ f.2.size) :
    (layoutStruct name fields).Encloses ∧ (layoutStruct name fields).members.Pairwise Member.Precedes := by
  obtain ⟨hle, hinside, hprecedes⟩ := place_bounds (Int.le_refl 0) hsize
  have hround := le_alignUp hle ((place 0 fields).1.foldl (fun a m => max a m.align) 1)
  refine ⟨⟨Int.le_trans hle hround, fun m hm => ?_⟩, hprecedes⟩
  exact ⟨(hinside m hm).1, Int.le_trans (hinside m hm).2 hround⟩

theorem exists_of_mem_place {start : Int} {fields : List (String × Ty)} {m : Member} (hm : m ∈ (place start fields).1) :
    ∃ f ∈ fields, f.2 = m.type := by
  induction fields generalizing start with
  | nil => cases hm
  | cons field rest ih =>
      rcases List.mem_cons.1 hm with rfl | hm
      · exact ⟨field, List.mem_cons_self, rfl⟩
      · obtain ⟨f, hf, htype⟩ := ih hm
        exact ⟨f, List.mem_cons_of_mem _ hf, htype⟩

theorem memberAtOrBefore?_eq_some {c : Compound} (hprecedes : c.members.Pairwise Member.Precedes) {i : Nat}
    {m : Member} (hm : c.members[i]? = some m) {offset : Int} (hlow : m.offset ≤ offset)
    (hhigh : offset < m.finish) : c.memberAtOrBefore? offset = some (m, i) := by
  obtain ⟨before, behind, hsplit, rfl⟩ : ∃ before behind, c.members = before ++ m :: behind ∧ before.length = i := by
    obtain ⟨hi, rfl⟩ := List.getElem?_eq_some_iff.1 hm
    refine ⟨c.members.take i, c.members.drop (i + 1), ?_, List.length_take_of_le (Nat.le_of_lt hi)⟩
    rw [← List.drop_eq_getElem_cons hi, List.take_append_drop]
  have hlater : (behind.zipIdx (before.length + 1)).filter (·.1.offset ≤ offset) = [] := by
    rw [List.filter_eq_nil_iff]
    intro n hn
    rw [hsplit, List.pairwise_append, List.pairwise_cons] at hprecedes
    have hbehind : m.finish ≤ n.1.offset := hprecedes.2.1.1 n.1 (List.fst_mem_of_mem_zipIdx hn)
    simp only [decide_eq_true_eq]
    omega
  rw [memberAtOrBefore?, hsplit, List.zipIdx_append, List.filter_append, List.zipIdx_cons, Nat.zero_add,
    List.filter_cons_of_pos (by simpa using hlow), hlater, List.getLast?_concat]

end Compound

end NativeBackend
