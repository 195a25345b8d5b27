import NativeBackend.Pointer.Resolve
import NativeBackend.Proofs.Ir.Layout
import NativeBackend.Proofs.Types.Members
import NativeBackend.Types.Target

namespace NativeBackend

def Ty.Exact (t : Ty) : Prop := ∀ target, t.target = .ok target → (target.size : Int) = t.size

/-- Types of data with a layout of their own, built from scalars, arrays, unions and structs. An object
counts only where it takes no more and no less than a reference. -/
inductive Ty.Faithful : Ty → Prop
  | boolean : Faithful .boolean
  | integer (sign : Signedness) (bytes : Nat) : Faithful (.integer sign bytes)
  | float (bytes : Nat) : Faithful (.float bytes)
  | reference : Faithful .reference
  | pointer (pointee : Ty) : Faithful (.pointer pointee)
  | array {element : Ty} {count : Int} (helement : Faithful element) (hcount : 0 ≤ count) :
      Faithful (.array element count)
  | union {c : Compound} (htag : c.tag = .union) (hsize : 0 ≤ c.size) : Faithful (.compound c)
  | struct {c : Compound} (htag : c.tag = .struct) (hmembers : ∀ m ∈ c.members, Faithful m.type)
      (hencloses : c.Encloses) (hprecedes : c.members.Pairwise Member.Precedes) : Faithful (.compound c)
  | object {c : ClassDef} (hsize : c.instanceSize = pointerSize) : Faithful (.object c)

namespace Member

/-- Fields of a packed struct from a byte on: filler, and each member's own field where the member lies. -/
inductive Placed : Nat → List Member → List IrType → Prop
  | nil {cursor : Nat} : Placed cursor [] []
  | filler {cursor bytes : Nat} {ms : List Member} {fields : List IrType}
      (h : Placed (cursor + bytes) ms fields) : Placed cursor ms (.array bytes .i8 :: fields)
  | member {cursor : Nat} {m : Member} {field : IrType} {ms : List Member} {fields : List IrType}
      (hoffset : m.offset = cursor) (htarget : m.type.target = .ok field)
      (h : Placed (cursor + field.size) ms fields) : Placed cursor (m :: ms) (field :: fields)

def InOrder (cursor size : Int) : List Member → Prop
  | [] => cursor ≤ size
  | m :: rest => cursor ≤ m.offset ∧ InOrder m.finish size rest

theorem inOrder_iff {cursor size : Int} {ms : List Member} (hsize : ∀ m ∈ ms, 0 ≤ m.type.size) :
    InOrder cursor size ms ↔
      cursor ≤ size ∧ (∀ m ∈ ms, cursor ≤ m.offset ∧ m.finish ≤ size) ∧ ms.Pairwise Precedes := by
  induction ms generalizing cursor with
  | nil => simp [InOrder]
  | cons m rest ih =>
      have hm : m.offset ≤ m.finish := Int.le_add_of_nonneg_right (hsize m List.mem_cons_self)
      rw [InOrder, ih fun n hn => hsize n (List.mem_cons_of_mem _ hn), List.forall_mem_cons, List.pairwise_cons]
      constructor
      · rintro ⟨hlow, hhigh, hrest, hprecedes⟩
        refine ⟨by omega, ⟨⟨hlow, hhigh⟩, fun n hn => ?_⟩, fun n hn => (hrest n hn).1, hprecedes⟩
        have := hrest n hn
        omega
      · rintro ⟨-, ⟨⟨hlow, hhigh⟩, hrest⟩, hfirst, hprecedes⟩
        exact ⟨hlow, hhigh, fun n hn => ⟨hfirst n hn, (hrest n hn).2⟩, hprecedes⟩

theorem targets_cons (cursor size : Int) (m : Member) (rest : List Member) :
    targets cursor size (m :: rest) = (do
      let field ← m.type.target
      let fields ← targets m.finish size rest
      return paddingType (m.offset - cursor) ++ field :: fields) := by
  cases m
  rfl

end Member

namespace IrType

theorem size_ofBytes? {bytes : Int} {type : IrType} (h : ofBytes? bytes = some type) : (type.size : Int) = bytes := by
  rw [ofBytes?.eq_def] at h
  split at h <;> cases h <;> rfl

theorem endOf_append (packed : Bool) (cursor : Nat) (xs ys : List IrType) :
    endOf packed cursor (xs ++ ys) = endOf packed (endOf packed cursor xs) ys := by
  induction xs generalizing cursor with
  | nil => rfl
  | cons x xs ih => simp only [List.cons_append, endOf, ih]

theorem endOf_padding (cursor : Nat) (bytes : Int) : endOf true cursor (paddingType bytes) = cursor + bytes.toNat := by
  rw [paddingType]
  split
  · simp [endOf, startOf, size]
  · simp only [endOf]
    omega

end IrType

namespace Member

variable {cursor size : Int} {ms : List Member} {fields : List IrType}

theorem targets_cons_eq_ok {m : Member} (h : targets cursor size (m :: ms) = .ok fields) :
    ∃ field rest, m.type.target = .ok field ∧ targets m.finish size ms = .ok rest ∧
      fields = paddingType (m.offset - cursor) ++ field :: rest := by
  rw [targets_cons] at h
  obtain ⟨field, hfield, h⟩ := Steps.except_bind_eq_ok.1 h
  obtain ⟨rest, hrest, h⟩ := Steps.except_bind_eq_ok.1 h
  cases h
  exact ⟨field, rest, hfield, hrest, rfl⟩

/-- Where a member starts before the cursor, the fields after it come too late, and none makes up for it. -/
theorem endOf_targets (hexact : ∀ m ∈ ms, m.type.Exact) (h : targets cursor size ms = .ok fields) (start : Nat) :
    start + (size - cursor) ≤ IrType.endOf true start fields ∧
      (IrType.endOf true start fields = start + (size - cursor) ↔ InOrder cursor size ms) := by
  induction ms generalizing cursor fields start with
  | nil =>
      cases h
      rw [IrType.endOf_padding, InOrder]
      omega
  | cons m ms ih =>
      obtain ⟨field, rest, hfield, hrest, rfl⟩ := targets_cons_eq_ok h
      have hm : (field.size : Int) = m.type.size := hexact m List.mem_cons_self field hfield
      obtain ⟨hle, heq⟩ :=
        ih (fun n hn => hexact n (List.mem_cons_of_mem _ hn)) hrest (start + (m.offset - cursor).toNat + field.size)
      rw [IrType.endOf_append, IrType.endOf_padding, IrType.endOf, IrType.startOf, if_pos rfl, InOrder, ← heq]
      rw [finish] at hle ⊢
      omega

theorem placed_targets (hexact : ∀ m ∈ ms, m.type.Exact) {start : Nat}
    (h : targets start size ms = .ok fields) (horder : InOrder start size ms) : Placed start ms fields := by
  induction ms generalizing start fields with
  | nil =>
      cases h
      rw [paddingType]
      split
      · exact .filler .nil
      · exact .nil
  | cons m ms ih =>
      obtain ⟨field, rest, hfield, hrest, rfl⟩ := targets_cons_eq_ok h
      obtain ⟨hlow, horder⟩ := horder
      have hm : (field.size : Int) = m.type.size := hexact m List.mem_cons_self field hfield
      obtain ⟨gap, hgap⟩ := Int.eq_ofNat_of_zero_le (Int.sub_nonneg.2 hlow)
      have hfinish : m.finish = ((start + gap + field.size : Nat) : Int) := by
        rw [finish]
        push_cast
        omega
      rw [hfinish] at hrest horder
      have hrest := ih (fun n hn => hexact n (List.mem_cons_of_mem _ hn)) hrest horder
      have hplaced : Placed (start + gap) (m :: ms) (field :: rest) := .member (by push_cast; omega) hfield hrest
      rw [hgap, paddingType]
      split
      · exact .filler hplaced
      · obtain rfl : gap = 0 := by omega
        exact hplaced

theorem size_nonneg_of_targets (hexact : ∀ m ∈ ms, m.type.Exact) (h : targets cursor size ms = .ok fields) :
    ∀ m ∈ ms, 0 ≤ m.type.size := by
  induction ms generalizing cursor fields with
  | nil => simp
  | cons m ms ih =>
      obtain ⟨field, rest, hfield, hrest, rfl⟩ := targets_cons_eq_ok h
      rw [List.forall_mem_cons] at hexact ⊢
      exact ⟨hexact.1 field hfield ▸ Int.natCast_nonneg _, ih hexact.2 hrest⟩

end Member

namespace Compound

variable {c : Compound} {fields : List IrType}

/-- Fields of a packed struct that has all bytes of a struct and each member's field at the member's offset. -/
structure LaidOut (c : Compound) (fields : List IrType) : Prop where
  size : ((IrType.struct true fields).size : Int) = c.size
  placed : ∃ ms, ms.Perm c.members ∧ Member.Placed 0 ms fields

theorem target_eq_ok (htag : c.tag = .struct) {target : IrType} (h : c.target = .ok target) :
    ∃ fields, Member.targets 0 c.size c.members = .ok fields ∧ target = .struct true fields := by
  obtain ⟨tag, name, members, size, align⟩ := c
  cases htag
  obtain ⟨fields, hfields, rfl⟩ := Pointer.map_eq_ok h
  exact ⟨fields, hfields, rfl⟩

theorem inOrder_iff_precedes (hencloses : c.Encloses) (hexact : ∀ m ∈ c.members, m.type.Exact)
    (h : Member.targets 0 c.size c.members = .ok fields) :
    Member.InOrder 0 c.size c.members ↔ c.members.Pairwise Member.Precedes := by
  rw [Member.inOrder_iff (Member.size_nonneg_of_targets hexact h)]
  exact ⟨fun h => h.2.2, fun h => ⟨hencloses.size, hencloses.members, h⟩⟩

/-- The fields have the size of a struct exactly if its members are declared in the order of their offsets. -/
theorem size_targets_iff (hencloses : c.Encloses) (hexact : ∀ m ∈ c.members, m.type.Exact)
    (h : Member.targets 0 c.size c.members = .ok fields) :
    ((IrType.struct true fields).size : Int) = c.size ↔ c.members.Pairwise Member.Precedes := by
  rw [← inOrder_iff_precedes hencloses hexact h, ← (Member.endOf_targets hexact h 0).2, IrType.size]
  simp

theorem laidOut_iff (hencloses : c.Encloses) (hexact : ∀ m ∈ c.members, m.type.Exact)
    (h : Member.targets 0 c.size c.members = .ok fields) :
    LaidOut c fields ↔ c.members.Pairwise Member.Precedes := by
  constructor
  · intro hlaid
    exact (size_targets_iff hencloses hexact h).1 hlaid.size
  · intro hprecedes
    have horder := (inOrder_iff_precedes hencloses hexact h).2 hprecedes
    have hplaced : Member.Placed 0 c.members fields := Member.placed_targets hexact h horder
    exact ⟨(size_targets_iff hencloses hexact h).2 hprecedes, c.members, .refl _, hplaced⟩

end Compound

theorem Ty.Faithful.exact {t : Ty} (h : t.Faithful) : t.Exact := by
  induction h with
  | boolean => rintro _ ⟨⟩; rfl
  | integer sign bytes =>
      intro target h
      rw [Ty.target] at h
      split at h
      · cases h
        exact IrType.size_ofBytes? ‹_›
      · cases h
  | float bytes =>
      intro target h
      by_cases h4 : bytes = 4
      · subst h4
        cases h
        rfl
      · by_cases h8 : bytes = 8
        · subst h8
          cases h
          rfl
        · simp [Ty.target] at h
  | reference => rintro _ ⟨⟩; rfl
  | pointer _ => rintro _ ⟨⟩; rfl
  | @array element count _ hcount ih =>
      intro target h
      obtain ⟨field, hfield, rfl⟩ := Pointer.map_eq_ok h
      rw [IrType.size, size, Int.natCast_mul, ih field hfield, Int.toNat_of_nonneg hcount, Int.mul_comm]
  | @union c htag hsize =>
      intro target h
      obtain ⟨tag, name, members, size, align⟩ := c
      cases htag
      cases h
      rw [IrType.size, IrType.size, Nat.mul_one, Int.toNat_of_nonneg hsize, Ty.size]
  | @struct c htag _ hencloses hprecedes ih =>
      intro target h
      obtain ⟨fields, hfields, rfl⟩ := Compound.target_eq_ok htag h
      exact (Compound.size_targets_iff hencloses ih hfields).2 hprecedes
  | object hsize =>
      rintro _ ⟨⟩
      exact hsize.symm

theorem Ty.Faithful.layoutStruct (name : String) {fields : List (String × Ty)}
    (h : ∀ f ∈ fields, f.2.Faithful ∧ 0 ≤ f.2.size) :
    (∀ m ∈ (Compound.layoutStruct name fields).members, m.type.Faithful) ∧
      (Ty.compound (.layoutStruct name fields)).Faithful := by
  obtain ⟨hencloses, hprecedes⟩ := Compound.layoutStruct_encloses name fun f hf => (h f hf).2
  have hmembers : ∀ m ∈ (Compound.layoutStruct name fields).members, m.type.Faithful := by
    intro m hm
    obtain ⟨f, hf, htype⟩ := Compound.exists_of_mem_place hm
    exact htype ▸ (h f hf).1
  exact ⟨hmembers, .struct rfl hmembers hencloses hprecedes⟩

namespace Compound

/-- A struct whose members keep their size is translated to a packed struct with each member at its offset and
with as many bytes as before if the members are declared in the order of their offsets, and to a longer one
otherwise. -/
theorem target_laidOut {c : Compound} (htag : c.tag = .struct) (hencloses : c.Encloses)
    (hmembers : ∀ m ∈ c.members, m.type.Faithful) {target : IrType} (h : (Ty.compound c).target = .ok target) :
    ∃ fields, target = .struct true fields ∧ (c.LaidOut fields ↔ c.members.Pairwise Member.Precedes) ∧
      (¬ c.members.Pairwise Member.Precedes → c.size < target.size) := by
  rw [Ty.target] at h
  obtain ⟨fields, hfields, rfl⟩ := target_eq_ok htag h
  have hexact : ∀ m ∈ c.members, m.type.Exact := fun m hm => (hmembers m hm).exact
  refine ⟨fields, rfl, laidOut_iff hencloses hexact hfields, fun hprecedes => ?_⟩
  have hle := (Member.endOf_targets hexact hfields 0).1
  have hne := mt (size_targets_iff hencloses hexact hfields).1 hprecedes
  rw [IrType.size] at hne ⊢
  simp only [Int.natCast_zero, Int.sub_zero, Int.zero_add] at hle
  omega

def word : Compound := .layoutStruct "word" [("low", .unsigned 2), ("high", .unsigned 4)]

def packetFields : List (String × Ty) :=
  [("flag", .boolean), ("words", .array (.compound word) 3), ("next", .pointer .void)]

def packet : Compound := .layoutStruct "packet" packetFields

theorem faithful_packetFields : ∀ f ∈ packetFields, f.2.Faithful ∧ 0 ≤ f.2.size := by
  have hword : (Ty.compound word).Faithful := by
    refine (Ty.Faithful.layoutStruct _ ?_).2
    simp only [List.forall_mem_cons]
    exact ⟨⟨.integer _ _, by decide⟩, ⟨.integer _ _, by decide⟩, by simp⟩
  simp only [packetFields, List.forall_mem_cons]
  exact ⟨⟨.boolean, by decide⟩, ⟨.array hword (by decide), by decide⟩, ⟨.pointer _, by decide⟩, by simp⟩

theorem target_laidOut_packet :
    packet.tag = .struct ∧ packet.Encloses ∧ (∀ m ∈ packet.members, m.type.Faithful) ∧
      ∃ fields, (Ty.compound packet).target = .ok (.struct true fields) ∧ packet.LaidOut fields := by
  obtain ⟨hencloses, hprecedes⟩ := layoutStruct_encloses "packet" fun f hf => (faithful_packetFields f hf).2
  have hmembers := (Ty.Faithful.layoutStruct "packet" faithful_packetFields).1
  have htarget : (Ty.compound packet).target = .ok (.struct true
      [.i1, .array 3 .i8, .array 3 (.struct true [.i16, .array 2 .i8, .i32]), .array 4 .i8, .ptr]) := rfl
  obtain ⟨fields, ⟨⟩, hlaid, -⟩ := target_laidOut rfl hencloses hmembers htarget
  exact ⟨rfl, hencloses, hmembers, _, htarget, hlaid.2 hprecedes⟩

def swapped : Compound :=
  ⟨.struct, "swapped", [⟨"high", 4, .signed 4, 4⟩, ⟨"low", 0, .signed 4, 4⟩], 8, 4⟩

/-- The lower half comes after the upper one, and both are followed by filler. -/
theorem not_target_laidOut_swapped :
    swapped.tag = .struct ∧ swapped.Encloses ∧
      swapped.members.Pairwise (fun m n => m.Precedes n ∨ n.Precedes m) ∧
      (∀ m ∈ swapped.members, m.type.Faithful) ∧
      (Ty.compound swapped).target = .ok (.struct true [.array 4 .i8, .i32, .i32, .array 4 .i8]) ∧
      (IrType.struct true [.array 4 .i8, .i32, .i32, .array 4 .i8]).size = 16 ∧
      ¬ swapped.LaidOut [.array 4 .i8, .i32, .i32, .array 4 .i8] := by
  refine ⟨rfl, ⟨by decide, by decide⟩, by decide, ?_, rfl, by decide, fun hlaid => ?_⟩
  · simp only [swapped, List.forall_mem_cons]
    exact ⟨.integer _ _, .integer _ _, by simp⟩
  · exact absurd hlaid.size (by decide)

end Compound

end NativeBackend
