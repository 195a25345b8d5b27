import Mathlib.Algebra.Order.Group.Int
import Mathlib.Logic.Relation
import NativeBackend.Proofs.Class.Apart
import NativeBackend.Proofs.Pointer.Displacement
import NativeBackend.Proofs.Types.Members

namespace NativeBackend

/-- Types whose parts have bytes of their own: every offset inside belongs to one part at most. -/
inductive Ty.Structured : Ty → Prop
  | boolean : Structured .boolean
  | integer {sign : Signedness} {bytes : Nat} (h : 0 < bytes) : Structured (.integer sign bytes)
  | float {bytes : Nat} (h : 0 < bytes) : Structured (.float bytes)
  | reference : Structured .reference
  | pointer (pointee : Ty) : Structured (.pointer pointee)
  | array {element : Ty} {count : Int} (helement : Structured element) (hcount : 0 < count) :
      Structured (.array element count)
  | compound {c : Compound} (hmembers : ∀ m ∈ c.members, Structured m.type)
      (hpositive : ∀ m ∈ c.members, 0 < m.type.size) (hencloses : c.Encloses)
      (hprecedes : c.members.Pairwise Member.Precedes) : Structured (.compound c)
  | object {c : ClassDef} (hmade : c.Made) (hbare : c.InterfacesBare)
      (hpositive : ∀ f ∈ c.instanceFields, 0 < f.size) : Structured (.object c)

theorem Ty.Structured.size_nonneg {t : Ty} (h : t.Structured) : 0 ≤ t.size := by
  induction h with
  | boolean => decide
  | integer h => exact Int.natCast_nonneg _
  | float h => exact Int.natCast_nonneg _
  | reference => decide
  | pointer _ => exact (by decide : (0 : Int) ≤ 8)
  | array _ hcount ih => exact Int.mul_nonneg ih hcount.le
  | compound _ _ hencloses _ => exact hencloses.size
  | object hmade hbare _ => exact (hmade.apart hbare).size

theorem Descriptor.structured_valueType {d : Descriptor} (h : 0 < d.valueType.size) : d.valueType.Structured := by
  cases d with
  | void => exact absurd h (by decide)
  | boolean => exact .boolean
  | float => exact .float (by decide)
  | double => exact .float (by decide)
  | object _ => exact .reference
  | array _ => exact .reference
  | _ => exact .integer (by decide)

theorem Ty.Structured.layoutStruct (name : String) {fields : List (String × Ty)}
    (h : ∀ f ∈ fields, f.2.Structured ∧ 0 < f.2.size) : (Ty.compound (.layoutStruct name fields)).Structured := by
  obtain ⟨hencloses, hprecedes⟩ := Compound.layoutStruct_encloses name fun f hf => (h f hf).2.le
  have hmembers : ∀ m ∈ (Compound.layoutStruct name fields).members, m.type.Structured ∧ 0 < m.type.size := by
    intro m hm
    obtain ⟨f, hf, htype⟩ := Compound.exists_of_mem_place hm
    exact htype ▸ h f hf
  exact .compound (fun m hm => (hmembers m hm).1) (fun m hm => (hmembers m hm).2) hencloses hprecedes

namespace Pointer

inductive Enters (p q : Pointer) : Prop
  | element {element : Ty} {count i : Int} (hp : p.pointee = .array element count) (hlow : 0 ≤ i) (hhigh : i < count)
      (h : p.element i = .ok q)
  | member {i : Nat} (h : p.member i = .ok q)
  | instanceField {name : String} (h : p.instanceField name = .ok q)

theorem member_eq_ok {p q : Pointer} {i : Nat} (h : p.member i = .ok q) :
    ∃ c m, p.pointee = .compound c ∧ c.members[i]? = some m ∧ Displaced p q m.offset ∧ q.pointee = m.type := by
  cases hp : p.pointee with
  | compound c =>
      cases hm : c.members[i]? with
      | none => simp [member, hp, hm] at h
      | some m => exact ⟨c, m, rfl, hm, displaced_of_member hp hm h⟩
  | _ => simp [member, hp] at h

theorem instanceField_eq_ok {p q : Pointer} {name : String} (h : p.instanceField name = .ok q) :
    ∃ c f, p.pointee = .object c ∧ c.instanceField? name = some f ∧ Displaced p q f.offset ∧ q.pointee = f.type := by
  cases hp : p.pointee with
  | object c =>
      obtain ⟨f, hf⟩ := displaced_of_instanceField hp h
      exact ⟨c, f, rfl, hf⟩
  | _ => simp [instanceField, hp] at h

/-- A derivation leads to a part of the pointee, and so does every offset of a byte in that part. -/
structure Leads (p q : Pointer) (start : Int) : Prop where
  displaced : Displaced p q start
  structured : q.pointee.Structured
  nonneg : 0 ≤ start
  back {rest : Int} (hrest : 0 ≤ rest) (hwithin : rest = 0 ∨ rest < q.pointee.size) (hne : start + rest ≠ 0)
    (sibling : Bool) : start + rest < p.pointee.size ∧ p.descend (start + rest) sibling = .ok (q, rest)

theorem descend_eq_part {p : Pointer} {offset : Int} (harray : ∀ t n, p.pointee ≠ .array t n)
    (hlow : 0 ≤ offset) (hhigh : offset < p.pointee.size) (sibling : Bool) :
    p.descend offset sibling = p.part offset := by
  rw [descend.eq_def]
  split
  · rename_i t n ht
    exact absurd ht (harray t n)
  · rw [if_neg (by omega), if_pos ⟨hlow, hhigh⟩]

theorem leads_of_element {p q : Pointer} {element : Ty} {count i : Int} (hp : p.pointee = .array element count)
    (helement : element.Structured) (hlow : 0 ≤ i) (hhigh : i < count) (h : p.element i = .ok q) :
    Leads p q (i * element.size) := by
  have hsize := helement.size_nonneg
  have hpointee := pointee_of_element hp h
  refine ⟨displaced_of_element hp h, hpointee ▸ helement, Int.mul_nonneg hlow hsize, ?_⟩
  intro rest hrest hwithin hne sibling
  have hpos : 0 < element.size := by
    refine hsize.lt_of_ne fun hzero => hne ?_
    rw [hpointee, ← hzero] at hwithin
    rw [← hzero, Int.mul_zero]
    omega
  have hrest' : rest < element.size := by
    rw [hpointee] at hwithin
    omega
  have hdiv : (i * element.size + rest) / element.size = i ∧ (i * element.size + rest) % element.size = rest := by
    rw [Int.ediv_emod_unique hpos]
    exact ⟨by rw [Int.mul_comm, Int.add_comm], hrest, hrest'⟩
  constructor
  · have hnext : (i + 1) * element.size ≤ count * element.size := Int.mul_le_mul_of_nonneg_right hhigh hsize
    rw [Int.add_mul] at hnext
    rw [hp, Ty.size, Int.mul_comm element.size]
    omega
  · simp only [descend, hp, hpos.ne', if_false, hdiv.1, hdiv.2, h]
    rfl

theorem leads_of_part {p q : Pointer} {start : Int} (harray : ∀ t n, p.pointee ≠ .array t n)
    (hdisplaced : Displaced p q start) (hstructured : q.pointee.Structured) (hpositive : 0 < q.pointee.size)
    (hlow : 0 ≤ start) (hhigh : start + q.pointee.size ≤ p.pointee.size)
    (hpart : ∀ offset, start ≤ offset → offset < start + q.pointee.size → p.part offset = .ok (q, offset - start)) :
    Leads p q start := by
  refine ⟨hdisplaced, hstructured, hlow, ?_⟩
  intro rest hrest hwithin _ sibling
  have hinside : start + rest < p.pointee.size := by omega
  refine ⟨hinside, ?_⟩
  rw [descend_eq_part harray (by omega) hinside, hpart _ (by omega) (by omega), add_sub_cancel_left]

theorem leads_of_member {p q : Pointer} {i : Nat} (hp : p.pointee.Structured) (h : p.member i = .ok q) :
    ∃ start, Leads p q start := by
  obtain ⟨c, m, hc, hm, hdisplaced, hpointee⟩ := member_eq_ok h
  rw [hc] at hp
  cases hp with
  | compound hmembers hpositive hencloses hprecedes =>
      have hmem := List.mem_of_getElem? hm
      obtain ⟨hlow, hhigh⟩ := hencloses.members m hmem
      refine ⟨m.offset, leads_of_part (by simp [hc]) hdisplaced (hpointee ▸ hmembers m hmem)
        (hpointee ▸ hpositive m hmem) hlow ?_ fun offset hstart hend => ?_⟩
      · rw [hc, hpointee]
        exact hhigh
      · rw [hpointee] at hend
        simp only [part, hc, c.memberAtOrBefore?_eq_some hprecedes hm hstart hend, h, Except.map]

theorem leads_of_instanceField {p q : Pointer} {name : String} (hp : p.pointee.Structured)
    (h : p.instanceField name = .ok q) : ∃ start, Leads p q start := by
  obtain ⟨c, f, hc, hf, hdisplaced, hpointee⟩ := instanceField_eq_ok h
  rw [hc] at hp
  cases hp with
  | object hmade hbare hpositive =>
      obtain ⟨hmem, rfl⟩ := c.mem_of_instanceField? hf
      have hapart := hmade.apart hbare
      obtain ⟨hlow, hhigh⟩ := hapart.inside f hmem
      have hpos := hpositive f hmem
      refine ⟨f.offset, leads_of_part (by simp [hc]) hdisplaced (hpointee ▸ Descriptor.structured_valueType hpos)
        (hpointee ▸ hpos) hlow ?_ fun offset hstart hend => ?_⟩
      · rw [hc, hpointee]
        exact hhigh
      · rw [hpointee] at hend
        simp only [part, hc, hapart.find?_eq_some hmem hstart hend, h, Except.map]

theorem Enters.leads {p q : Pointer} (h : Enters p q) (hp : p.pointee.Structured) : ∃ start, Leads p q start := by
  cases h with
  | element hpointee hlow hhigh h =>
      rw [hpointee] at hp
      cases hp with
      | array helement _ => exact ⟨_, leads_of_element hpointee helement hlow hhigh h⟩
  | member h => exact leads_of_member hp h
  | instanceField h => exact leads_of_instanceField hp h

theorem resolve_of_descend {p q : Pointer} {offset rest : Int} {sibling : Bool} (hne : offset ≠ 0)
    (h : p.descend offset sibling = .ok (q, rest)) : p.resolve offset sibling = q.resolve rest false := by
  rw [resolve, if_neg hne]
  split
  · simp_all
  · simp_all

/-- Every way down from a pointer is found again by its length in bytes. -/
theorem resolves_of_enters {p q : Pointer} (h : Relation.ReflTransGen Enters p q) (hp : p.pointee.Structured) :
    ∃ bytes, Displaced p q bytes ∧ 0 ≤ bytes ∧ (bytes = 0 ∨ bytes < p.pointee.size) ∧
      ∀ sibling, ∃ r, p.resolve bytes sibling = .ok r ∧ r.root = q.root ∧ r.offset = q.offset := by
  induction h using Relation.ReflTransGen.head_induction_on with
  | refl =>
      refine ⟨0, ⟨rfl, by simp⟩, Int.le_refl _, .inl rfl, fun sibling => ⟨q, ?_, rfl, rfl⟩⟩
      rw [resolve, if_pos rfl]
  | head hstep _ ih =>
      obtain ⟨start, hleads⟩ := hstep.leads hp
      obtain ⟨rest, hdisplaced, hrest, hwithin, hresolves⟩ := ih hleads.structured
      have hall := hleads.displaced.trans hdisplaced
      have hnonneg := hleads.nonneg
      refine ⟨start + rest, hall, by omega, ?_⟩
      by_cases hne : start + rest = 0
      · refine ⟨.inl hne, fun sibling => ⟨_, by rw [resolve, if_pos hne], hall.root.symm, ?_⟩⟩
        rw [hall.offset, hne, Int.add_zero]
      · refine ⟨.inr (hleads.back hrest hwithin hne false).1, fun sibling => ?_⟩
        -- the rest is looked up without leaving the part, whatever the first step was allowed
        rw [resolve_of_descend hne (hleads.back hrest hwithin hne sibling).2]
        exact hresolves false

/-- A pointer derived from another by members, elements inside of their arrays and instance fields is what
lies at its byte distance from there, whether or not the first step may leave the pointee. -/
theorem resolve_of_enters {p q : Pointer} (h : Relation.ReflTransGen Enters p q) (hp : p.pointee.Structured)
    (sibling : Bool) : ∃ r, p.resolve (q.offset - p.offset) sibling = .ok r ∧ (r == q) = true := by
  obtain ⟨bytes, hdisplaced, -, -, hresolves⟩ := resolves_of_enters h hp
  obtain ⟨r, hr, hroot, hoffset⟩ := hresolves sibling
  have hbytes : q.offset - p.offset = bytes := by
    have := hdisplaced.offset
    omega
  refine ⟨r, by rw [hbytes, hr], ?_⟩
  change (r.root == q.root && r.offset == q.offset) = true
  rw [hroot, hoffset, beq_self_eq_true, beq_self_eq_true, Bool.and_self]

def shelf : Pointer :=
  .global "shelf" (.array (.compound (.layoutStruct "slot"
    [("tag", .boolean), ("counts", .array (.signed 4) 3), ("owner", .object counted)])) 2)

def ownerField : Except PointerError Pointer := do (← (← shelf.element 1).member 2).instanceField "x"

theorem counted_built : counted.Built :=
  .of_build (by simp) (by decide)
    (rfl : ClassDef.build "Base" 20 .concrete none [] [] [⟨"x", "I", false⟩] = .ok counted)

theorem structured_shelf : shelf.pointee.Structured := by
  refine .array (.layoutStruct _ ?_) (by decide)
  simp only [List.forall_mem_cons]
  refine ⟨⟨.boolean, by decide⟩, ⟨.array (.integer (by decide)) (by decide), by decide⟩, ⟨?_, by decide⟩, by simp⟩
  exact .object counted_built.made counted_built.interfacesBare (by decide)

theorem resolve_of_enters_ownerField :
    ∃ q, ownerField = .ok q ∧ Relation.ReflTransGen Enters shelf q ∧ shelf.pointee.Structured ∧
      q.offset - shelf.offset = 56 ∧ ∀ sibling, ∃ r, shelf.resolve 56 sibling = .ok r ∧ (r == q) = true := by
  have hoffset : ownerField.toOption.map (·.offset) = some 56 := rfl
  obtain ⟨q, h, hoffset⟩ := Steps.map_toOption_eq_some.1 hoffset
  obtain ⟨slot, hslot, hway⟩ := Steps.except_bind_eq_ok.1 h
  obtain ⟨owner, howner, hfield⟩ := Steps.except_bind_eq_ok.1 hway
  have hway : Relation.ReflTransGen Enters shelf q :=
    .head (.element rfl (by decide) (by decide) hslot) (.head (.member howner) (.single (.instanceField hfield)))
  have hbytes : q.offset - shelf.offset = 56 := by
    rw [hoffset]
    rfl
  refine ⟨q, h, hway, structured_shelf, hbytes, fun sibling => ?_⟩
  have hresolve := resolve_of_enters hway structured_shelf sibling
  rwa [hbytes] at hresolve

theorem resolve_ne_ok {p : Pointer} {offset : Int} (h : ∀ sibling, (p.resolve offset sibling).isOk = false)
    (sibling : Bool) (r : Pointer) : p.resolve offset sibling ≠ .ok r := by
  intro hr
  have hfail := h sibling
  rw [hr] at hfail
  cases hfail

def marker : ClassDef := ⟨"Marker", 21, .interface, some counted, [], [], [], 0⟩

/-- An interface has no bytes, so the field that it inherits is not found at its offset. -/
theorem not_resolve_of_enters_interface :
    ClassDef.build "Base" 20 .concrete none [] [] [⟨"x", "I", false⟩] = .ok counted ∧
      ClassDef.build "Marker" 21 .interface (some counted) [] [] [] = .ok marker ∧
      (marker.instanceFields.map (·.name)).Nodup ∧ (∀ f ∈ marker.instanceFields, 0 < f.size) ∧
      ∃ q, (Pointer.global "g" (.object marker)).instanceField "x" = .ok q ∧
        Enters (Pointer.global "g" (.object marker)) q ∧ q.offset = 8 ∧
        ∀ sibling r, (Pointer.global "g" (.object marker)).resolve 8 sibling ≠ .ok r := by
  have hoffset : ((Pointer.global "g" (.object marker)).instanceField "x").toOption.map (·.offset) = some 8 := rfl
  obtain ⟨q, h, hoffset⟩ := Steps.map_toOption_eq_some.1 hoffset
  have hfails : ∀ sibling, ((Pointer.global "g" (.object marker)).resolve 8 sibling).isOk = false :=
    Bool.forall_bool.2 ⟨by decide +kernel, by decide +kernel⟩
  exact ⟨rfl, rfl, by decide, by decide, q, h, .instanceField h, hoffset, resolve_ne_ok hfails⟩

def hollow : Ty := .compound ⟨.struct, "hollow", [], -8, 1⟩

/-- Near the lowest offset that there is. -/
def sunken : Pointer := { Pointer.global "g" (.array (.array hollow 3) 2) with offset := Int64.minValue.toInt + 32 }

def lowest : Except PointerError Pointer := do (← sunken.element 1).element 1

/-- A struct may be declared with fewer than no bytes. The elements of an array then go down, and the way back
starts at an element that no offset reaches. -/
theorem not_resolve_of_enters_hollow :
    ∃ q, lowest = .ok q ∧ Relation.ReflTransGen Enters sunken q ∧ q.offset - sunken.offset = -32 ∧
      ∀ sibling r, sunken.resolve (-32) sibling ≠ .ok r := by
  have hoffset : lowest.toOption.map (·.offset) = some Int64.minValue.toInt := rfl
  obtain ⟨q, h, hoffset⟩ := Steps.map_toOption_eq_some.1 hoffset
  obtain ⟨row, hrow, hcell⟩ := Steps.except_bind_eq_ok.1 h
  have hpointee : row.pointee = .array hollow 3 := pointee_of_element rfl hrow
  have hfails : ∀ sibling, (sunken.resolve (-32) sibling).isOk = false :=
    Bool.forall_bool.2 ⟨by decide +kernel, by decide +kernel⟩
  refine ⟨q, h, .head (.element rfl (by decide) (by decide) hrow)
    (.single (.element hpointee (by decide) (by decide) hcell)), ?_, resolve_ne_ok hfails⟩
  rw [hoffset]
  rfl

end Pointer

end NativeBackend
