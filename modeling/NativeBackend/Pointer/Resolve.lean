import NativeBackend.Pointer.Basic

namespace NativeBackend

mutual

def Ty.nesting : Ty → Nat
  | .array element _ => element.nesting + 1
  | .compound layout => layout.nesting + 1
  | .object _ => 1
  | _ => 0

def Compound.nesting : Compound → Nat
  | ⟨_, _, members, _, _⟩ => Member.nestingAll members

def Member.nestingAll : List Member → Nat
  | [] => 0
  | m :: ms => max m.nesting (Member.nestingAll ms)

def Member.nesting : Member → Nat
  | ⟨_, _, type, _⟩ => type.nesting

end

theorem Member.nesting_le_nestingAll {m : Member} {ms : List Member} (h : m ∈ ms) :
    m.type.nesting ≤ Member.nestingAll ms := by
  induction ms with
  | nil => simp at h
  | cons n ms ih =>
    rcases List.mem_cons.1 h with rfl | h
    · cases m
      simp only [Member.nestingAll, Member.nesting]
      omega
    · have := ih h
      simp only [Member.nestingAll]
      omega

theorem Compound.nesting_eq (c : Compound) : c.nesting = Member.nestingAll c.members := by
  cases c
  simp [Compound.nesting]

theorem Descriptor.nesting_valueType (d : Descriptor) : d.valueType.nesting = 0 := by
  cases d <;> simp [Descriptor.valueType, Ty.nesting, Ty.signed, Ty.unsigned]

namespace Pointer

theorem pointee_of_derive {p q : Pointer} {what : String} {step : Derivation} {t : Ty} {n u : Int}
    (h : p.derive what step t n u = .ok q) : q.pointee = t := by
  unfold derive at h
  split at h
  · cases h
    rfl
  · simp at h

theorem pointee_of_element {p q : Pointer} {i : Int} {t : Ty} {n : Int}
    (hp : p.pointee = .array t n) (h : p.element i = .ok q) : q.pointee = t := by
  simp only [element, hp] at h
  exact pointee_of_derive h

theorem pointee_of_member {p q : Pointer} {i : Nat} {c : Compound}
    (hp : p.pointee = .compound c) (h : p.member i = .ok q) : ∃ m ∈ c.members, q.pointee = m.type := by
  simp only [member, hp] at h
  split at h
  · exact ⟨_, List.mem_of_getElem? (by assumption), pointee_of_derive h⟩
  · simp at h

theorem pointee_of_instanceField {p q : Pointer} {name : String} {c : ClassDef}
    (hp : p.pointee = .object c) (h : p.instanceField name = .ok q) : ∃ f : Field, q.pointee = f.type := by
  simp only [instanceField, hp] at h
  split at h
  · exact ⟨_, pointee_of_derive h⟩
  · simp at h

theorem pointee_of_stride {p q : Pointer} {n : Int} (h : p.stride n = .ok q) : q.pointee = p.pointee := by
  unfold stride at h
  split at h
  · cases h
    rfl
  · exact pointee_of_derive h

/-- The part of a struct, union or object that covers an offset, and the offset within it. Its arithmetic is
exact, where the program's words wrap around: only `derive` asks that an offset fits. -/
def part (p : Pointer) (offset : Int) : Except PointerError (Pointer × Int) :=
  match p.pointee with
  | .compound layout =>
    match layout.memberAtOrBefore? offset with
    | some (m, index) => (p.member index).map (·, offset - m.offset)
    | none => .error (.unattributable offset p.pointee.text)
  | .object cls =>
    match cls.instanceFields.find? fun f => f.offset ≤ offset && offset < f.offset + f.size with
    | some f => (p.instanceField f.name).map (·, offset - f.offset)
    | none => .error (.unattributable offset p.pointee.text)
  | other => .error (.unattributable offset other.text)

/-- One step toward a byte offset: a pointer nearer to it and what is left of the offset. An offset
outside of the pointee is read as a stride over pointees, if that is allowed. Its arithmetic is exact too. -/
def descend (p : Pointer) (offset : Int) (sibling : Bool) : Except PointerError (Pointer × Int) :=
  match p.pointee with
  | .array element _ =>
    if element.size = 0 then .error (.zeroSized offset p.pointee.text)
    else (p.element (offset / element.size)).map (·, offset % element.size)
  | t =>
    if t.size = 0 then .error (.zeroSized offset t.text)
    else if 0 ≤ offset ∧ offset < t.size then p.part offset
    else if sibling then (p.stride (offset / t.size)).map (·, offset % t.size)
    else .error (.outOfBounds offset t.size t.text)

theorem map_eq_ok {ε α β : Type} {f : α → β} {x : Except ε α} {b : β} (h : x.map f = .ok b) :
    ∃ a, x = .ok a ∧ f a = b := by
  cases x with
  | error => cases h
  | ok a => exact ⟨a, rfl, by cases h; rfl⟩

theorem nesting_of_part {p q : Pointer} {offset rest : Int} (h : p.part offset = .ok (q, rest)) :
    q.pointee.nesting < p.pointee.nesting := by
  unfold part at h
  split at h
  case h_1 layout ht =>
    split at h
    · obtain ⟨r, hr, he⟩ := map_eq_ok h
      obtain ⟨m, hm, hq⟩ := pointee_of_member ht hr
      have := Member.nesting_le_nestingAll hm
      cases he
      rw [hq, ht, Ty.nesting, Compound.nesting_eq]
      omega
    · simp at h
  case h_2 cls ht =>
    split at h
    · obtain ⟨r, hr, he⟩ := map_eq_ok h
      obtain ⟨f, hf⟩ := pointee_of_instanceField ht hr
      cases he
      rw [hf, ht, Field.type, Descriptor.nesting_valueType, Ty.nesting]
      omega
    · simp at h
  case h_3 => simp at h

theorem nesting_of_descend {p q : Pointer} {offset rest : Int} {sibling : Bool}
    (h : p.descend offset sibling = .ok (q, rest)) :
    q.pointee.nesting < p.pointee.nesting ∨ sibling = true ∧ q.pointee = p.pointee := by
  unfold descend at h
  split at h
  case h_1 element n ht =>
    split at h
    · simp at h
    · obtain ⟨r, hr, he⟩ := map_eq_ok h
      cases he
      left
      rw [pointee_of_element ht hr, ht, Ty.nesting]
      omega
  case h_2 =>
    split at h
    · simp at h
    · split at h
      · exact .inl (nesting_of_part h)
      · split at h
        · obtain ⟨r, hr, he⟩ := map_eq_ok h
          cases he
          exact .inr ⟨by assumption, pointee_of_stride hr⟩
        · simp at h

/-- The most specific pointer at a byte offset from this one. With `sibling`, the first step may
leave the pointee. -/
def resolve (p : Pointer) (offset : Int) (sibling : Bool) : Except PointerError Pointer :=
  if offset = 0 then .ok p
  else
    match _h : p.descend offset sibling with
    | .error e => .error e
    | .ok (q, rest) => q.resolve rest false
termination_by 2 * p.pointee.nesting + sibling.toNat
decreasing_by
  rcases nesting_of_descend _h with hn | ⟨rfl, hq⟩
  · rw [Bool.toNat_false]
    omega
  · rw [hq]
    simp

end Pointer

end NativeBackend
