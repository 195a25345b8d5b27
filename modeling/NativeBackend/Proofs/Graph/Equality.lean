import NativeBackend.Graph.Node

namespace NativeBackend

theorem equivBEq_of_iff {α β : Type} [BEq α] (key : α → β) (h : ∀ a b : α, (a == b) = true ↔ key a = key b) :
    EquivBEq α where
  rfl := (h _ _).2 rfl
  symm hab := (h _ _).2 ((h _ _).1 hab).symm
  trans hab hbc := (h _ _).2 (((h _ _).1 hab).trans ((h _ _).1 hbc))

def ClassDef.key (c : ClassDef) : ClassDef := ⟨c.name, c.typeId, .concrete, none, [], [], [], 0⟩

theorem ClassDef.beq_iff {c d : ClassDef} : (c == d) = true ↔ c.key = d.key := by
  change (c.typeId == d.typeId && c.name == d.name) = true ↔ _
  simp [key, and_comm]

def Method.key (m : Method) : Method := { m with flags := {}, hasBody := false }

theorem Method.beq_iff {m n : Method} : (m == n) = true ↔ m.key = n.key := by
  change (m.enclosing == n.enclosing && (m.name == n.name && m.descriptor == n.descriptor)) = true ↔ _
  simp [key]

def Pointer.key (p : Pointer) : Pointer := ⟨p.root, .void, [], .void, p.offset⟩

theorem Pointer.beq_iff {p q : Pointer} : (p == q) = true ↔ p.key = q.key := by
  change (p.root == q.root && p.offset == q.offset) = true ↔ _
  simp [key]

mutual

/-- A type in which classes have their type id and their name alone. -/
def Ty.key : Ty → Ty
  | .pointer pointee => .pointer pointee.key
  | .array element count => .array element.key count
  | .compound layout => .compound layout.key
  | .object cls => .object cls.key
  | .function signature => .function signature.key
  | t => t

def FunctionType.key : FunctionType → FunctionType
  | ⟨returns, params⟩ => ⟨returns.key, Ty.keys params⟩

def Ty.keys : List Ty → List Ty
  | [] => []
  | t :: ts => t.key :: Ty.keys ts

def Compound.key : Compound → Compound
  | ⟨tag, name, members, size, align⟩ => ⟨tag, name, Member.keys members, size, align⟩

def Member.key : Member → Member
  | ⟨name, offset, type, align⟩ => ⟨name, offset, type.key, align⟩

def Member.keys : List Member → List Member
  | [] => []
  | m :: ms => m.key :: Member.keys ms

end

mutual

theorem Ty.same_iff (t t' : Ty) : t.same t' = true ↔ t.key = t'.key := by
  match t with
  | .void | .boolean | .reference => cases t' <;> simp [Ty.same, Ty.key]
  | .integer _ _ | .float _ => cases t' <;> simp [Ty.same, Ty.key]
  | .pointer pointee => cases t' <;> simp [Ty.same, Ty.key, Ty.same_iff pointee]
  | .array element _ => cases t' <;> simp [Ty.same, Ty.key, Ty.same_iff element]
  | .compound layout => cases t' <;> simp [Ty.same, Ty.key, Compound.same_iff layout]
  | .object _ => cases t' <;> simp [Ty.same, Ty.key, ClassDef.beq_iff]
  | .function signature => cases t' <;> simp [Ty.same, Ty.key, FunctionType.same_iff signature]

theorem FunctionType.same_iff (f f' : FunctionType) : f.same f' = true ↔ f.key = f'.key := by
  obtain ⟨returns, params⟩ := f
  cases f'
  simp [FunctionType.same, FunctionType.key, Ty.same_iff returns, Ty.sameAll_iff params]

theorem Ty.sameAll_iff (ts ts' : List Ty) : Ty.sameAll ts ts' = true ↔ Ty.keys ts = Ty.keys ts' := by
  match ts with
  | [] => cases ts' <;> simp [Ty.sameAll, Ty.keys]
  | t :: ts => cases ts' <;> simp [Ty.sameAll, Ty.keys, Ty.same_iff t, Ty.sameAll_iff ts]

theorem Compound.same_iff (c c' : Compound) : c.same c' = true ↔ c.key = c'.key := by
  obtain ⟨tag, name, members, size, align⟩ := c
  cases c'
  simp [Compound.same, Compound.key, Member.sameAll_iff members, and_assoc]

theorem Member.same_iff (m m' : Member) : m.same m' = true ↔ m.key = m'.key := by
  obtain ⟨name, offset, type, align⟩ := m
  cases m'
  simp [Member.same, Member.key, Ty.same_iff type, and_assoc]

theorem Member.sameAll_iff (ms ms' : List Member) :
    Member.sameAll ms ms' = true ↔ Member.keys ms = Member.keys ms' := by
  match ms with
  | [] => cases ms' <;> simp [Member.sameAll, Member.keys]
  | m :: ms => cases ms' <;> simp [Member.sameAll, Member.keys, Member.same_iff m, Member.sameAll_iff ms]

end

def CallTarget.key : CallTarget → CallTarget
  | .direct m => .direct m.key
  | .indirect pointer signature => .indirect pointer signature.key

theorem CallTarget.beq_iff {t t' : CallTarget} : (t == t') = true ↔ t.key = t'.key := by
  cases t with
  | direct m =>
      cases t' with
      | direct m' => exact Method.beq_iff.trans (by simp [key])
      | indirect => exact ⟨nofun, nofun⟩
  | indirect pointer signature =>
      cases t' with
      | direct => exact ⟨nofun, nofun⟩
      | indirect pointer' signature' =>
          change (pointer == pointer' && signature.same signature') = true ↔ _
          simp [key, FunctionType.same_iff]

def ValueOp.key : ValueOp → ValueOp
  | .pointerLiteral p => .pointerLiteral p.key
  | .call target args dependency => .call target.key args dependency
  | .virtualLookup receiver m owner => .virtualLookup receiver m.key owner.key
  | .interfaceLookup receiver m interface => .interfaceLookup receiver m.key interface.key
  | op => op

theorem ValueOp.beq_iff {o o' : ValueOp} : (o == o') = true ↔ o.key = o'.key := by
  cases o <;> cases o'
  case pointerLiteral.pointerLiteral p p' => exact Pointer.beq_iff.trans (by simp [key])
  case call.call t as d t' as' d' =>
    change (t == t' && as == as' && d == d') = true ↔ _
    simp [key, CallTarget.beq_iff, and_assoc]
  case virtualLookup.virtualLookup r m c r' m' c' =>
    change (r == r' && m == m' && c == c') = true ↔ _
    simp [key, Method.beq_iff, ClassDef.beq_iff, and_assoc]
  case interfaceLookup.interfaceLookup r m c r' m' c' =>
    change (r == r' && m == m' && c == c') = true ↔ _
    simp [key, Method.beq_iff, ClassDef.beq_iff, and_assoc]
  all_goals simp [BEq.beq, key, and_assoc]

theorem ValueNode.beq_iff {v w : ValueNode} : (v == w) = true ↔ v.op.key = w.op.key ∧ v.type.key = w.type.key := by
  change (v.op == w.op && v.type.same w.type) = true ↔ _
  rw [Bool.and_eq_true, ValueOp.beq_iff, Ty.same_iff]

/-- Equality of values is an equivalence, although it looks past what classes, methods and pointers are made of. -/
instance : EquivBEq ValueNode :=
  equivBEq_of_iff (fun v => (v.op.key, v.type.key)) fun v w => ValueNode.beq_iff.trans (by rw [Prod.mk.injEq])

end NativeBackend
