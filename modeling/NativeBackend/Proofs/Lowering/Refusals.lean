import NativeBackend.Proofs.Dispatch.Advance
import NativeBackend.Proofs.Lowering.Primitives

namespace NativeBackend

/-- Faults of what a graph asks for. The others are about how its nodes hang together, or not about graphs at all. -/
def Fault.isRefusal : Fault → Bool
  | .unknownNode _ | .notValue .. | .usedAsValue .. | .openBlock .. | .parameterRange .. | .noIntegerWidth _
  | .noFloatWidth _ | .bitwiseOnFloat _ | .notNumeric .. | .conversionTarget _ | .conversionKinds ..
  | .vtableOfInterface _ | .itableOfClass _ => true
  | _ => false

def Error.IsRefusal (e : Error) : Prop := ∃ f, e = .internal f ∧ f.isRefusal = true

def Refuses {α : Type} (r : Except Error α) : Prop := ∀ e, r = .error e → e.IsRefusal

namespace Refuses

variable {α β : Type} {r : Except Error α}

theorem ok (a : α) : Refuses (.ok a) := nofun

theorem error {f : Fault} (h : f.isRefusal = true) : Refuses (.error (.internal f) : Except Error α) := by
  rintro e ⟨⟩
  exact ⟨f, rfl, h⟩

theorem bind {f : α → Except Error β} (hr : Refuses r) (hf : ∀ a, Refuses (f a)) : Refuses (r >>= f) := by
  cases r with
  | ok a => exact hf a
  | error e =>
      rintro e' ⟨⟩
      exact hr e rfl

theorem map {f : α → β} (hr : Refuses r) : Refuses (r.map f) := by
  cases r with
  | ok a => exact ok _
  | error e =>
      rintro e' ⟨⟩
      exact hr e rfl

end Refuses

mutual

theorem Ty.target_refuses (t : Ty) : Refuses t.target := by
  match t with
  | .void | .boolean | .reference | .pointer _ | .object _ | .function _ => exact .ok _
  | .integer _ bytes =>
      rw [Ty.target]
      split
      · exact .ok _
      · exact .error rfl
  | .float bytes =>
      by_cases h4 : bytes = 4
      · subst h4
        exact .ok _
      · by_cases h8 : bytes = 8
        · subst h8
          exact .ok _
        · have hother : (Ty.float bytes).target = .error (.internal (.noFloatWidth bytes)) := by simp [Ty.target]
          rw [hother]
          exact .error rfl
  | .array element count =>
      rw [Ty.target]
      exact .map (Ty.target_refuses element)
  | .compound layout =>
      rw [Ty.target]
      exact Compound.target_refuses layout

theorem Compound.target_refuses (c : Compound) : Refuses c.target := by
  match c with
  | ⟨.union, _, _, size, _⟩ => exact .ok _
  | ⟨.struct, _, members, size, _⟩ =>
      rw [Compound.target]
      exact .map (Member.targets_refuses 0 size members)

theorem Member.targets_refuses (cursor size : Int) (ms : List Member) : Refuses (Member.targets cursor size ms) := by
  match ms with
  | [] => exact .ok _
  | ⟨_, offset, type, _⟩ :: rest =>
      rw [Member.targets]
      exact .bind (Ty.target_refuses type) fun field =>
        .bind (Member.targets_refuses (offset + type.size) size rest) fun fields => .ok _

end

theorem FunctionType.target_refuses (f : FunctionType) : Refuses f.target := by
  have hparams : ∀ types : List Ty, Refuses (types.mapM Ty.target) := by
    intro types
    induction types with
    | nil => exact .ok _
    | cons t types ih =>
        rw [List.mapM_cons]
        exact .bind t.target_refuses fun _ => .bind ih fun _ => .ok _
  exact .bind (hparams f.params) fun _ => .bind f.returns.target_refuses fun _ => .ok _

theorem Ty.kind_refuses (n : NodeId) (t : Ty) : Refuses (t.kind n) := by
  rw [Ty.kind]
  split
  · exact .ok _
  · exact .error rfl

theorem BinaryOp.opcode_refuses (op : BinaryOp) (kind : NumericKind) : Refuses (op.opcode kind) := by
  unfold BinaryOp.opcode
  split <;> first | exact .ok _ | exact .error rfl

theorem ConversionOp.opcode_refuses (op : ConversionOp) (n : NodeId) (source target : Ty) :
    Refuses (op.opcode n source target) := by
  cases op with
  | convert =>
      refine .bind (source.kind_refuses n) fun kind => ?_
      split
      · exact .error rfl
      · split <;> first | exact .ok _ | exact .error rfl
  | extend =>
      refine .bind (source.kind_refuses n) fun kind => ?_
      cases kind <;> exact .ok _
  | truncate => exact .ok _
  | bitcast => exact .ok _

theorem Graph.valueType_refuses (g : Graph) (n : NodeId) : Refuses (g.valueType n) := by
  rw [Graph.valueType]
  split
  · exact .ok _
  · exact .error rfl
  · exact .error rfl

theorem Graph.terminator_refuses (g : Graph) (b : BlockId) : Refuses (g.terminator b) := by
  rw [Graph.terminator]
  split
  · exact .ok _
  · exact .error rfl

theorem Emission.vtableIndex_refuses {location : Option SourceInfo} {m : Method} {owner : ClassDef} {t t' : Emission}
    {e : Error} (h : vtableIndex location m owner t = .error e t') : e.IsRefusal := by
  rcases Steps.bind_eq_error.1 h with h | ⟨table, t₁, -, h⟩
  · obtain ⟨-, rfl⟩ := vtable_error h
    exact ⟨_, rfl, rfl⟩
  · cases hi : table.index? m <;> simp only [hi] at h <;> cases h

theorem Emission.itableIndex_refuses {location : Option SourceInfo} {m : Method} {interface : ClassDef}
    {t t' : Emission} {e : Error} (h : itableIndex location m interface t = .error e t') : e.IsRefusal := by
  rcases Steps.bind_eq_error.1 h with h | ⟨table, t₁, -, h⟩
  · obtain ⟨-, rfl⟩ := itable_error h
    exact ⟨_, rfl, rfl⟩
  · cases hi : table.index? m <;> simp only [hi] at h <;> cases h

end NativeBackend
