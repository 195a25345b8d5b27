import NativeBackend.Proofs.Class.Inheritance

namespace NativeBackend

namespace ClassDef

open Relation

section Reorder

variable (order : Nat → List ClassDef → List ClassDef)

mutual

/-- The same hierarchy with the interface list of each class and interface put into another order, which its
type id tells. -/
def reorder : ClassDef → ClassDef
  | ⟨name, typeId, kind, parent, interfaces, methods, fields, size⟩ =>
    ⟨name, typeId, kind, reorderParent parent, order typeId (reorderAll interfaces), methods, fields, size⟩

def reorderParent : Option ClassDef → Option ClassDef
  | none => none
  | some parent => some parent.reorder

def reorderAll : List ClassDef → List ClassDef
  | [] => []
  | i :: rest => i.reorder :: reorderAll rest

end

theorem reorderParent_eq (parent : Option ClassDef) : reorderParent order parent = parent.map (reorder order) := by
  cases parent <;> simp [reorderParent]

theorem reorderAll_eq (interfaces : List ClassDef) : reorderAll order interfaces = interfaces.map (reorder order) := by
  induction interfaces with
  | nil => simp [reorderAll]
  | cons i rest ih => simp [reorderAll, ih]

variable (c : ClassDef)

@[simp]
theorem reorder_typeId : (c.reorder order).typeId = c.typeId := by
  cases c
  simp [reorder]

@[simp]
theorem reorder_kind : (c.reorder order).kind = c.kind := by
  cases c
  simp [reorder]

@[simp]
theorem reorder_methods : (c.reorder order).methods = c.methods := by
  cases c
  simp [reorder]

@[simp]
theorem reorder_parent : (c.reorder order).parent = c.parent.map (reorder order) := by
  cases c
  simp [reorder, reorderParent_eq]

theorem reorder_interfaces :
    (c.reorder order).interfaces = order c.typeId (c.interfaces.map (reorder order)) := by
  cases c
  simp [reorder, reorderAll_eq]

@[simp]
theorem reorder_declared? (test : Method → Bool) (name : String) (descriptor : MethodDescriptor) :
    (c.reorder order).declared? test name descriptor = c.declared? test name descriptor := by
  rw [declared?, declared?, reorder_methods]

theorem reorder_lineage : (c.reorder order).lineage = c.lineage.map (reorder order) := by
  induction hn : c.lineage.length using Nat.strongRecOn generalizing c with
  | ind n ih =>
      rw [lineage_eq, lineage_eq, ancestors, ancestors, reorder_parent, List.map_cons]
      cases hp : c.parent with
      | none => simp [lineageOf]
      | some parent =>
          rw [parent_lineage_suffix hp, List.length_cons] at hn
          simp only [Option.map_some, lineageOf]
          rw [ih _ (by omega) parent rfl]

end Reorder

variable {order : Nat → List ClassDef → List ClassDef} {c i : ClassDef}

section Permuted

variable (hperm : ∀ id interfaces, (order id interfaces).Perm interfaces)

include hperm

theorem lists_reorder_iff : (c.reorder order).Lists i ↔ ∃ j, c.Lists j ∧ j.reorder order = i := by
  rw [Lists, reorder_interfaces, (hperm _ _).mem_iff, List.mem_map]
  rfl

theorem extends_reorder_iff : (c.reorder order).Extends i ↔ ∃ j, c.Extends j ∧ j.reorder order = i := by
  constructor
  · intro h
    induction h with
    | single hlists =>
        obtain ⟨j, hj, rfl⟩ := (lists_reorder_iff hperm).1 hlists
        exact ⟨j, .single hj, rfl⟩
    | tail _ hlists ih =>
        obtain ⟨k, hk, rfl⟩ := ih
        obtain ⟨j, hj, rfl⟩ := (lists_reorder_iff hperm).1 hlists
        exact ⟨j, TransGen.tail hk hj, rfl⟩
  · rintro ⟨j, hj, rfl⟩
    induction hj with
    | single hlists => exact .single ((lists_reorder_iff hperm).2 ⟨_, hlists, rfl⟩)
    | tail _ hlists ih => exact TransGen.tail ih ((lists_reorder_iff hperm).2 ⟨_, hlists, rfl⟩)

theorem implements_reorder_iff : (c.reorder order).Implements i ↔ ∃ j, c.Implements j ∧ j.reorder order = i := by
  simp only [Implements, reorder_lineage, List.mem_map]
  constructor
  · rintro ⟨_, ⟨a, ha, rfl⟩, hi⟩
    obtain ⟨j, hj, rfl⟩ := (extends_reorder_iff hperm).1 hi
    exact ⟨j, ⟨a, ha, hj⟩, rfl⟩
  · rintro ⟨j, ⟨a, ha, hj⟩, rfl⟩
    exact ⟨_, ⟨a, ha, rfl⟩, (extends_reorder_iff hperm).2 ⟨j, hj, rfl⟩⟩

theorem exists_of_involves_reorder (h : (c.reorder order).Involves i) : ∃ a, c.Involves a ∧ a.reorder order = i := by
  induction h with
  | refl => exact ⟨c, .refl, rfl⟩
  | tail _ hstep ih =>
      obtain ⟨a, ha, rfl⟩ := ih
      rcases hstep with hparent | hlists
      · rw [reorder_parent] at hparent
        obtain ⟨b, hb, rfl⟩ := Option.map_eq_some_iff.1 hparent
        exact ⟨b, ReflTransGen.tail ha (.inl hb), rfl⟩
      · obtain ⟨b, hb, rfl⟩ := (lists_reorder_iff hperm).1 hlists
        exact ⟨b, ReflTransGen.tail ha (.inr hb), rfl⟩

theorem Orderly.reordered (h : c.Orderly) : (c.reorder order).Orderly where
  distinct x y hx hy hid := by
    obtain ⟨a, ha, rfl⟩ := exists_of_involves_reorder hperm hx
    obtain ⟨b, hb, rfl⟩ := exists_of_involves_reorder hperm hy
    rw [reorder_typeId, reorder_typeId] at hid
    rw [h.distinct a b ha hb hid]
  listed x hx i hi := by
    obtain ⟨a, ha, rfl⟩ := exists_of_involves_reorder hperm hx
    obtain ⟨j, hj, rfl⟩ := (lists_reorder_iff hperm).1 hi
    rw [isInterface, reorder_kind]
    exact h.listed a ha j hj
  bare x hx hkind := by
    obtain ⟨a, ha, rfl⟩ := exists_of_involves_reorder hperm hx
    rw [isInterface, reorder_kind] at hkind
    rw [reorder_parent, h.bare a ha hkind, Option.map_none]

theorem Orderly.allInterfaces_reorder (h : c.Orderly) :
    (c.reorder order).allInterfaces = c.allInterfaces.map (reorder order) := by
  have hirrefl : Std.Irrefl fun a b : ClassDef => a.typeId < b.typeId := ⟨fun a => Nat.lt_irrefl a.typeId⟩
  have hasymm : Std.Asymm fun a b : ClassDef => a.typeId < b.typeId := ⟨fun _ _ => Nat.lt_asymm⟩
  refine (pairwise_allInterfaces _).eq_of_mem_iff ?_ fun i => ?_
  · rw [List.pairwise_map]
    simpa using c.pairwise_allInterfaces
  · simp only [(h.reordered hperm).mem_allInterfaces, List.mem_map, h.mem_allInterfaces]
    exact implements_reorder_iff hperm

theorem Orderly.extendsInterface_reorder (h : c.Orderly) (other : ClassDef) :
    (c.reorder order).extendsInterface (other.reorder order) = c.extendsInterface other := by
  simp only [extendsInterface, reorder_typeId, h.allInterfaces_reorder hperm, List.any_map, Function.comp_def]

theorem Orderly.candidates_reorder (h : c.Orderly) (name : String) (descriptor : MethodDescriptor) :
    (c.reorder order).candidates name descriptor =
      (c.candidates name descriptor).map fun (i, m) => (i.reorder order, m) := by
  simp only [candidates, h.allInterfaces_reorder hperm, List.filterMap_map, List.map_filterMap, Function.comp_def,
    reorder_declared?, Option.map_map]

/-- The order of interface lists does not matter for what a selector resolves to. -/
theorem Orderly.resolveMethod?_reorder (h : c.Orderly) (name : String) (descriptor : MethodDescriptor) :
    (c.reorder order).resolveMethod? name descriptor = c.resolveMethod? name descriptor := by
  have hchain : (c.reorder order).lineage.findSome? (·.declared? (!·.isStatic) name descriptor) =
      c.lineage.findSome? (·.declared? (!·.isStatic) name descriptor) := by
    simp only [reorder_lineage, List.findSome?_map, Function.comp_def, reorder_declared?]
  have hmaximal : (c.reorder order).maximalCandidates name descriptor = c.maximalCandidates name descriptor := by
    simp only [maximalCandidates, h.candidates_reorder hperm, List.filter_map, List.map_map, Function.comp_def,
      List.any_map]
    refine congrArg _ (List.filter_congr fun p _ => congrArg _ ?_)
    rw [Bool.eq_iff_iff, List.any_eq_true, List.any_eq_true]
    refine exists_congr fun q => and_congr_right fun hq => ?_
    obtain ⟨i, hi, hq⟩ := List.mem_filterMap.1 hq
    obtain ⟨m, -, rfl⟩ := Option.map_eq_some_iff.1 hq
    rw [(h.of_involves (implements_of_mem_allInterfaces hi).involves).extendsInterface_reorder hperm p.1]
  rw [resolveMethod?, resolveMethod?, hchain, hmaximal]

end Permuted

end ClassDef

end NativeBackend
