import Mathlib.Data.List.Infix
import NativeBackend.Proofs.Class.Program

namespace NativeBackend

namespace ClassDef

theorem parent_lineage_suffix {c a : ClassDef} (h : c.parent = some a) : c.lineage = c :: a.lineage := by
  rw [lineage_eq, ancestors, h, lineageOf]

theorem forall_mem_lineage {P : ClassDef → Prop} (hparent : ∀ c, P c → ∀ a, c.parent = some a → P a)
    {c : ClassDef} (hc : P c) : ∀ a ∈ c.lineage, P a := by
  induction hn : c.lineage.length using Nat.strongRecOn generalizing c with
  | ind n ih =>
      cases hp : c.parent with
      | none =>
          intro a ha
          rw [lineage_eq, ancestors, hp, lineageOf, List.mem_singleton] at ha
          exact ha ▸ hc
      | some parent =>
          rw [parent_lineage_suffix hp] at hn ⊢
          intro a ha
          rcases List.mem_cons.1 ha with rfl | ha
          · exact hc
          · exact ih _ (by simp at hn; omega) (hparent c hc parent hp) rfl a ha

theorem forall_mem_closeInterfaces {P : ClassDef → Prop} (hsuper : ∀ i, P i → ∀ j ∈ i.interfaces, P j)
    {found stack : List ClassDef} (hfound : ∀ i ∈ found, P i) (hstack : ∀ i ∈ stack, P i) :
    ∀ i ∈ closeInterfaces found stack, P i := by
  fun_induction closeInterfaces found stack with
  | case1 found => exact hfound
  | case2 found i rest _ ih => exact ih hfound fun j hj => hstack j (List.mem_cons_of_mem _ hj)
  | case3 found i rest _ ih =>
      rw [List.unattach_reverse, List.unattach_attach] at ih
      have hi := hstack i List.mem_cons_self
      refine ih ?_ ?_
      · intro j hj
        rcases List.mem_append.1 hj with hj | hj
        · exact hfound j hj
        · exact List.mem_singleton.1 hj ▸ hi
      · intro j hj
        rcases List.mem_append.1 hj with hj | hj
        · exact hsuper i hi j (List.mem_reverse.1 hj)
        · exact hstack j (List.mem_cons_of_mem _ hj)

theorem nodup_typeId_closeInterfaces {found stack : List ClassDef} (h : (found.map (·.typeId)).Nodup) :
    ((closeInterfaces found stack).map (·.typeId)).Nodup := by
  fun_induction closeInterfaces found stack with
  | case1 found => exact h
  | case2 found i rest _ ih => exact ih h
  | case3 found i rest hnew ih =>
      rw [List.unattach_reverse, List.unattach_attach] at ih
      refine ih ?_
      rw [List.map_append, List.nodup_append]
      refine ⟨h, List.nodup_singleton _, ?_⟩
      rintro id hid _ hsame rfl
      obtain ⟨j, hj, hjd⟩ := List.mem_map.1 hid
      refine hnew (List.any_eq_true.2 ⟨j, hj, ?_⟩)
      rw [beq_iff_eq, hjd, List.mem_singleton.1 hsame]

theorem pairwise_allInterfaces (c : ClassDef) : c.allInterfaces.Pairwise (·.typeId < ·.typeId) := by
  have hnodup : c.allInterfaces.Pairwise (·.typeId ≠ ·.typeId) := by
    rw [← List.pairwise_map, allInterfaces, ← List.Nodup, ((List.mergeSort_perm _ _).map _).nodup_iff]
    exact nodup_typeId_closeInterfaces .nil
  have hsorted : c.allInterfaces.Pairwise (·.typeId ≤ ·.typeId) := by
    refine (List.pairwise_mergeSort ?_ ?_ _).imp fun h => of_decide_eq_true h
    · intro i j k hij hjk
      exact decide_eq_true ((of_decide_eq_true hij).trans (of_decide_eq_true hjk))
    · intro i j
      simpa using Nat.le_total i.typeId j.typeId
  exact (hsorted.and hnodup).imp fun h => Nat.lt_of_le_of_ne h.1 h.2

end ClassDef

theorem slashed_dotted {name : String} (h : '.' ∉ name.toList) :
    (dotted name).toList.map (fun a => if a = '.' then '/' else a) = name.toList := by
  rw [dotted, String.toList_map, List.map_map]
  refine (List.map_congr_left fun a ha => ?_).trans (List.map_id' _)
  have hdot : a ≠ '.' := fun hdot => h (hdot ▸ ha)
  by_cases hslash : a = '/' <;> simp [hslash, hdot]

/-- Names whose dotted form says which class is meant, also as a part of a symbol. -/
def ClassDef.PlainName (c : ClassDef) : Prop := '.' ∉ c.name.toList ∧ '-' ∉ c.name.toList

namespace ClassDef

theorem notMem_dottedName {c : ClassDef} (h : c.PlainName) : '-' ∉ c.dottedName.toList := by
  rw [dottedName, dotted, String.toList_map, List.mem_map]
  rintro ⟨a, ha, hdash⟩
  split at hdash
  · exact absurd hdash (by decide)
  · exact h.2 (hdash ▸ ha)

theorem name_of_dottedName {c : ClassDef} (h : c.PlainName) :
    c.dottedName.toList.map (fun a => if a = '.' then '/' else a) = c.name.toList := slashed_dotted h.1

theorem name_eq_of_dottedName {c d : ClassDef} (hc : c.PlainName) (hd : d.PlainName)
    (h : c.dottedName = d.dottedName) : c.name = d.name := by
  rw [← String.toList_inj, ← name_of_dottedName hc, ← name_of_dottedName hd, h]

end ClassDef

namespace Program

/-- Nothing that a class of the program inherits from is missing, and interface lists name interfaces. -/
structure Closed (p : Program) : Prop where
  parent : ∀ c ∈ p.classes, ∀ a, c.parent = some a → a ∈ p.classes
  interfaces : ∀ c ∈ p.classes, ∀ i ∈ c.interfaces, i ∈ p.classes ∧ i.isInterface = true

variable {p : Program}

theorem Closed.mem_of_lineage (h : p.Closed) {c : ClassDef} (hc : c ∈ p.classes) :
    ∀ a ∈ c.lineage, a ∈ p.classes :=
  ClassDef.forall_mem_lineage h.parent hc

theorem Closed.of_mem_allInterfaces (h : p.Closed) {c : ClassDef} (hc : c ∈ p.classes) :
    ∀ i ∈ c.allInterfaces, i ∈ p.classes ∧ i.isInterface = true := by
  intro i hi
  rw [ClassDef.allInterfaces, List.mem_mergeSort] at hi
  refine ClassDef.forall_mem_closeInterfaces (fun j hj => h.interfaces j hj.1) (by simp) ?_ i hi
  intro j hj
  obtain ⟨a, ha, hja⟩ := List.mem_flatMap.1 (List.mem_reverse.1 hj)
  exact h.interfaces a (h.mem_of_lineage hc a ha) j hja

theorem Accepted.nodup_name (hp : p.Accepted) : (p.classes.map (·.name)).Nodup :=
  hp.nodup_map fun h d hd => ((add_eq_ok h).2.1 d hd).2

theorem Accepted.eq_of_dottedName (hp : p.Accepted) (hplain : ∀ c ∈ p.classes, c.PlainName) {c d : ClassDef}
    (hc : c ∈ p.classes) (hd : d ∈ p.classes) (h : c.dottedName = d.dottedName) : c = d :=
  List.inj_on_of_nodup_map hp.nodup_name hc hd (ClassDef.name_eq_of_dottedName (hplain c hc) (hplain d hd) h)

end Program

end NativeBackend
