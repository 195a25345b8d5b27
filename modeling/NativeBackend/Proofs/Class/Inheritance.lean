import Mathlib.Data.List.Sort
import Mathlib.Logic.Relation
import NativeBackend.Proofs.Class.Hierarchy

namespace NativeBackend

namespace ClassDef

open Relation

def Lists (a i : ClassDef) : Prop := i ∈ a.interfaces

def Extends : ClassDef → ClassDef → Prop := TransGen Lists

def Implements (c i : ClassDef) : Prop := ∃ a ∈ c.lineage, a.Extends i

/-- Every class and interface that a class is defined by, the class itself included. -/
def Involves : ClassDef → ClassDef → Prop := ReflTransGen fun a b => a.parent = some b ∨ a.Lists b

/-- The hierarchy above a class: type ids tell its members apart, only interfaces are listed, and they have no
superclass. -/
structure Orderly (c : ClassDef) : Prop where
  distinct : ∀ a b, c.Involves a → c.Involves b → a.typeId = b.typeId → a = b
  listed : ∀ a, c.Involves a → ∀ i ∈ a.interfaces, i.isInterface = true
  bare : ∀ i, c.Involves i → i.isInterface = true → i.parent = none

variable {a b c i j : ClassDef}

theorem Involves.trans (hab : a.Involves b) (hbc : b.Involves c) : a.Involves c := ReflTransGen.trans hab hbc

theorem involves_of_mem_lineage (ha : a ∈ c.lineage) : c.Involves a :=
  forall_mem_lineage (P := c.Involves) (fun _ hb _ hparent => ReflTransGen.tail hb (.inl hparent)) .refl a ha

theorem Extends.involves (h : a.Extends i) : a.Involves i := by
  induction h with
  | single hlists => exact .single (.inr hlists)
  | tail _ hlists ih => exact .tail ih (.inr hlists)

theorem Implements.involves (h : c.Implements i) : c.Involves i := by
  obtain ⟨a, ha, hi⟩ := h
  exact (involves_of_mem_lineage ha).trans hi.involves

theorem Orderly.of_involves (h : c.Orderly) (ha : c.Involves a) : a.Orderly where
  distinct x y hx hy := h.distinct x y (ha.trans hx) (ha.trans hy)
  listed x hx := h.listed x (ha.trans hx)
  bare i hi := h.bare i (ha.trans hi)

theorem mem_of_involves {all : List ClassDef} (hparent : ∀ a ∈ all, ∀ b, a.parent = some b → b ∈ all)
    (hlists : ∀ a ∈ all, ∀ i ∈ a.interfaces, i ∈ all) (hc : c ∈ all) (ha : c.Involves a) : a ∈ all := by
  induction ha with
  | refl => exact hc
  | tail _ hstep ih => exact hstep.elim (hparent _ ih _) (hlists _ ih _)

theorem Orderly.of_closed (all : List ClassDef) (hc : c ∈ all)
    (hparent : ∀ a ∈ all, ∀ b, a.parent = some b → b ∈ all) (hlists : ∀ a ∈ all, ∀ i ∈ a.interfaces, i ∈ all)
    (hids : (all.map (·.typeId)).Nodup) (hlisted : ∀ a ∈ all, ∀ i ∈ a.interfaces, i.isInterface = true)
    (hbare : ∀ i ∈ all, i.isInterface = true → i.parent = none) : c.Orderly where
  distinct _ _ ha hb hid :=
    List.inj_on_of_nodup_map hids (mem_of_involves hparent hlists hc ha) (mem_of_involves hparent hlists hc hb) hid
  listed a ha := hlisted a (mem_of_involves hparent hlists hc ha)
  bare i hi := hbare i (mem_of_involves hparent hlists hc hi)

theorem weight_le_weightAll {is : List ClassDef} (hi : i ∈ is) : i.weight ≤ weightAll is := by
  induction is with
  | nil => cases hi
  | cons j rest ih =>
      rw [weightAll]
      rcases List.mem_cons.1 hi with rfl | hi
      · omega
      · have := ih hi
        omega

theorem Extends.weight_lt (h : a.Extends i) : i.weight < a.weight := by
  have hlists : ∀ x y : ClassDef, x.Lists y → y.weight < x.weight := by
    intro x y hy
    have := weight_le_weightAll hy
    rw [weight_eq x]
    omega
  induction h with
  | single hi => exact hlists _ _ hi
  | tail _ hi ih => exact (hlists _ _ hi).trans ih

theorem Extends.ne (h : a.Extends i) : a ≠ i := by
  rintro rfl
  exact Nat.lt_irrefl _ h.weight_lt

theorem Orderly.isInterface_of_extends (h : c.Orderly) (ha : c.Involves a) (hi : a.Extends i) :
    i.isInterface = true := by
  induction hi with
  | single hlists => exact h.listed a ha _ hlists
  | tail hab hlists _ => exact h.listed _ (ha.trans (Extends.involves hab)) _ hlists

/-- Where type ids tell interfaces apart, the walk ends with all that was on its stack and what that lists. -/
theorem closeInterfaces_complete {P : ClassDef → Prop} (hsuper : ∀ i, P i → ∀ j ∈ i.interfaces, P j)
    (hdistinct : ∀ i j, P i → P j → i.typeId = j.typeId → i = j) (found stack : List ClassDef)
    (hfound : ∀ i ∈ found, P i) (hstack : ∀ i ∈ stack, P i)
    (hopen : ∀ i ∈ found, ∀ j ∈ i.interfaces, j ∈ found ∨ j ∈ stack) :
    (∀ i, i ∈ found ∨ i ∈ stack → i ∈ closeInterfaces found stack) ∧
      ∀ i ∈ closeInterfaces found stack, ∀ j ∈ i.interfaces, j ∈ closeInterfaces found stack := by
  fun_induction closeInterfaces found stack with
  | case1 found =>
      refine ⟨fun i hi => hi.resolve_right List.not_mem_nil, fun i hi j hj => ?_⟩
      exact (hopen i hi j hj).resolve_right List.not_mem_nil
  | case2 found i rest hknown ih =>
      have hi : i ∈ found := by
        obtain ⟨j, hj, hid⟩ := List.any_eq_true.1 hknown
        rwa [← hdistinct j i (hfound j hj) (hstack i List.mem_cons_self) (beq_iff_eq.1 hid)]
      have hmove : ∀ j, j ∈ found ∨ j ∈ i :: rest → j ∈ found ∨ j ∈ rest := by
        rintro j (hj | hj)
        · exact .inl hj
        · rcases List.mem_cons.1 hj with rfl | hj
          · exact .inl hi
          · exact .inr hj
      obtain ⟨hall, hclosed⟩ := ih hfound (fun j hj => hstack j (List.mem_cons_of_mem _ hj))
        fun k hk j hj => hmove j (hopen k hk j hj)
      exact ⟨fun j hj => hall j (hmove j hj), hclosed⟩
  | case3 found i rest _ ih =>
      rw [List.unattach_reverse, List.unattach_attach] at ih
      have hi := hstack i List.mem_cons_self
      have hmove : ∀ j, j ∈ found ∨ j ∈ i :: rest → j ∈ found ++ [i] ∨ j ∈ i.interfaces.reverse ++ rest := by
        rintro j (hj | hj)
        · exact .inl (List.mem_append_left _ hj)
        · rcases List.mem_cons.1 hj with rfl | hj
          · exact .inl (List.mem_append_right _ (List.mem_singleton_self _))
          · exact .inr (List.mem_append_right _ hj)
      have hfound' : ∀ j ∈ found ++ [i], P j := by
        intro j hj
        rcases List.mem_append.1 hj with hj | hj
        · exact hfound j hj
        · exact List.mem_singleton.1 hj ▸ hi
      have hstack' : ∀ j ∈ i.interfaces.reverse ++ rest, P j := by
        intro j hj
        rcases List.mem_append.1 hj with hj | hj
        · exact hsuper i hi j (List.mem_reverse.1 hj)
        · exact hstack j (List.mem_cons_of_mem _ hj)
      obtain ⟨hall, hclosed⟩ := ih hfound' hstack' fun k hk j hj => by
        rcases List.mem_append.1 hk with hk | hk
        · exact hmove j (hopen k hk j hj)
        · rw [List.mem_singleton.1 hk] at hj
          exact .inr (List.mem_append_left _ (List.mem_reverse.2 hj))
      exact ⟨fun j hj => hall j (hmove j hj), hclosed⟩

theorem Implements.superinterface (hi : c.Implements i) (hij : i.Lists j) : c.Implements j := by
  obtain ⟨a, ha, hai⟩ := hi
  exact ⟨a, ha, hai.tail hij⟩

theorem implements_of_mem_allInterfaces (hi : i ∈ c.allInterfaces) : c.Implements i := by
  rw [allInterfaces, List.mem_mergeSort] at hi
  refine forall_mem_closeInterfaces (P := c.Implements) (fun i hi j hj => hi.superinterface hj) (by simp) ?_ i hi
  intro j hj
  obtain ⟨a, ha, hja⟩ := List.mem_flatMap.1 (List.mem_reverse.1 hj)
  exact ⟨a, ha, .single hja⟩

/-- The interfaces of a class are those that it reaches through superclasses and superinterfaces. -/
theorem Orderly.mem_allInterfaces (h : c.Orderly) : i ∈ c.allInterfaces ↔ c.Implements i := by
  refine ⟨implements_of_mem_allInterfaces, ?_⟩
  rintro ⟨a, ha, hi⟩
  rw [allInterfaces, List.mem_mergeSort]
  obtain ⟨hall, hclosed⟩ := closeInterfaces_complete (P := c.Implements)
    (fun i hi j hj => hi.superinterface hj)
    (fun i j hi hj => h.distinct i j hi.involves hj.involves) [] (c.lineage.flatMap (·.interfaces)).reverse (by simp)
    (fun j hj => by
      obtain ⟨b, hb, hjb⟩ := List.mem_flatMap.1 (List.mem_reverse.1 hj)
      exact ⟨b, hb, .single hjb⟩)
    (by simp)
  induction hi with
  | single hlists => exact hall _ (.inr (List.mem_reverse.2 (List.mem_flatMap.2 ⟨a, ha, hlists⟩)))
  | tail _ hlists ih => exact hclosed _ ih _ hlists

theorem lineage_of_root (h : c.parent = none) : c.lineage = [c] := by
  rw [lineage_eq, ancestors, h, lineageOf]

theorem Orderly.extendsInterface_iff (h : c.Orderly) (hi : c.Implements i) (hj : c.Implements j) :
    i.extendsInterface j = true ↔ i.Extends j := by
  have hinterface : i.isInterface = true := by
    obtain ⟨a, ha, hai⟩ := hi
    exact h.isInterface_of_extends (involves_of_mem_lineage ha) hai
  have himplements : ∀ k, k ∈ i.allInterfaces ↔ i.Extends k := by
    intro k
    rw [(h.of_involves hi.involves).mem_allInterfaces, Implements,
      lineage_of_root (h.bare i hi.involves hinterface)]
    simp
  rw [extendsInterface, Bool.and_eq_true, bne_iff_ne, List.any_eq_true]
  constructor
  · rintro ⟨-, k, hk, hid⟩
    have hik := (himplements k).1 hk
    rwa [← h.distinct k j (hi.involves.trans hik.involves) hj.involves (beq_iff_eq.1 hid)]
  · intro hij
    refine ⟨fun hid => hij.ne (h.distinct i j hi.involves hj.involves hid), j, (himplements j).2 hij, ?_⟩
    exact beq_self_eq_true _

end ClassDef

end NativeBackend
