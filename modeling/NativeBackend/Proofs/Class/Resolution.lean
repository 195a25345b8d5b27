import Mathlib.Data.List.MinMax
import NativeBackend.Proofs.Class.Reordered
import NativeBackend.Proofs.Lists

namespace NativeBackend

namespace ClassDef

variable (c : ClassDef) (name : String) (descriptor : MethodDescriptor)

def Matches (i : ClassDef) (m : Method) : Prop :=
  c.Implements i ∧ i.declared? (·.isVirtual) name descriptor = some m

/-- A match in an interface that no other matching interface extends. -/
def MostSpecific (i : ClassDef) (m : Method) : Prop :=
  c.Matches name descriptor i m ∧ ∀ j k, c.Matches name descriptor j k → ¬ j.Extends i

def LeftToInterfaces : Prop := ∀ a ∈ c.lineage, a.declared? (!·.isStatic) name descriptor = none

/-- The rule of method resolution. -/
inductive Resolves : Option Method → Prop
  | inherited {before after : List ClassDef} {a : ClassDef} {m : Method} (hlineage : c.lineage = before ++ a :: after)
      (hbefore : ∀ b ∈ before, b.declared? (!·.isStatic) name descriptor = none)
      (hdeclared : a.declared? (!·.isStatic) name descriptor = some m) : Resolves (some m)
  | default {i : ClassDef} {m : Method} (hchain : c.LeftToInterfaces name descriptor)
      (hm : c.MostSpecific name descriptor i m) (hbody : m.isAbstract = false)
      (hsingle : ∀ j k, c.MostSpecific name descriptor j k → k.isAbstract = false → j = i) : Resolves (some m)
  | allAbstract {i : ClassDef} {m : Method} (hchain : c.LeftToInterfaces name descriptor)
      (hm : c.MostSpecific name descriptor i m)
      (hall : ∀ j k, c.MostSpecific name descriptor j k → k.isAbstract = true ∧ i.typeId ≤ j.typeId) :
      Resolves (some m)
  | conflict {i j : ClassDef} {m k : Method} (hchain : c.LeftToInterfaces name descriptor)
      (hm : c.MostSpecific name descriptor i m) (hk : c.MostSpecific name descriptor j k) (hne : i ≠ j)
      (hmbody : m.isAbstract = false) (hkbody : k.isAbstract = false) : Resolves none
  | missing (hchain : c.LeftToInterfaces name descriptor) (hnone : ∀ i m, ¬ c.Matches name descriptor i m) :
      Resolves none

def mostSpecific : List (ClassDef × Method) :=
  let all := c.candidates name descriptor
  all.filter fun (i, _) => !all.any fun (other, _) => other.extendsInterface i

theorem maximalCandidates_eq : c.maximalCandidates name descriptor = (c.mostSpecific name descriptor).map (·.2) := rfl

variable {c name descriptor} {i : ClassDef} {m : Method}

theorem Orderly.mem_candidates (h : c.Orderly) :
    (i, m) ∈ c.candidates name descriptor ↔ c.Matches name descriptor i m := by
  simp [candidates, Matches, h.mem_allInterfaces]

theorem Orderly.mem_mostSpecific (h : c.Orderly) :
    (i, m) ∈ c.mostSpecific name descriptor ↔ c.MostSpecific name descriptor i m := by
  simp only [mostSpecific, List.mem_filter, Bool.not_eq_true', List.any_eq_false, Prod.forall, h.mem_candidates]
  refine and_congr_right fun hi => forall₂_congr fun j k => forall_congr' fun hj => ?_
  rw [h.extendsInterface_iff hj.1 hi.1]

variable (c name descriptor) in
theorem pairwise_mostSpecific : (c.mostSpecific name descriptor).Pairwise (·.1.typeId < ·.1.typeId) := by
  refine List.Pairwise.filter _ (List.Pairwise.filterMap _ ?_ c.pairwise_allInterfaces)
  intro i j hlt p hp q hq
  obtain ⟨_, -, rfl⟩ := Option.map_eq_some_iff.1 hp
  obtain ⟨_, -, rfl⟩ := Option.map_eq_some_iff.1 hq
  exact hlt

theorem Orderly.head?_mostSpecific (h : c.Orderly) (hm : c.MostSpecific name descriptor i m)
    (hleast : ∀ j k, c.MostSpecific name descriptor j k → i.typeId ≤ j.typeId) :
    (c.mostSpecific name descriptor).head? = some (i, m) := by
  have hin := h.mem_mostSpecific.2 hm
  have hsorted := c.pairwise_mostSpecific name descriptor
  cases hlist : c.mostSpecific name descriptor with
  | nil => simp [hlist] at hin
  | cons p rest =>
      have hp : c.MostSpecific name descriptor p.1 p.2 := h.mem_mostSpecific.1 (hlist ▸ List.mem_cons_self)
      rw [hlist] at hin hsorted
      rcases List.mem_cons.1 hin with heq | hin
      · rw [heq, List.head?_cons]
      · have hlt := (List.pairwise_cons.1 hsorted).1 _ hin
        exact absurd hlt (Nat.not_lt_of_le (hleast _ _ hp))

theorem Orderly.exists_mostSpecific (h : c.Orderly) (hm : c.Matches name descriptor i m) :
    ∃ j k, c.MostSpecific name descriptor j k := by
  cases hmax : (c.candidates name descriptor).argmax (·.1.weight) with
  | none =>
      have := h.mem_candidates.2 hm
      rw [List.argmax_eq_none.1 hmax] at this
      cases this
  | some p =>
      refine ⟨p.1, p.2, h.mem_candidates.1 (List.argmax_mem hmax), fun j k hj hextends => ?_⟩
      have hle : j.weight ≤ p.1.weight :=
        List.le_of_mem_argmax (f := fun p : ClassDef × Method => p.1.weight) (h.mem_candidates.2 hj) hmax
      exact Nat.not_le_of_lt hextends.weight_lt hle

def defaults (c : ClassDef) (name : String) (descriptor : MethodDescriptor) : List (ClassDef × Method) :=
  (c.mostSpecific name descriptor).filter (!·.2.isAbstract)

theorem Orderly.mem_defaults (h : c.Orderly) :
    (i, m) ∈ c.defaults name descriptor ↔ c.MostSpecific name descriptor i m ∧ m.isAbstract = false := by
  rw [defaults, List.mem_filter, h.mem_mostSpecific, Bool.not_eq_true']

variable (c name descriptor) in
theorem pairwise_defaults : (c.defaults name descriptor).Pairwise (·.1.typeId < ·.1.typeId) :=
  (c.pairwise_mostSpecific name descriptor).filter _

theorem fst_ne_of_defaults {p q : ClassDef × Method} {rest : List (ClassDef × Method)}
    (h : c.defaults name descriptor = p :: q :: rest) : p.1 ≠ q.1 := by
  intro heq
  have hlt := (List.pairwise_cons.1 (h ▸ c.pairwise_defaults name descriptor)).1 q List.mem_cons_self
  rw [heq] at hlt
  exact Nat.lt_irrefl _ hlt

theorem findSome?_of_leftToInterfaces (h : c.LeftToInterfaces name descriptor) :
    c.lineage.findSome? (·.declared? (!·.isStatic) name descriptor) = none :=
  List.findSome?_eq_none_iff.2 h

theorem resolveMethod?_of_leftToInterfaces (h : c.LeftToInterfaces name descriptor) :
    c.resolveMethod? name descriptor =
      match c.defaults name descriptor with
      | [] => (c.mostSpecific name descriptor).head?.map (·.2)
      | [p] => some p.2
      | _ => none := by
  rw [resolveMethod?, findSome?_of_leftToInterfaces h]
  have hfilter : ((c.mostSpecific name descriptor).map (·.2)).filter (!·.isAbstract) =
      (c.defaults name descriptor).map (·.2) := List.filter_map
  simp only [maximalCandidates_eq, hfilter, List.head?_map]
  rcases c.defaults name descriptor with _ | ⟨_, _ | ⟨_, _⟩⟩ <;> rfl

theorem Orderly.resolves_head? (h : c.Orderly) (hchain : c.LeftToInterfaces name descriptor)
    (hnone : c.defaults name descriptor = []) :
    c.Resolves name descriptor ((c.mostSpecific name descriptor).head?.map (·.2)) := by
  cases hall : c.mostSpecific name descriptor with
  | nil =>
      refine .missing hchain fun i m hm => ?_
      obtain ⟨j, k, hjk⟩ := h.exists_mostSpecific hm
      simpa [hall] using h.mem_mostSpecific.2 hjk
  | cons p rest =>
      have hsorted := hall ▸ c.pairwise_mostSpecific name descriptor
      have hp : c.MostSpecific name descriptor p.1 p.2 := h.mem_mostSpecific.1 (hall ▸ List.mem_cons_self)
      refine .allAbstract hchain hp fun j k hjk => ⟨?_, ?_⟩
      · by_contra hbody
        have hmem := h.mem_defaults.2 ⟨hjk, Bool.eq_false_of_not_eq_true hbody⟩
        rw [hnone] at hmem
        cases hmem
      · have hmem := h.mem_mostSpecific.2 hjk
        rw [hall] at hmem
        rcases List.mem_cons.1 hmem with rfl | hmem
        · exact Nat.le_refl _
        · exact ((List.pairwise_cons.1 hsorted).1 _ hmem).le

/-- What method resolution gives is what the rule says. -/
theorem Orderly.resolves (h : c.Orderly) : c.Resolves name descriptor (c.resolveMethod? name descriptor) := by
  cases hfound : c.lineage.findSome? (·.declared? (!·.isStatic) name descriptor) with
  | some m =>
      obtain ⟨before, a, after, hlineage, hdeclared, hbefore⟩ := List.findSome?_eq_some_iff.1 hfound
      rw [resolveMethod?, hfound]
      exact .inherited hlineage hbefore hdeclared
  | none =>
      have hchain : c.LeftToInterfaces name descriptor := List.findSome?_eq_none_iff.1 hfound
      rw [resolveMethod?_of_leftToInterfaces hchain]
      have hmem : ∀ j k, (j, k) ∈ c.defaults name descriptor ↔
          c.MostSpecific name descriptor j k ∧ k.isAbstract = false := fun j k => h.mem_defaults
      rcases hlist : c.defaults name descriptor with _ | ⟨p, _ | ⟨q, rest⟩⟩
      · exact h.resolves_head? hchain hlist
      · rw [hlist] at hmem
        obtain ⟨hp, hbody⟩ := (hmem p.1 p.2).1 (List.mem_singleton_self p)
        refine .default hchain hp hbody fun j k hjk hk => ?_
        exact congrArg Prod.fst (List.mem_singleton.1 ((hmem j k).2 ⟨hjk, hk⟩))
      · rw [hlist] at hmem
        obtain ⟨hp, hpbody⟩ := (hmem p.1 p.2).1 List.mem_cons_self
        obtain ⟨hq, hqbody⟩ := (hmem q.1 q.2).1 (List.mem_cons_of_mem _ List.mem_cons_self)
        exact .conflict hchain hp hq (fst_ne_of_defaults hlist) hpbody hqbody

theorem Orderly.resolveMethod?_eq (h : c.Orderly) {result : Option Method}
    (hresult : c.Resolves name descriptor result) : c.resolveMethod? name descriptor = result := by
  cases hresult with
  | inherited hlineage hbefore hdeclared =>
      have hfound := List.findSome?_eq_some_iff.2 ⟨_, _, _, hlineage, hdeclared, hbefore⟩
      rw [resolveMethod?, hfound]
  | @default i m hchain hm hbody hsingle =>
      have hin := h.mem_defaults.2 ⟨hm, hbody⟩
      have honly : ∀ p ∈ c.defaults name descriptor, p.1 = i := fun p hp =>
        hsingle p.1 p.2 (h.mem_defaults.1 hp).1 (h.mem_defaults.1 hp).2
      rw [resolveMethod?_of_leftToInterfaces hchain]
      rcases hlist : c.defaults name descriptor with _ | ⟨p, _ | ⟨q, rest⟩⟩
      · simp [hlist] at hin
      · rw [hlist, List.mem_singleton] at hin
        rw [← hin]
      · rw [hlist] at honly
        have hsame := (honly p List.mem_cons_self).trans (honly q (List.mem_cons_of_mem _ List.mem_cons_self)).symm
        exact absurd hsame (fst_ne_of_defaults hlist)
  | @allAbstract i m hchain hm hall =>
      have hdefaults : c.defaults name descriptor = [] := by
        refine List.eq_nil_iff_forall_not_mem.2 fun p hp => ?_
        obtain ⟨hp, hbody⟩ := h.mem_defaults.1 (show (p.1, p.2) ∈ _ from hp)
        simp [(hall _ _ hp).1] at hbody
      rw [resolveMethod?_of_leftToInterfaces hchain, hdefaults, h.head?_mostSpecific hm fun j k hj => (hall j k hj).2]
      rfl
  | conflict hchain hm hk hne hmbody hkbody =>
      have hin := h.mem_defaults.2 ⟨hm, hmbody⟩
      have hin' := h.mem_defaults.2 ⟨hk, hkbody⟩
      rw [resolveMethod?_of_leftToInterfaces hchain]
      rcases hlist : c.defaults name descriptor with _ | ⟨p, _ | ⟨q, rest⟩⟩
      · simp [hlist] at hin
      · rw [hlist, List.mem_singleton] at hin hin'
        exact absurd (congrArg Prod.fst (hin.trans hin'.symm)) hne
      · rfl
  | missing hchain hnone =>
      have hempty : c.mostSpecific name descriptor = [] :=
        List.eq_nil_iff_forall_not_mem.2 fun p hp => hnone p.1 p.2 (h.mem_mostSpecific.1 hp).1
      rw [resolveMethod?_of_leftToInterfaces hchain, defaults, hempty]
      rfl

/-- Resolution takes the nearest instance method of the superclass chain, else follows the most specific matches
among the interfaces of the class: all that it reaches through superclasses and superinterfaces, each once and by
increasing type id. The order of interface lists does not matter anywhere in the hierarchy. -/
theorem resolution_maximallySpecific (h : c.Orderly) :
    (∀ i, i ∈ c.allInterfaces ↔ c.Implements i) ∧ c.allInterfaces.Pairwise (·.typeId < ·.typeId) ∧
      (∀ name descriptor result,
        c.resolveMethod? name descriptor = result ↔ c.Resolves name descriptor result) ∧
      (∀ name descriptor i m, c.Matches name descriptor i m → ∃ j k, c.MostSpecific name descriptor j k) ∧
      ∀ order : Nat → List ClassDef → List ClassDef, (∀ id interfaces, (order id interfaces).Perm interfaces) →
        (c.reorder order).allInterfaces = c.allInterfaces.map (reorder order) ∧
          ∀ name descriptor, (c.reorder order).resolveMethod? name descriptor = c.resolveMethod? name descriptor := by
  refine ⟨fun i => h.mem_allInterfaces, c.pairwise_allInterfaces, fun name descriptor result => ?_,
    fun name descriptor i m hm => h.exists_mostSpecific hm, fun order hperm => ?_⟩
  · constructor
    · rintro rfl
      exact h.resolves
    · exact h.resolveMethod?_eq
  · exact ⟨h.allInterfaces_reorder hperm, h.resolveMethod?_reorder hperm⟩

end ClassDef

namespace Example

def roar (enclosing : String) (flags : MethodFlags) : Method := .declare enclosing "roar" ⟨[], .void⟩ flags true

def noise : ClassDef := ⟨"zoo/Noise", 40, .interface, none, [], [roar "zoo/Noise" {}], [], 0⟩

def muted : ClassDef :=
  ⟨"zoo/Muted", 41, .interface, none, [noise], [roar "zoo/Muted" { isAbstract := true }], [], 0⟩

def loud : ClassDef := ⟨"zoo/Loud", 42, .interface, none, [noise], [roar "zoo/Loud" {}], [], 0⟩

def beast : ClassDef := ⟨"zoo/Beast", 43, .abstractClass, none, [muted, noise], [], [], 8⟩

def lion : ClassDef := ⟨"zoo/Lion", 44, .concrete, some beast, [noise, loud], [], [], 8⟩

theorem lion_orderly : lion.Orderly := by
  refine .of_closed [noise, muted, loud, beast, lion] (by simp) ?_ ?_ (by decide) ?_ ?_ <;>
    simp [noise, muted, loud, beast, lion, ClassDef.isInterface]

/-- One interface redeclares a default as abstract, another one overrides it: the override is taken, in whatever
order the two are listed. -/
theorem resolution_maximallySpecific_of_lion :
    lion.Orderly ∧ lion.Resolves "roar" ⟨[], .void⟩ (some (roar "zoo/Loud" {})) ∧
      (lion.reorder fun _ => List.reverse).resolveMethod? "roar" ⟨[], .void⟩ = some (roar "zoo/Loud" {}) := by
  obtain ⟨-, -, hrule, -, horder⟩ := ClassDef.resolution_maximallySpecific lion_orderly
  have hresult : lion.resolveMethod? "roar" ⟨[], .void⟩ = some (roar "zoo/Loud" {}) := by cbv
  refine ⟨lion_orderly, (hrule _ _ _).1 hresult, ?_⟩
  rw [(horder (fun _ => List.reverse) fun _ => List.reverse_perm).2, hresult]

end Example

end NativeBackend
