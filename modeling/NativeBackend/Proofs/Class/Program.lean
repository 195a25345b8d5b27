import Mathlib.Data.List.Nodup
import NativeBackend.Class.Program

namespace NativeBackend

theorem ClassDef.isInterface_of_isConcrete {c : ClassDef} (h : c.isConcrete = true) : c.isInterface = false := by
  cases hkind : c.kind <;> simp_all [isConcrete, isInterface]

namespace Program

inductive Accepted : Program → Prop
  | empty : Accepted {}
  | add {p p' : Program} {c : ClassDef} (hp : Accepted p) (h : p.add c = .ok p') : Accepted p'

theorem insertByTypeId_perm (c : ClassDef) (classes : List ClassDef) :
    (insertByTypeId c classes).Perm (c :: classes) := by
  induction classes with
  | nil => exact .refl _
  | cons d rest ih =>
      rw [insertByTypeId]
      split
      · exact .refl _
      · exact (ih.cons d).trans (.swap c d rest)

theorem add_eq_ok {p p' : Program} {c : ClassDef} (h : p.add c = .ok p') :
    firstClassTypeId ≤ c.typeId ∧ (∀ d ∈ p.classes, d.typeId ≠ c.typeId ∧ d.name ≠ c.name) ∧
      p'.classes.Perm (c :: p.classes) := by
  rw [add] at h
  split at h
  case isTrue => cases h
  case isFalse hreserved =>
    split at h
    case h_1 => cases h
    case h_2 hid =>
      split at h
      case isTrue => cases h
      case isFalse hname =>
        cases h
        refine ⟨Nat.le_of_not_lt hreserved, fun d hd => ⟨?_, ?_⟩, insertByTypeId_perm c p.classes⟩
        · simpa using List.find?_eq_none.1 hid d hd
        · exact fun heq => hname (List.any_eq_true.2 ⟨d, hd, beq_iff_eq.2 heq⟩)

theorem Accepted.nodup_map {α : Type} {f : ClassDef → α} {p : Program} (hp : p.Accepted)
    (hnew : ∀ {p p' : Program} {c : ClassDef}, p.add c = .ok p' → ∀ d ∈ p.classes, f d ≠ f c) :
    (p.classes.map f).Nodup := by
  induction hp with
  | empty => exact .nil
  | @add p p' c _ h ih =>
      rw [((add_eq_ok h).2.2.map f).nodup_iff, List.map_cons, List.nodup_cons]
      refine ⟨fun hmem => ?_, ih⟩
      obtain ⟨d, hd, heq⟩ := List.mem_map.1 hmem
      exact hnew h d hd heq

theorem Accepted.nodup_typeId {p : Program} (hp : p.Accepted) : (p.classes.map (·.typeId)).Nodup :=
  hp.nodup_map fun h d hd => ((add_eq_ok h).2.1 d hd).1

theorem Accepted.eq_of_typeId {p : Program} (hp : p.Accepted) {c d : ClassDef} (hc : c ∈ p.classes)
    (hd : d ∈ p.classes) (h : c.typeId = d.typeId) : c = d :=
  List.inj_on_of_nodup_map hp.nodup_typeId hc hd h

theorem le_foldl_max (classes : List ClassDef) (start : Nat) :
    start ≤ classes.foldl (fun id c => max id c.typeId) start ∧
      ∀ c ∈ classes, c.typeId ≤ classes.foldl (fun id c => max id c.typeId) start := by
  induction classes generalizing start with
  | nil => simp
  | cons d rest ih =>
      obtain ⟨hstart, hrest⟩ := ih (max start d.typeId)
      simp only [List.foldl_cons, List.mem_cons, forall_eq_or_imp]
      exact ⟨by omega, by omega, hrest⟩

theorem typeId_le_max {p : Program} {c : ClassDef} (hc : c ∈ p.classes) : c.typeId ≤ p.maxTypeId :=
  (le_foldl_max p.classes _).2 c hc

end Program

end NativeBackend
