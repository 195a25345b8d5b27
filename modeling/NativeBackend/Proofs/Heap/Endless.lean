import Mathlib.Data.Fintype.EquivFin
import Mathlib.Logic.Relation
import NativeBackend.Proofs.Heap.Emitted
import NativeBackend.Proofs.Lists

namespace NativeBackend

theorem HeapValue.mem_targets {value : HeapValue} {id : ObjectId} : id ∈ value.targets ↔ value.RefersTo id := by
  unfold targets RefersTo
  split <;> simp_all [eq_comm]

theorem HeapObject.mem_targets {o : HeapObject} {id : ObjectId} : id ∈ o.targets ↔ o.RefersTo id := by
  cases o with
  | instanceOf cls values =>
      simp only [targets, RefersTo, List.mem_flatMap, HeapValue.mem_targets, HeapValue.RefersTo, Prod.exists]
      refine exists_congr fun name => ?_
      constructor
      · rintro ⟨_, hmem, rfl⟩
        exact hmem
      · exact fun hmem => ⟨_, hmem, rfl⟩
  | arrayOf a => cases a <;> simp [targets, RefersTo, HeapArray.values, HeapValue.RefersTo]

namespace Heap

open Relation

def RefersIn (store : Array HeapObject) (id target : ObjectId) : Prop :=
  ∃ o, store[id]? = some o ∧ o.RefersTo target

/-- From an object one comes to an object that leads back to itself. -/
def Circular (store : Array HeapObject) (id : ObjectId) : Prop :=
  ∃ c, ReflTransGen (RefersIn store) id c ∧ TransGen (RefersIn store) c c

section

variable {store : Array HeapObject} {id target : ObjectId}

theorem Circular.exists_refersIn (h : Circular store id) :
    ∃ target, RefersIn store id target ∧ Circular store target := by
  obtain ⟨c, hreach, hback⟩ := h
  rcases hreach.cases_head with rfl | ⟨target, hfirst, hrest⟩
  · obtain ⟨target, hfirst, hrest⟩ := TransGen.head'_iff.1 hback
    exact ⟨target, hfirst, id, hrest, hback⟩
  · exact ⟨target, hfirst, c, hrest, hback⟩

theorem acc_of_size_le (h : store.size ≤ id) : Acc (flip (RefersIn store)) id := by
  refine ⟨_, fun target ⟨o, ho, _⟩ => ?_⟩
  exact absurd (Array.getElem?_eq_some_iff.1 ho).1 (Nat.not_lt.2 h)

/-- A store is finite, so a chain of references that never ends comes to an object twice. -/
theorem acc_of_not_circular (h : ¬ Circular store id) : Acc (flip (RefersIn store)) id := by
  let later (x y : Fin store.size) : Prop := TransGen (RefersIn store) y x ∧ ReflTransGen (RefersIn store) id y
  have : IsTrans _ later := ⟨fun x y z hxy hyz => ⟨hyz.1.trans hxy.1, hyz.2⟩⟩
  have : Std.Irrefl later := ⟨fun x hx => h ⟨x, hx.2, hx.1⟩⟩
  have hwf : WellFounded later := Finite.wellFounded_of_trans_of_irrefl later
  have hreached : ∀ x : Fin store.size, ReflTransGen (RefersIn store) id x → Acc (flip (RefersIn store)) x := by
    intro x
    induction x using hwf.induction with
    | _ x ih =>
        refine fun hreach => ⟨_, fun y hy => ?_⟩
        rcases Nat.lt_or_ge y store.size with hroom | hroom
        · exact ih ⟨y, hroom⟩ ⟨.single hy, hreach⟩ (hreach.tail hy)
        · exact acc_of_size_le hroom
  rcases Nat.lt_or_ge id store.size with hroom | hroom
  · exact hreached ⟨id, hroom⟩ .refl
  · exact acc_of_size_le hroom

theorem not_circular_of_acc (h : Acc (flip (RefersIn store)) id) : ¬ Circular store id := by
  induction h with
  | intro id _ ih =>
      intro hcircular
      obtain ⟨target, hrefers, hcircular⟩ := hcircular.exists_refersIn
      exact ih target hrefers hcircular

theorem exists_objectText_iff :
    (∃ text, id.textIn store = some text) ↔
      ∀ target, RefersIn store id target → ∃ text, target.textIn store = some text := by
  rw [ObjectId.textIn]
  cases ho : store[id]? with
  | none => simp [RefersIn, ho]
  | some o =>
      have htexts := @Lists.exists_mapM_eq_some_iff _ _ (ObjectId.textIn store) o.targets
      simp only [HeapObject.mem_targets] at htexts
      simp only [RefersIn, ho, Option.some.injEq, exists_eq_left', ← htexts]
      cases o.targets.mapM (ObjectId.textIn store) <;> simp

theorem exists_objectText (h : Acc (flip (RefersIn store)) id) : ∃ text, id.textIn store = some text := by
  induction h with
  | intro id _ ih => exact exists_objectText_iff.2 ih

theorem acc_of_objectText {text : String} (h : id.textIn store = some text) : Acc (flip (RefersIn store)) id := by
  refine ObjectId.textIn.partial_correctness store (fun id _ => Acc (flip (RefersIn store)) id) ?_ id text h
  intro rec ih id text htext
  refine ⟨_, fun target ⟨o, ho, htarget⟩ => ?_⟩
  simp only [ho] at htext
  obtain ⟨texts, htexts, -⟩ := Option.bind_eq_some_iff.1 htext
  obtain ⟨t, ht⟩ := Lists.exists_mapM_eq_some_iff.1 ⟨texts, htexts⟩ target (HeapObject.mem_targets.2 htarget)
  exact ih target t ht

/-- The text of an object has no end exactly if it comes to an object that leads back to itself. -/
theorem objectText_eq_none_iff : id.textIn store = none ↔ Circular store id := by
  rw [← not_iff_not, ← Ne, Option.ne_none_iff_exists']
  constructor
  · rintro ⟨text, htext⟩
    exact not_circular_of_acc (acc_of_objectText htext)
  · exact fun h => exists_objectText (acc_of_not_circular h)

theorem textIn_eq_none_iff {value : HeapValue} :
    value.textIn store = none ↔ ∃ target, value.RefersTo target ∧ Circular store target := by
  have htexts := @Lists.exists_mapM_eq_some_iff _ _ (ObjectId.textIn store) value.targets
  simp only [HeapValue.mem_targets, ← Option.ne_none_iff_exists', Ne, objectText_eq_none_iff] at htexts
  rw [← not_iff_not]
  push Not
  rw [← htexts, HeapValue.textIn]
  cases value.targets.mapM (ObjectId.textIn store) <;> simp

end

end Heap

end NativeBackend
