import NativeBackend.Dispatch.Table

namespace NativeBackend

namespace Method

def selector (m : Method) : String × MethodDescriptor := (m.name, m.descriptor)

theorem sameSelector_iff {m n : Method} : m.sameSelector n = true ↔ m.selector = n.selector := by
  simp [sameSelector, hasSelector, selector]

end Method

theorem Reachability.liveMethod_congr (r : Reachability) {m n : Method} (h : m.selector = n.selector) :
    r.liveMethod m = r.liveMethod n := by
  obtain ⟨hname, hdescriptor⟩ := Prod.mk.inj h
  cases r with
  | everything => rfl
  | selectors live => simp only [liveMethod, hname, hdescriptor]

namespace ClassDef

theorem find?_overriding (methods : List Method) (n m : Method) :
    (overriding methods n).find? (·.sameSelector m) =
      if n.sameSelector m then some n else methods.find? (·.sameSelector m) := by
  induction methods with
  | nil => cases h : n.sameSelector m <;> simp [overriding, h]
  | cons k rest ih =>
      by_cases hk : k.sameSelector n = true
      · have hkm : k.sameSelector m = n.sameSelector m := by
          rw [Bool.eq_iff_iff, Method.sameSelector_iff, Method.sameSelector_iff,
            Method.sameSelector_iff.1 hk]
        cases h : n.sameSelector m <;> simp [overriding, hk, hkm, h]
      · cases hkm : k.sameSelector m with
        | true =>
            have hn : n.sameSelector m = false := by
              rw [Bool.eq_false_iff]
              intro h
              exact hk (Method.sameSelector_iff.2
                ((Method.sameSelector_iff.1 hkm).trans (Method.sameSelector_iff.1 h).symm))
            simp [overriding, hk, hkm, hn]
        | false => simp [overriding, hk, hkm, ih]

theorem findIdx?_overriding {methods : List Method} {m : Method} {i : Nat} (n : Method)
    (h : methods.findIdx? (·.sameSelector m) = some i) :
    (overriding methods n).findIdx? (·.sameSelector m) = some i := by
  induction methods generalizing i with
  | nil => simp at h
  | cons k rest ih =>
      by_cases hk : k.sameSelector n = true
      · have hkm : k.sameSelector m = n.sameSelector m := by
          rw [Bool.eq_iff_iff, Method.sameSelector_iff, Method.sameSelector_iff,
            Method.sameSelector_iff.1 hk]
        simpa [overriding, hk, List.findIdx?_cons, hkm] using h
      · rw [List.findIdx?_cons] at h
        cases hkm : k.sameSelector m with
        | true => simpa [overriding, hk, List.findIdx?_cons, hkm] using h
        | false =>
            simp only [hkm, Bool.false_eq_true, if_false, Option.map_eq_some_iff] at h
            obtain ⟨j, hj, rfl⟩ := h
            simp [overriding, hk, List.findIdx?_cons, hkm, ih hj]

theorem findIdx?_foldl_overriding {methods : List Method} {m : Method} {i : Nat} (more : List Method)
    (h : methods.findIdx? (·.sameSelector m) = some i) :
    (more.foldl overriding methods).findIdx? (·.sameSelector m) = some i := by
  induction more generalizing methods with
  | nil => exact h
  | cons n more ih => exact ih (findIdx?_overriding n h)

theorem find?_foldl_overriding (methods more : List Method) (m : Method) :
    (more.foldl overriding methods).find? (·.sameSelector m) =
      (more.findRev? (·.sameSelector m)).or (methods.find? (·.sameSelector m)) := by
  induction more generalizing methods with
  | nil => rfl
  | cons n more ih =>
      rw [List.foldl_cons, ih, find?_overriding, List.findRev?]
      cases more.findRev? (·.sameSelector m) with
      | some k => rfl
      | none => cases n.sameSelector m <;> rfl

section Filter

variable {p : Method → Bool} (hp : ∀ m n : Method, m.selector = n.selector → p m = p n)

include hp

theorem filter_overriding (methods : List Method) (n : Method) :
    (overriding methods n).filter p =
      if p n then overriding (methods.filter p) n else methods.filter p := by
  induction methods with
  | nil => cases h : p n <;> simp [overriding, h]
  | cons k rest ih =>
      by_cases hk : k.sameSelector n = true
      · have hpk := hp k n (Method.sameSelector_iff.1 hk)
        cases h : p n <;> simp [overriding, hk, h, hpk]
      · cases hpk : p k <;> cases h : p n <;> simp [overriding, hk, hpk, ih, h]

theorem filter_foldl_overriding (methods more : List Method) :
    (more.foldl overriding methods).filter p = (more.filter p).foldl overriding (methods.filter p) := by
  induction more generalizing methods with
  | nil => rfl
  | cons n more ih =>
      rw [List.foldl_cons, ih, filter_overriding hp]
      cases h : p n <;> simp [h]

end Filter

theorem lineage_suffix {a : ClassDef} {c : ClassDef} (h : a ∈ c.lineage) :
    ∃ nearer, c.lineage = nearer ++ a.lineage := by
  induction hn : c.lineage.length using Nat.strongRecOn generalizing c with
  | ind n ih =>
      rw [lineage_eq] at h hn
      rcases List.mem_cons.1 h with rfl | h
      · exact ⟨[], rfl⟩
      · cases hparent : c.parent with
        | none => simp [ancestors, hparent, lineageOf] at h
        | some parent =>
            have hancestors : c.ancestors = parent.lineage := by simp [ancestors, hparent, lineageOf]
            rw [hancestors] at h hn
            obtain ⟨nearer, hnearer⟩ := ih _ (by simp at hn; omega) h rfl
            exact ⟨c :: nearer, by rw [lineage_eq, hancestors, hnearer, List.cons_append]⟩

theorem instanceMethods_of_mem_lineage {a c : ClassDef} (h : a ∈ c.lineage) :
    ∃ later : List Method, c.instanceMethods = later.foldl overriding a.instanceMethods := by
  obtain ⟨nearer, hnearer⟩ := lineage_suffix h
  refine ⟨nearer.reverse.flatMap virtualMethods, ?_⟩
  simp only [instanceMethods, hnearer, List.reverse_append, List.flatMap_append, List.foldl_append]

/-- The virtual declaration of a method's selector that is nearest on the superclass chain; among
those of one class the last. -/
def mostDerived? (c : ClassDef) (m : Method) : Option Method :=
  c.lineage.findSome? fun k => k.virtualMethods.findRev? (·.sameSelector m)

theorem findRev?_flatMap_reverse (classes : List ClassDef) (m : Method) :
    (classes.reverse.flatMap virtualMethods).findRev? (·.sameSelector m) =
      classes.findSome? fun k => k.virtualMethods.findRev? (·.sameSelector m) := by
  induction classes with
  | nil => rfl
  | cons c classes ih =>
      simp only [List.findRev?_eq_find?_reverse] at ih ⊢
      rw [List.reverse_cons, List.flatMap_append, List.reverse_append, List.find?_append, ih,
        List.findSome?_cons]
      simp only [List.flatMap_cons, List.flatMap_nil, List.append_nil]
      cases List.find? (fun x => x.sameSelector m) c.virtualMethods.reverse <;> rfl

theorem find?_instanceMethods (c : ClassDef) (m : Method) :
    c.instanceMethods.find? (·.sameSelector m) = c.mostDerived? m := by
  rw [instanceMethods, find?_foldl_overriding, findRev?_flatMap_reverse]
  simp [mostDerived?]

end ClassDef

namespace DispatchTable

theorem slots_ofClass_of_mem_lineage (live : Reachability) {a c : ClassDef} (h : a ∈ c.lineage) :
    ∃ later : List Method, (ofClass live c).slots = later.foldl ClassDef.overriding (ofClass live a).slots := by
  obtain ⟨later, hlater⟩ := ClassDef.instanceMethods_of_mem_lineage h
  refine ⟨later.filter live.liveMethod, ?_⟩
  simp only [ofClass, hlater]
  exact ClassDef.filter_foldl_overriding (fun m n => live.liveMethod_congr) _ _

theorem index?_ofClass (live : Reachability) {c : ClassDef} {m : Method} (hm : m ∈ c.instanceMethods)
    (hlive : live.liveMethod m = true) : ∃ i, (ofClass live c).index? m = some i := by
  have h : (ofClass live c).slots.findIdx? (·.sameSelector m) ≠ none := by
    rw [Ne, List.findIdx?_eq_none_iff]
    intro hnone
    have := hnone m (List.mem_filter.2 ⟨hm, hlive⟩)
    simp [Method.sameSelector_iff.2 rfl] at this
  exact Option.ne_none_iff_exists'.1 h

/-- Slot numbers are the same all along the superclass chain. -/
theorem index?_ofClass_of_mem_lineage (live : Reachability) {a c : ClassDef} (h : a ∈ c.lineage)
    {m : Method} {i : Nat} (hi : (ofClass live a).index? m = some i) :
    (ofClass live c).index? m = some i := by
  obtain ⟨later, hlater⟩ := slots_ofClass_of_mem_lineage live h
  rw [index?, hlater]
  exact ClassDef.findIdx?_foldl_overriding later hi

/-- The slot of a live selector holds its most derived declaration. -/
theorem getElem?_slots_ofClass (live : Reachability) (c : ClassDef) {m : Method} {i : Nat}
    (hlive : live.liveMethod m = true) (hi : (ofClass live c).index? m = some i) :
    (ofClass live c).slots[i]? = c.mostDerived? m := by
  have hfind : (ofClass live c).slots.find? (·.sameSelector m) = (ofClass live c).slots[i]? := by
    rw [index?] at hi
    rw [List.find?_eq_bind_findIdx?_getElem?, hi, Option.bind_some]
  rw [← hfind, ← ClassDef.find?_instanceMethods, ofClass, List.find?_filter]
  congr 1
  funext k
  cases hk : k.sameSelector m with
  | false => simp
  | true => simp [live.liveMethod_congr (Method.sameSelector_iff.1 hk), hlive]

end DispatchTable

end NativeBackend
