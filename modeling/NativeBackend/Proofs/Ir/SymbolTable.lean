import NativeBackend.Proofs.Lists
import NativeBackend.Proofs.Maps

namespace NativeBackend

structure SymbolTable (δ σ : Type) where
  defined : Std.TreeMap String δ
  declared : Std.TreeMap String σ

namespace SymbolTable

variable {δ σ : Type}

inductive Act (δ σ : Type) where
  | declare (name : String) (declaration : σ)
  | define (name : String) (definition : δ)

namespace Act

def name : Act δ σ → String
  | declare name _ | define name _ => name

def definition? (name : String) : Act δ σ → Option δ
  | define other d => if other = name then some d else none
  | declare .. => none

def declaration? (name : String) : Act δ σ → Option σ
  | declare other s => if other = name then some s else none
  | define .. => none

theorem definition?_eq_some {a : Act δ σ} {name : String} {d : δ} :
    a.definition? name = some d ↔ a = define name d := by
  cases a with
  | declare => simp [definition?]
  | define other d' => simp [definition?]

theorem declaration?_eq_some {a : Act δ σ} {name : String} {s : σ} :
    a.declaration? name = some s ↔ a = declare name s := by
  cases a with
  | declare other s' => simp [declaration?]
  | define => simp [declaration?]

end Act

/-- A table after an act: what has a definition keeps it, and a declaration goes away once there is one. -/
def after (t : SymbolTable δ σ) : Act δ σ → SymbolTable δ σ
  | .declare name s => if t.defined.contains name then t else { t with declared := t.declared.insertIfNew name s }
  | .define name d => if t.defined.contains name then t else ⟨t.defined.insert name d, t.declared.erase name⟩

def afterAll (t : SymbolTable δ σ) (acts : List (Act δ σ)) : SymbolTable δ σ := acts.foldl after t

section After

variable {t : SymbolTable δ σ}

theorem getElem?_defined_after (a : Act δ σ) (name : String) :
    (t.after a).defined[name]? = t.defined[name]?.or (a.definition? name) := by
  cases a with
  | declare other s =>
      rw [after]
      split <;> simp [Act.definition?]
  | define other d =>
      rw [after, Act.definition?]
      by_cases hname : other = name
      · subst hname
        split
        · rename_i hmem
          obtain ⟨d', hd'⟩ := Option.isSome_iff_exists.1 (Std.TreeMap.mem_iff_isSome_getElem?.1 hmem)
          rw [hd', Option.some_or]
        · rename_i hmem
          rw [Std.TreeMap.getElem?_insert_self, Std.TreeMap.getElem?_eq_none hmem, if_pos rfl, Option.none_or]
      · rw [if_neg hname, Option.or_none]
        split
        · rfl
        · rw [Maps.getElem?_insert_of_ne hname]

theorem mem_defined_after (a : Act δ σ) {name : String} (h : name ∈ t.defined) : name ∈ (t.after a).defined := by
  rw [Std.TreeMap.mem_iff_isSome_getElem?, getElem?_defined_after, Option.isSome_or,
    Std.TreeMap.mem_iff_isSome_getElem?.1 h, Bool.true_or]

theorem getElem?_declared_after (a : Act δ σ) {name : String}
    (h : name ∈ t.defined → t.declared[name]? = none) :
    (t.after a).declared[name]? =
      if name ∈ (t.after a).defined then none else t.declared[name]?.or (a.declaration? name) := by
  cases a with
  | declare other s =>
      rw [after, Act.declaration?]
      by_cases hname : other = name
      · subst hname
        split
        · rename_i hmem
          rw [if_pos (show other ∈ t.defined from hmem), h hmem]
        · rename_i hmem
          dsimp only
          rw [if_neg (show other ∉ t.defined from hmem), if_pos rfl, Std.TreeMap.getElem?_insertIfNew]
          by_cases hold : other ∈ t.declared
          · obtain ⟨s', hs'⟩ := Option.isSome_iff_exists.1 (Std.TreeMap.mem_iff_isSome_getElem?.1 hold)
            rw [if_neg fun hnot => hnot.2 hold, hs', Option.some_or]
          · rw [if_pos ⟨Std.compare_eq_iff_eq.2 rfl, hold⟩, Std.TreeMap.getElem?_eq_none hold, Option.none_or]
      · have hkept : ∀ t' : SymbolTable δ σ, t'.defined = t.defined → t'.declared[name]? = t.declared[name]? →
            t'.declared[name]? = if name ∈ t'.defined then none else t.declared[name]?.or none := by
          intro t' hdefined hdeclared
          rw [hdefined, hdeclared, Option.or_none]
          split
          · exact h ‹_›
          · rfl
        rw [if_neg hname]
        split
        · exact hkept t rfl rfl
        · refine hkept _ rfl ?_
          rw [Std.TreeMap.getElem?_insertIfNew, if_neg fun heq => hname (Std.compare_eq_iff_eq.1 heq.1)]
  | define other d =>
      rw [after, Act.declaration?, Option.or_none]
      split
      · split
        · exact h ‹_›
        · rfl
      · simp only [Std.TreeMap.getElem?_erase, Std.TreeMap.mem_insert, Std.compare_eq_iff_eq]
        by_cases hname : other = name
        · rw [if_pos hname, if_pos (.inl hname)]
        · by_cases hmem : name ∈ t.defined
          · rw [if_neg hname, if_pos (.inr hmem), h hmem]
          · rw [if_neg hname, if_neg fun hor => hor.elim hname hmem]

end After

/-- The first definition of a symbol counts, and without one the first declaration. -/
structure Reflects (acts : List (Act δ σ)) (t : SymbolTable δ σ) : Prop where
  defined : ∀ name : String, t.defined[name]? = acts.findSome? (Act.definition? name)
  declared : ∀ name : String, t.declared[name]? =
    if name ∈ t.defined then none else acts.findSome? (Act.declaration? name)

namespace Reflects

variable {acts : List (Act δ σ)} {t : SymbolTable δ σ}

theorem empty : Reflects ([] : List (Act δ σ)) ⟨∅, ∅⟩ := ⟨by simp, by simp⟩

theorem mem_defined (h : Reflects acts t) {name : String} : name ∈ t.defined ↔ ∃ d, .define name d ∈ acts := by
  rw [Std.TreeMap.mem_iff_isSome_getElem?, h.defined, List.findSome?_isSome_iff]
  constructor
  · rintro ⟨a, ha, hsome⟩
    obtain ⟨d, hd⟩ := Option.isSome_iff_exists.1 hsome
    exact ⟨d, Act.definition?_eq_some.1 hd ▸ ha⟩
  · rintro ⟨d, hd⟩
    exact ⟨_, hd, by simp [Act.definition?]⟩

theorem mem_declared (h : Reflects acts t) {name : String} :
    name ∈ t.declared ↔ (∃ s, .declare name s ∈ acts) ∧ name ∉ t.defined := by
  rw [Std.TreeMap.mem_iff_isSome_getElem?, h.declared]
  split
  · simp [*]
  · rw [List.findSome?_isSome_iff]
    constructor
    · rintro ⟨a, ha, hsome⟩
      obtain ⟨s, hs⟩ := Option.isSome_iff_exists.1 hsome
      exact ⟨⟨s, Act.declaration?_eq_some.1 hs ▸ ha⟩, by assumption⟩
    · rintro ⟨⟨s, hs⟩, -⟩
      exact ⟨_, hs, by simp [Act.declaration?]⟩

theorem getElem?_defined (h : Reflects acts t) {name : String} {d : δ} (hmem : .define name d ∈ acts)
    (hagree : ∀ d', .define name d' ∈ acts → d' = d) : t.defined[name]? = some d := by
  obtain ⟨d', hd'⟩ := Option.isSome_iff_exists.1
    (Std.TreeMap.mem_iff_isSome_getElem?.1 (h.mem_defined.2 ⟨d, hmem⟩))
  obtain ⟨a, ha, hdefinition⟩ := List.exists_of_findSome?_eq_some ((h.defined name).symm.trans hd')
  rw [hd', hagree d' (Act.definition?_eq_some.1 hdefinition ▸ ha)]

theorem getElem?_declared (h : Reflects acts t) {name : String} {s : σ} (hmem : .declare name s ∈ acts)
    (hagree : ∀ s', .declare name s' ∈ acts → s' = s) : name ∈ t.defined ∨ t.declared[name]? = some s := by
  refine or_iff_not_imp_left.2 fun hnot => ?_
  obtain ⟨s', hs'⟩ := Option.isSome_iff_exists.1
    (Std.TreeMap.mem_iff_isSome_getElem?.1 (h.mem_declared.2 ⟨⟨s, hmem⟩, hnot⟩))
  have hfirst := (h.declared name).symm.trans hs'
  rw [if_neg hnot] at hfirst
  obtain ⟨a, ha, hdeclaration⟩ := List.exists_of_findSome?_eq_some hfirst
  rw [hs', hagree s' (Act.declaration?_eq_some.1 hdeclaration ▸ ha)]

theorem after (h : Reflects acts t) (a : Act δ σ) : Reflects (acts ++ [a]) (t.after a) where
  defined name := by
    rw [getElem?_defined_after, List.findSome?_append, h.defined]
    simp
  declared name := by
    rw [getElem?_declared_after a (fun hmem => by rw [h.declared, if_pos hmem])]
    split
    · rfl
    · rename_i hnot
      have hold : name ∉ t.defined := fun hmem => hnot (mem_defined_after a hmem)
      rw [h.declared, if_neg hold, List.findSome?_append]
      simp

theorem afterAll (h : Reflects acts t) (more : List (Act δ σ)) : Reflects (acts ++ more) (t.afterAll more) := by
  induction more generalizing acts t with
  | nil =>
      rw [List.append_nil]
      exact h
  | cons a more ih =>
      rw [List.append_cons]
      exact ih (h.after a)

/-- A symbol has a place in the table exactly if some act was about it, and never two. -/
theorem count_introduced (h : Reflects acts t) (name : String) :
    (t.declared.keys ++ t.defined.keys).count name = if name ∈ acts.map Act.name then 1 else 0 := by
  have hmem : name ∈ acts.map Act.name ↔ name ∈ t.declared ∨ name ∈ t.defined := by
    rw [h.mem_declared, h.mem_defined, List.mem_map]
    constructor
    · rintro ⟨a, ha, rfl⟩
      cases a with
      | define name d => exact .inr ⟨d, ha⟩
      | declare name s =>
          by_cases hd : ∃ d, Act.define name d ∈ acts
          · exact .inr hd
          · exact .inl ⟨⟨s, ha⟩, hd⟩
    · rintro (⟨⟨s, hs⟩, -⟩ | ⟨d, hd⟩)
      · exact ⟨_, hs, rfl⟩
      · exact ⟨_, hd, rfl⟩
  have hdisjoint : t.declared.keys.Disjoint t.defined.keys := fun n hn hn' =>
    (h.mem_declared.1 (Std.TreeMap.mem_keys.1 hn)).2 (Std.TreeMap.mem_keys.1 hn')
  have hnodup := List.Nodup.append Std.TreeMap.nodup_keys Std.TreeMap.nodup_keys hdisjoint
  simp only [hnodup.count, List.mem_append, Std.TreeMap.mem_keys, hmem]

end Reflects

structure Same (t t' : SymbolTable δ σ) : Prop where
  defined : t.defined.Equiv t'.defined
  declared : t.declared.Equiv t'.declared

/-- Where all definitions of a symbol agree, and all declarations, the order of acts does not matter. -/
theorem Reflects.same {acts acts' : List (Act δ σ)} {t t' : SymbolTable δ σ} (h : Reflects acts t)
    (h' : Reflects acts' t') (hperm : acts.Perm acts')
    (hdefine : ∀ name d d', .define name d ∈ acts → .define name d' ∈ acts → d = d')
    (hdeclare : ∀ name s s', .declare name s ∈ acts → .declare name s' ∈ acts → s = s') : Same t t' := by
  have hdefined : ∀ name : String, t.defined[name]? = t'.defined[name]? := by
    intro name
    rw [h.defined, h'.defined]
    refine Lists.findSome?_perm hperm fun a ha b hb d d' hd hd' => hdefine name d d' ?_ ?_
    · exact Act.definition?_eq_some.1 hd ▸ ha
    · exact Act.definition?_eq_some.1 hd' ▸ hb
  refine ⟨.of_forall_constGet?_eq hdefined, .of_forall_constGet?_eq fun name => ?_⟩
  have hmem : name ∈ t.defined ↔ name ∈ t'.defined := by
    rw [Std.TreeMap.mem_iff_isSome_getElem?, hdefined, ← Std.TreeMap.mem_iff_isSome_getElem?]
  rw [h.declared, h'.declared]
  refine if_congr hmem rfl (Lists.findSome?_perm hperm fun a ha b hb s s' hs hs' => hdeclare name s s' ?_ ?_)
  · exact Act.declaration?_eq_some.1 hs ▸ ha
  · exact Act.declaration?_eq_some.1 hs' ▸ hb

end SymbolTable

end NativeBackend
