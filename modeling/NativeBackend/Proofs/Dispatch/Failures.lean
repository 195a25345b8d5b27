import NativeBackend.Proofs.Dispatch.TypeIdWidth

namespace NativeBackend

namespace Emission

open Steps

variable {e e' e₁ : Emission} {c : ClassDef} {err : Error}

theorem Grows.marked {p : Program} {symbols : List String} (h : Grows p symbols e e') (symbol : String) :
    Grows p symbols (e.marked symbol) (e'.marked symbol) :=
  { h with emitted := congrArg (symbol :: ·) h.emitted }

theorem HoldsDictionary.symbols_mem (h : HoldsDictionary c e) :
    ∃ d, e.module.data[c.dictionarySymbol]? = some d ∧ ∀ name ∈ d.value.symbols, name ∈ e.module.data := by
  obtain ⟨hown, idType, -, hdata⟩ := h
  refine ⟨_, hdata, fun name hname => ?_⟩
  obtain ⟨i, hi, rfl⟩ := dictionary_symbols hname
  obtain ⟨hi, hslots⟩ := List.mem_filter.1 hi
  obtain ⟨t, ht, htable⟩ := hown i hi
  refine Std.TreeMap.mem_iff_isSome_getElem?.2 ?_
  rw [htable (by simpa [hasSlots, ht] using hslots)]
  rfl

theorem emitItables_done (hk : c.isConcrete = true) (h : emitItables c e = .ok ⟨⟩ e') :
    Grows {} [] e e' ∨ (c.dictionarySymbol ∉ e.tables.emitted ∧
      Grows {} c.dispatchSymbols (e.marked c.dictionarySymbol) e' ∧ HoldsDictionary c e') := by
  rcases emitItables_cases hk e with ⟨_, _, -, hrun⟩ | ⟨e₁, hhas, hrun⟩ | ⟨e₁, hhas, ⟨-, hrun⟩ | ⟨hmark, hrun⟩⟩
  · cases hrun.symm.trans h
  · cases hrun.symm.trans h
    exact .inl (anyItable_grows [] hhas).1
  · cases hrun.symm.trans h
    exact .inl (anyItable_grows [] hhas).1
  · obtain ⟨hbuild, -⟩ := anyItable_grows (p := {}) c.dispatchSymbols hhas
    obtain ⟨hdefined, hholds⟩ := defineItables_grows (p := {}) (hrun.symm.trans h)
    exact .inr ⟨hbuild.emitted ▸ hmark, (hbuild.marked _).trans hdefined, hholds⟩

theorem emitItables_stops (hk : c.isConcrete = true) (h : emitItables c e = .error err e') :
    Unwritable c e.tables.typeIdSize e'.module err ∧ (Grows {} [] e e' ∨ (c.dictionarySymbol ∉ e.tables.emitted ∧
      Grows {} (c.allInterfaces.map c.itableSymbol) (e.marked c.dictionarySymbol) e')) := by
  rcases emitItables_cases hk e with ⟨_, _, hhas, hrun⟩ | ⟨e₁, -, hrun⟩ | ⟨e₁, hhas, ⟨-, hrun⟩ | ⟨hmark, hrun⟩⟩
  · cases hrun.symm.trans h
    exact ⟨.inl (anyItable_error hhas), .inl (anyItable_error_grows [] hhas)⟩
  · cases hrun.symm.trans h
  · cases hrun.symm.trans h
  · obtain ⟨hbuild, -⟩ := anyItable_grows (p := {}) (c.allInterfaces.map c.itableSymbol) hhas
    obtain ⟨hdefined, hreason⟩ := defineItables_stops (p := {}) (hrun.symm.trans h)
    rw [marked_size, hbuild.size] at hreason
    exact ⟨hreason, .inr ⟨hbuild.emitted ▸ hmark, (hbuild.marked _).trans hdefined⟩⟩

def newMarks (e e' : Emission) : List String := e'.tables.emitted.filter fun name => !e.tables.emitted.contains name

theorem newMarks_of_eq (h : e'.tables.emitted = e.tables.emitted) : newMarks e e' = [] := by
  simp [newMarks, h]

theorem newMarks_of_cons {symbol : String} (hnew : symbol ∉ e.tables.emitted)
    (h : e'.tables.emitted = symbol :: e.tables.emitted) : newMarks e e' = [symbol] := by
  simp [newMarks, h, hnew]

/-- Calls for the itables of classes in any order, calls that fail among them. The classes are listed, and the symbols
that were marked by a call that failed, the latest first. -/
inductive History (start : Emission) : List ClassDef → List String → Emission → Prop
  | start : History start [] [] start
  | done {calls : List ClassDef} {lost : List String} {e e' : Emission} {c : ClassDef} :
      History start calls lost e → emitItables c e = .ok ⟨⟩ e' → History start (c :: calls) lost e'
  | failed {calls : List ClassDef} {lost : List String} {e e' : Emission} {c : ClassDef} {err : Error} :
      History start calls lost e → emitItables c e = .error err e' →
      History start (c :: calls) (newMarks e e' ++ lost) e'

/-- A symbol that is marked and not lost has its dictionary. Whatever stands under another symbol was there at first or
is an itable. -/
structure Accounted (start : Emission) (calls : List ClassDef) (lost : List String) (e : Emission) : Prop where
  size : e.tables.typeIdSize = start.tables.typeIdSize
  held : ∀ name ∈ e.tables.emitted, name ∉ lost →
    ∃ d ∈ calls, d.isConcrete = true ∧ d.dictionarySymbol = name ∧ HoldsDictionary d e
  marked : ∀ name ∈ lost, name ∈ e.tables.emitted
  origin : ∀ name ∈ e.module.data, name ∈ lost ∨ name ∉ e.tables.emitted →
    name ∈ start.module.data ∨ ∃ d ∈ calls, ∃ i ∈ d.allInterfaces, name = d.itableSymbol i

namespace Accounted

variable {start : Emission} {calls : List ClassDef} {lost : List String}

theorem refl (h : start.tables.emitted = []) : Accounted start [] [] start where
  size := rfl
  held name hname := by simp [h] at hname
  marked name hname := absurd hname List.not_mem_nil
  origin _ hname _ := .inl hname

theorem cons (h : Accounted start calls lost e) (c : ClassDef) : Accounted start (c :: calls) lost e where
  size := h.size
  held name hname hkept := by
    obtain ⟨d, hd, hheld⟩ := h.held name hname hkept
    exact ⟨d, List.mem_cons_of_mem _ hd, hheld⟩
  marked := h.marked
  origin name hname hfree := by
    refine (h.origin name hname hfree).imp_right ?_
    rintro ⟨d, hd, hitable⟩
    exact ⟨d, List.mem_cons_of_mem _ hd, hitable⟩

theorem grows (h : Accounted start calls lost e) (hg : Grows {} [] e e') : Accounted start calls lost e' where
  size := hg.size.trans h.size
  held name hname hkept := by
    obtain ⟨d, hd, hk, hsymbol, hholds⟩ := h.held name (hg.emitted ▸ hname) hkept
    exact ⟨d, hd, hk, hsymbol, hholds.keeps hg.toKeeps⟩
  marked name hname := hg.emitted ▸ h.marked name hname
  origin name hname hfree :=
    h.origin name ((hg.added name hname).resolve_right List.not_mem_nil) (hg.emitted ▸ hfree)

theorem held_of_marked (h : Accounted start calls lost e) {symbols : List String}
    (hg : Grows {} symbols (e.marked c.dictionarySymbol) e') {name : String} (hname : name ∈ e.tables.emitted)
    (hkept : name ∉ lost) :
    ∃ d ∈ c :: calls, d.isConcrete = true ∧ d.dictionarySymbol = name ∧ HoldsDictionary d e' := by
  obtain ⟨d, hd, hk, hsymbol, hholds⟩ := h.held name hname hkept
  have hmarked : HoldsDictionary d (e.marked c.dictionarySymbol) := hholds
  exact ⟨d, List.mem_cons_of_mem _ hd, hk, hsymbol, hmarked.keeps hg.toKeeps⟩

theorem finished (h : Accounted start calls lost e) (hk : c.isConcrete = true)
    (hnew : c.dictionarySymbol ∉ e.tables.emitted)
    (hg : Grows {} c.dispatchSymbols (e.marked c.dictionarySymbol) e') (hholds : HoldsDictionary c e') :
    Accounted start (c :: calls) lost e' := by
  have hemitted : e'.tables.emitted = c.dictionarySymbol :: e.tables.emitted := hg.emitted
  refine ⟨hg.size.trans h.size, fun name hname hkept => ?_, fun name hname => ?_, fun name hname hfree => ?_⟩
  · rcases List.mem_cons.1 (hemitted ▸ hname) with rfl | hname
    · exact ⟨c, List.mem_cons_self, hk, rfl, hholds⟩
    · exact h.held_of_marked hg hname hkept
  · exact hemitted ▸ List.mem_cons_of_mem _ (h.marked name hname)
  · rw [hemitted, List.mem_cons, not_or] at hfree
    rcases hg.added name hname with hold | hown
    · exact (h.cons c).origin name hold (hfree.imp_right (·.2))
    · rcases List.mem_cons.1 hown with rfl | hitable
      · exact (hfree.elim (fun hlost => hnew (h.marked _ hlost)) fun hother => hother.1 rfl).elim
      · obtain ⟨i, hi, rfl⟩ := List.mem_map.1 hitable
        exact .inr ⟨c, List.mem_cons_self, i, hi, rfl⟩

theorem stopped (h : Accounted start calls lost e)
    (hg : Grows {} (c.allInterfaces.map c.itableSymbol) (e.marked c.dictionarySymbol) e')
    (hnew : c.dictionarySymbol ∉ e.tables.emitted) :
    Accounted start (c :: calls) (c.dictionarySymbol :: lost) e' := by
  have hemitted : e'.tables.emitted = c.dictionarySymbol :: e.tables.emitted := hg.emitted
  refine ⟨hg.size.trans h.size, fun name hname hkept => ?_, fun name hname => ?_, fun name hname hfree => ?_⟩
  · obtain ⟨hother, hkept⟩ := not_or.1 (List.mem_cons.not.1 hkept)
    exact h.held_of_marked hg ((List.mem_cons.1 (hemitted ▸ hname)).resolve_left hother) hkept
  · rw [hemitted]
    exact List.mem_cons.2 ((List.mem_cons.1 hname).imp_right (h.marked name))
  · rcases hg.added name hname with hold | hitable
    · refine (h.cons c).origin name hold ?_
      rw [hemitted, List.mem_cons, List.mem_cons, not_or] at hfree
      rcases hfree with (rfl | hlost) | ⟨-, hfree⟩
      · exact .inr hnew
      · exact .inl hlost
      · exact .inr hfree
    · obtain ⟨i, hi, rfl⟩ := List.mem_map.1 hitable
      exact .inr ⟨c, List.mem_cons_self, i, hi, rfl⟩

theorem emitItables (h : Accounted start calls lost e) (hrun : Emission.emitItables c e = .ok ⟨⟩ e') :
    Accounted start (c :: calls) lost e' := by
  cases hk : c.isConcrete with
  | false =>
      cases (meet_of_not_concrete (r := .itables c) hk e).symm.trans hrun
      exact h.cons c
  | true =>
      rcases emitItables_done hk hrun with hg | ⟨hnew, hg, hholds⟩
      · exact (h.grows hg).cons c
      · exact h.finished hk hnew hg hholds

theorem emitItables_error (h : Accounted start calls lost e) (hrun : Emission.emitItables c e = .error err e') :
    Accounted start (c :: calls) (newMarks e e' ++ lost) e' := by
  cases hk : c.isConcrete with
  | false => cases (meet_of_not_concrete (r := .itables c) hk e).symm.trans hrun
  | true =>
      rcases (emitItables_stops hk hrun).2 with hg | ⟨hnew, hg⟩
      · rw [newMarks_of_eq hg.emitted]
        exact (h.grows hg).cons c
      · rw [newMarks_of_cons hnew hg.emitted]
        exact h.stopped hg hnew

end Accounted

theorem History.accounted {start : Emission} {calls : List ClassDef} {lost : List String}
    (hstart : start.tables.emitted = []) (hr : History start calls lost e) : Accounted start calls lost e := by
  induction hr with
  | start => exact .refl hstart
  | done _ hrun ih => exact ih.emitItables hrun
  | failed _ hrun ih => exact ih.emitItables_error hrun

theorem mem_emitted_of_hasItables (hk : c.isConcrete = true) (hhas : hasItables c e = .ok true e₁)
    (h : emitItables c e = .ok ⟨⟩ e') : c.dictionarySymbol ∈ e'.tables.emitted := by
  rcases emitItables_cases hk e with ⟨_, _, hhas', -⟩ | ⟨_, hhas', -⟩ | ⟨e₂, -, ⟨hmark, hrun⟩ | ⟨-, hrun⟩⟩
  · cases hhas'.symm.trans hhas
  · cases hhas'.symm.trans hhas
  · cases hrun.symm.trans h
    exact hmark
  · rw [(defineItables_grows (p := {}) (hrun.symm.trans h)).1.emitted]
    exact List.mem_cons_self

/-- After any calls, a call that fails has its reason. After one that succeeds for a class with itables there is its
dictionary, or that of a class with the same symbol, and the itables that this refers to, unless a call that failed had
marked the symbol. Then no dictionary is ever defined: what stands under the symbol was there at first or is an
itable. -/
theorem emitItables_defines_unless_lost {start : Emission} {calls : List ClassDef} {lost : List String}
    (hstart : start.tables.emitted = []) (hr : History start calls lost e) (hk : c.isConcrete = true) :
    (∀ err e', emitItables c e = .error err e' → Unwritable c start.tables.typeIdSize e'.module err) ∧
    ∀ e₁ e', hasItables c e = .ok true e₁ → emitItables c e = .ok ⟨⟩ e' →
      (c.dictionarySymbol ∉ lost → ∃ d ∈ c :: calls, d.isConcrete = true ∧ d.dictionarySymbol = c.dictionarySymbol ∧
        HoldsDictionary d e' ∧ ∃ data, e'.module.data[c.dictionarySymbol]? = some data ∧
          ∀ name ∈ data.value.symbols, name ∈ e'.module.data) ∧
      (c.dictionarySymbol ∈ lost → c.dictionarySymbol ∈ e'.module.data → c.dictionarySymbol ∈ start.module.data ∨
        ∃ d ∈ c :: calls, ∃ i ∈ d.allInterfaces, c.dictionarySymbol = d.itableSymbol i) := by
  have hbefore := hr.accounted hstart
  refine ⟨fun err e' hrun => ?_, fun e₁ e' hhas hrun => ⟨fun hkept => ?_, fun hlost hmem => ?_⟩⟩
  · exact hbefore.size ▸ (emitItables_stops hk hrun).1
  · obtain ⟨d, hd, hdk, hsymbol, hholds⟩ :=
      (hbefore.emitItables hrun).held _ (mem_emitted_of_hasItables hk hhas hrun) hkept
    exact ⟨d, hd, hdk, hsymbol, hholds, hsymbol ▸ hholds.symbols_mem⟩
  · exact (hbefore.emitItables hrun).origin _ hmem (.inl hlost)

def emitWhaleTwice {α : Type} (o : Options) (read : Bool → Emission → Emission → α) : Option α :=
  let after (failed : Bool) (e : Emission) :=
    match hasItables whale e, emitItables whale e with
    | .ok true _, .ok _ e' => some (read failed e e')
    | _, _ => none
  match emitItables whale (emptyOcean o) with
  | .ok _ e => after false e
  | .error _ e => after true e

theorem exists_of_emitWhaleTwice {α : Type} (o : Options) (read : Bool → Emission → Emission → α) {a : α}
    (h : emitWhaleTwice o read = some a) :
    ∃ failed e e₁ e', (if failed then ∃ err, emitItables whale (emptyOcean o) = .error err e
        else emitItables whale (emptyOcean o) = .ok ⟨⟩ e) ∧ hasItables whale e = .ok true e₁ ∧
      emitItables whale e = .ok ⟨⟩ e' ∧ read failed e e' = a := by
  simp only [emitWhaleTwice] at h
  split at h
  · rename_i e hfirst
    split at h
    · exact ⟨false, e, _, _, by simpa using hfirst, ‹_›, ‹_›, Option.some.inj h⟩
    · cases h
  · rename_i err e hfirst
    split at h
    · exact ⟨true, e, _, _, by simpa using ⟨err, hfirst⟩, ‹_›, ‹_›, Option.some.inj h⟩
    · cases h

theorem emitItables_defines_for_whale :
    ∃ e e', History (emptyOcean { typeIdSize := 2 }) [whale] [] e ∧ emitItables whale e = .ok ⟨⟩ e' ∧
      HoldsDictionary whale e' := by
  obtain ⟨failed, e, e₁, e', hfirst, hhas, hrun, hread⟩ := exists_of_emitWhaleTwice { typeIdSize := 2 }
    (fun failed _ _ => failed) (a := false) (by decide +kernel)
  cases hread
  have hr : History (emptyOcean { typeIdSize := 2 }) [whale] [] e := History.start.done (by simpa using hfirst)
  obtain ⟨-, hdone⟩ := emitItables_defines_unless_lost (c := whale) rfl hr rfl
  obtain ⟨d, hd, -, -, hholds, -⟩ := (hdone e₁ e' hhas hrun).1 List.not_mem_nil
  obtain rfl : d = whale := by simpa using hd
  exact ⟨e, e', hr, hrun, hholds⟩

/-- There is no type for type ids of three bytes, but only the first call says so. -/
theorem not_emitItables_defines_of_three_bytes :
    ocean.Accepted ∧ whale ∈ ocean.classes ∧ spouting ∈ ocean.classes ∧ whale.isConcrete = true ∧
      ∃ err e e₁ e', emitItables whale (emptyOcean { typeIdSize := 3 }) = .error err e ∧
        hasItables whale e = .ok true e₁ ∧ emitItables whale e = .ok ⟨⟩ e' ∧
        whale.dictionarySymbol ∉ e'.module.data := by
  obtain ⟨failed, e, e₁, e', hfirst, hhas, hrun, hread⟩ := exists_of_emitWhaleTwice { typeIdSize := 3 }
    (fun failed _ e' => (failed, e'.module.data.contains whale.dictionarySymbol)) (a := (true, false))
    (by decide +kernel)
  obtain ⟨rfl, hmissing⟩ := Prod.mk.inj hread
  obtain ⟨err, hfirst⟩ : ∃ err, emitItables whale (emptyOcean { typeIdSize := 3 }) = .error err e := by
    simpa using hfirst
  refine ⟨ocean_accepted, by simp [ocean], by simp [ocean], rfl, err, e, e₁, e', hfirst, hhas, hrun, fun hmem => ?_⟩
  rw [Std.TreeMap.contains_iff_mem.2 hmem] at hmissing
  cases hmissing

end Emission

end NativeBackend
