import Mathlib.Data.List.Induction
import NativeBackend.Proofs.Ir.Introduced

namespace NativeBackend

namespace Module

/-- Requests that do not contradict each other: nothing is defined twice, and all declarations of a symbol are the
same. -/
structure Compatible (rs : List Request) : Prop where
  once : (rs.filterMap Request.defined?).Nodup
  signatures : ∀ name s s', .declareFunction name s ∈ rs → .declareFunction name s' ∈ rs → s = s'
  types : ∀ name t t', .declareData name t ∈ rs → .declareData name t' ∈ rs → t = t'

variable {rs rs' : List Request}

theorem Compatible.define_code (h : Compatible rs) (name : String) (f f' : Function)
    (hf : .define name f ∈ rs.filterMap Request.codeAct?) (hf' : .define name f' ∈ rs.filterMap Request.codeAct?) :
    f = f' := by
  have hsource : ∀ f, .define name f ∈ rs.filterMap Request.codeAct? → .addFunction f ∈ rs ∧ f.name = name := by
    intro f hf
    obtain ⟨r, hr, hact⟩ := List.mem_filterMap.1 hf
    cases r <;> cases hact
    exact ⟨hr, rfl⟩
  obtain ⟨hmem, hname⟩ := hsource f hf
  obtain ⟨hmem', hname'⟩ := hsource f' hf'
  have heq := Lists.eq_of_nodup_filterMap h.once hmem hmem' (b := (.code, name)) (by rw [← hname]; rfl)
    (by rw [← hname']; rfl)
  cases heq
  rfl

theorem Compatible.define_data (h : Compatible rs) (name : String) (d d' : DataDefinition)
    (hd : .define name d ∈ rs.filterMap Request.dataAct?) (hd' : .define name d' ∈ rs.filterMap Request.dataAct?) :
    d = d' := by
  obtain ⟨r, hr, hact⟩ := List.mem_filterMap.1 hd
  obtain ⟨r', hr', hact'⟩ := List.mem_filterMap.1 hd'
  have hsource : ∀ r d, Request.dataAct? r = some (.define name d) → r.defined? = some (.data, name) := by
    intro r d hact
    cases r <;> cases hact <;> rfl
  have heq := Lists.eq_of_nodup_filterMap h.once hr hr' (hsource r d hact) (hsource r' d' hact')
  rw [heq, hact'] at hact
  cases hact
  rfl

theorem Compatible.declare_code (h : Compatible rs) (name : String) (s s' : Signature)
    (hs : .declare name s ∈ rs.filterMap Request.codeAct?) (hs' : .declare name s' ∈ rs.filterMap Request.codeAct?) :
    s = s' := by
  have hsource : ∀ s, .declare name s ∈ rs.filterMap Request.codeAct? → .declareFunction name s ∈ rs := by
    intro s hs
    obtain ⟨r, hr, hact⟩ := List.mem_filterMap.1 hs
    cases r <;> cases hact
    exact hr
  exact h.signatures name s s' (hsource s hs) (hsource s' hs')

theorem Compatible.declare_data (h : Compatible rs) (name : String) (t t' : IrType)
    (ht : .declare name t ∈ rs.filterMap Request.dataAct?) (ht' : .declare name t' ∈ rs.filterMap Request.dataAct?) :
    t = t' := by
  have hsource : ∀ t, .declare name t ∈ rs.filterMap Request.dataAct? → .declareData name t ∈ rs := by
    intro t ht
    obtain ⟨r, hr, hact⟩ := List.mem_filterMap.1 ht
    cases r <;> cases hact
    exact hr
  exact h.types name t t' (hsource t ht) (hsource t' ht')

theorem runAll_eq_ok (name : String) (pie : Bool) (honce : (rs.filterMap Request.defined?).Nodup) :
    runAll { name, pie } rs = .ok (afterAll { name, pie } rs) := by
  induction rs using List.reverseRecOn with
  | nil => rfl
  | append_singleton rs r ih =>
      rw [List.filterMap_append] at honce
      have hrun : runAll { name, pie } (rs ++ [r]) = r.run (afterAll { name, pie } rs) := by
        rw [runAll, List.foldlM_append, ← runAll, ih (List.nodup_append.1 honce).1]
        exact bind_pure (m := Except Error) (r.run _)
      have hafter : afterAll { name, pie } (rs ++ [r]) = (afterAll { name, pie } rs).after r := List.foldl_append ..
      rw [hrun, hafter, after]
      cases hr : r.run (afterAll { name, pie } rs) with
      | ok m => rfl
      | error e =>
          obtain ⟨target, htarget, hmem⟩ := (run_afterAll_eq_error_iff name pie rs r).1 ⟨e, hr⟩
          obtain ⟨r', hr', htarget'⟩ := List.mem_map.1 hmem
          refine absurd rfl ((List.nodup_append.1 honce).2.2 target (List.mem_filterMap.2 ⟨r', hr', htarget'⟩)
            target ?_)
          simp [htarget]

/-- A module has what a request asks for. A definition stands for a declaration of its symbol. -/
def Fulfils (m : Module) : Request → Prop
  | .declareFunction name signature => name ∈ m.functions ∨ m.declarations[name]? = some signature
  | .declareData name type => name ∈ m.data ∨ m.externals[name]? = some type
  | .addData name type value linkage => m.data[name]? = some ⟨name, type, value, linkage, true⟩
  | .addVariable name type value linkage => m.data[name]? = some ⟨name, type, value, linkage, false⟩
  | .addFunction f => m.functions[f.name]? = some f

theorem fulfils_afterAll (name : String) (pie : Bool) (h : Compatible rs) {r : Request} (hr : r ∈ rs) :
    (afterAll { name, pie } rs).Fulfils r := by
  obtain ⟨hcode, hdata⟩ := reflects_afterAll name pie rs
  have hdefined : ∀ d : DataDefinition, r.dataAct? = some (.define d.name d) →
      (afterAll { name, pie } rs).data[d.name]? = some d := by
    intro d hact
    have hmem := List.mem_filterMap.2 ⟨r, hr, hact⟩
    exact hdata.getElem?_defined hmem fun d' hd' => h.define_data _ d' d hd' hmem
  cases r with
  | declareFunction symbol signature =>
      have hmem := List.mem_filterMap.2 ⟨_, hr, show Request.codeAct? _ = some (.declare symbol signature) from rfl⟩
      exact hcode.getElem?_declared hmem fun s hs => h.declare_code symbol s signature hs hmem
  | declareData symbol type =>
      have hmem := List.mem_filterMap.2 ⟨_, hr, show Request.dataAct? _ = some (.declare symbol type) from rfl⟩
      exact hdata.getElem?_declared hmem fun t ht => h.declare_data symbol t type ht hmem
  | addData symbol type value linkage => exact hdefined ⟨symbol, type, value, linkage, true⟩ rfl
  | addVariable symbol type value linkage => exact hdefined ⟨symbol, type, value, linkage, false⟩ rfl
  | addFunction f =>
      have hmem := List.mem_filterMap.2 ⟨_, hr, show Request.codeAct? _ = some (.define f.name f) from rfl⟩
      exact hcode.getElem?_defined hmem fun f' hf' => h.define_code f.name f' f hf' hmem

/-- After compatible requests the module has all that was asked for. -/
theorem runAll_fulfils (name : String) (pie : Bool) (h : Compatible rs) :
    ∃ m, runAll { name, pie } rs = .ok m ∧ ∀ r ∈ rs, m.Fulfils r :=
  ⟨_, runAll_eq_ok name pie h.once, fun _ => fulfils_afterAll name pie h⟩

theorem text_congr {m m' : Module} (hname : m.name = m'.name) (hpie : m.pie = m'.pie) (hcode : m.code.Same m'.code)
    (hdata : m.dataTable.Same m'.dataTable) : m.text = m'.text := by
  have hfunctions : m.functions.Equiv m'.functions := hcode.defined
  have hdeclarations : m.declarations.Equiv m'.declarations := hcode.declared
  have hobjects : m.data.Equiv m'.data := hdata.defined
  have hexternals : m.externals.Equiv m'.externals := hdata.declared
  rw [text_eq_join_parts, text_eq_join_parts, parts, parts, hname, hpie, hfunctions.values_eq,
    hdeclarations.toList_eq, hdeclarations.isEmpty_eq, hobjects.values_eq, hobjects.isEmpty_eq,
    hexternals.toList_eq, hexternals.isEmpty_eq]

/-- Compatible requests succeed in any order, and the text does not depend on the order. -/
theorem text_of_perm (name : String) (pie : Bool) (h : Compatible rs) (hperm : rs.Perm rs') :
    ∃ m m', runAll { name, pie } rs = .ok m ∧ runAll { name, pie } rs' = .ok m' ∧ m.text = m'.text := by
  have honce' : (rs'.filterMap Request.defined?).Nodup := (hperm.filterMap _).nodup_iff.1 h.once
  refine ⟨_, _, runAll_eq_ok name pie h.once, runAll_eq_ok name pie honce', ?_⟩
  obtain ⟨hname, hpie⟩ := name_afterAll { name, pie } rs
  obtain ⟨hname', hpie'⟩ := name_afterAll { name, pie } rs'
  obtain ⟨hcode, hdata⟩ := reflects_afterAll name pie rs
  obtain ⟨hcode', hdata'⟩ := reflects_afterAll name pie rs'
  refine text_congr (hname.trans hname'.symm) (hpie.trans hpie'.symm) ?_ ?_
  · exact hcode.same hcode' (hperm.filterMap _) h.define_code h.declare_code
  · exact hdata.same hdata' (hperm.filterMap _) h.define_data h.declare_data

/-- Declarations before and after the definitions that take their place. -/
def overlapping : List Request :=
  [.declareFunction "run" ⟨.void, []⟩, .declareData "table" .ptr,
    .addFunction { name := "run", signature := ⟨.void, []⟩, nextLocal := 0,
                   blocks := [{ label := "b0", terminator := some (.ret none) }] },
    .addData "table" .ptr .null .internal, .declareFunction "run" ⟨.void, []⟩, .declareFunction "stub" ⟨.void, []⟩]

theorem text_of_overlapping_reverse :
    (overlapping.filterMap Request.defined? = [(.code, "run"), (.data, "table")]) ∧
      ∃ m m', runAll { name := "t", pie := true } overlapping = .ok m ∧
        runAll { name := "t", pie := true } overlapping.reverse = .ok m' ∧ m.text = m'.text := by
  refine ⟨rfl, text_of_perm "t" true ⟨by decide, ?_, ?_⟩ (List.reverse_perm _).symm⟩
  · rintro name s s' hs hs'
    simp only [overlapping, List.mem_cons, Request.declareFunction.injEq, reduceCtorEq, List.not_mem_nil, or_false,
      false_or] at hs hs'
    grind
  · rintro name t t' ht ht'
    simp only [overlapping, List.mem_cons, Request.declareData.injEq, reduceCtorEq, List.not_mem_nil, or_false,
      false_or] at ht ht'
    rw [ht.2, ht'.2]

end Module

end NativeBackend
