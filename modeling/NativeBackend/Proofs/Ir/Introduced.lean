import NativeBackend.Proofs.Ir.SymbolTable
import NativeBackend.Proofs.Ir.Symbols

namespace NativeBackend

namespace Module

inductive SymbolKind where
  | code | data
  deriving DecidableEq

inductive Request where
  | declareFunction (name : String) (signature : Signature)
  | declareData (name : String) (type : IrType)
  | addData (name : String) (type : IrType) (value : Constant) (linkage : Linkage)
  | addVariable (name : String) (type : IrType) (value : Constant) (linkage : Linkage)
  | addFunction (f : Function)

namespace Request

def target : Request → SymbolKind × String
  | declareFunction name _ => (.code, name)
  | addFunction f => (.code, f.name)
  | declareData name _ | addData name .. | addVariable name .. => (.data, name)

def defined? : Request → Option (SymbolKind × String)
  | declareFunction .. | declareData .. => none
  | addFunction f => some (.code, f.name)
  | addData name .. | addVariable name .. => some (.data, name)

def run (m : Module) : Request → Except Error Module
  | declareFunction name signature => .ok (m.declareFunction name signature)
  | declareData name type => .ok (m.declareData name type)
  | addData name type value linkage => m.addData name type value linkage
  | addVariable name type value linkage => m.addVariable name type value linkage
  | addFunction f => m.addFunction f

def codeAct? : Request → Option (SymbolTable.Act Function Signature)
  | declareFunction name signature => some (.declare name signature)
  | addFunction f => some (.define f.name f)
  | declareData .. | addData .. | addVariable .. => none

def dataAct? : Request → Option (SymbolTable.Act DataDefinition IrType)
  | declareData name type => some (.declare name type)
  | addData name type value linkage => some (.define name ⟨name, type, value, linkage, true⟩)
  | addVariable name type value linkage => some (.define name ⟨name, type, value, linkage, false⟩)
  | declareFunction .. | addFunction _ => none

end Request

/-- A module after a request; one that fails leaves it as it was. -/
def after (m : Module) (r : Request) : Module :=
  match r.run m with
  | .ok m' => m'
  | .error _ => m

def afterAll (m : Module) (rs : List Request) : Module := rs.foldl after m

def runAll (m : Module) (rs : List Request) : Except Error Module := rs.foldlM (fun m r => r.run m) m

def code (m : Module) : SymbolTable Function Signature := ⟨m.functions, m.declarations⟩

def dataTable (m : Module) : SymbolTable DataDefinition IrType := ⟨m.data, m.externals⟩

variable {m : Module}

theorem after_addFunction (m : Module) (f : Function) : m.after (.addFunction f) =
    if m.functions.contains f.name then m
    else { m with declarations := m.declarations.erase f.name, functions := m.functions.insert f.name f } := by
  rw [after, Request.run, addFunction]
  split <;> split <;> simp_all

theorem after_eq_define {r : Request} {d : DataDefinition} (h : r.run m = m.define d) : m.after r =
    if m.data.contains d.name then m
    else { m with externals := m.externals.erase d.name, data := m.data.insert d.name d } := by
  rw [after, h, define]
  split <;> split <;> simp_all

theorem tables_after (m : Module) (r : Request) :
    (m.after r).code = r.codeAct?.elim m.code m.code.after ∧
      (m.after r).dataTable = r.dataAct?.elim m.dataTable m.dataTable.after := by
  have hdefine : ∀ (d : DataDefinition), r.run m = m.define d →
      (m.after r).code = m.code ∧ (m.after r).dataTable = m.dataTable.after (.define d.name d) := by
    intro d hd
    rw [after_eq_define hd, apply_ite code, apply_ite dataTable]
    exact ⟨ite_self _, rfl⟩
  cases r with
  | declareFunction name signature =>
      rw [after, Request.run, declareFunction, apply_ite code, apply_ite dataTable]
      exact ⟨rfl, ite_self _⟩
  | declareData name type =>
      rw [after, Request.run, declareData, apply_ite code, apply_ite dataTable]
      exact ⟨ite_self _, rfl⟩
  | addData name type value linkage => exact hdefine _ rfl
  | addVariable name type value linkage => exact hdefine _ rfl
  | addFunction f =>
      rw [after_addFunction, apply_ite code, apply_ite dataTable]
      exact ⟨rfl, ite_self _⟩

theorem tables_afterAll (m : Module) (rs : List Request) :
    (m.afterAll rs).code = m.code.afterAll (rs.filterMap Request.codeAct?) ∧
      (m.afterAll rs).dataTable = m.dataTable.afterAll (rs.filterMap Request.dataAct?) := by
  induction rs generalizing m with
  | nil => exact ⟨rfl, rfl⟩
  | cons r rs ih =>
      obtain ⟨hcode, hdata⟩ := tables_after m r
      obtain ⟨hcode', hdata'⟩ := ih (m.after r)
      rw [afterAll, List.foldl_cons, List.filterMap_cons, List.filterMap_cons]
      refine ⟨hcode'.trans ?_, hdata'.trans ?_⟩
      · rw [hcode]
        cases r.codeAct? <;> rfl
      · rw [hdata]
        cases r.dataAct? <;> rfl

theorem name_afterAll (m : Module) (rs : List Request) :
    (m.afterAll rs).name = m.name ∧ (m.afterAll rs).pie = m.pie := by
  have hafter : ∀ (m : Module) (r : Request), (m.after r).name = m.name ∧ (m.after r).pie = m.pie := by
    intro m r
    cases r with
    | declareFunction | declareData =>
        simp only [after, Request.run, declareFunction, declareData]
        split <;> exact ⟨rfl, rfl⟩
    | addData | addVariable =>
        rw [after_eq_define rfl]
        split <;> exact ⟨rfl, rfl⟩
    | addFunction f =>
        rw [after_addFunction]
        split <;> exact ⟨rfl, rfl⟩
  induction rs generalizing m with
  | nil => exact ⟨rfl, rfl⟩
  | cons r rs ih => exact ⟨(ih _).1.trans (hafter m r).1, (ih _).2.trans (hafter m r).2⟩

theorem reflects_afterAll (name : String) (pie : Bool) (rs : List Request) :
    (afterAll { name, pie } rs).code.Reflects (rs.filterMap Request.codeAct?) ∧
      (afterAll { name, pie } rs).dataTable.Reflects (rs.filterMap Request.dataAct?) := by
  obtain ⟨hcode, hdata⟩ := tables_afterAll { name, pie } rs
  rw [hcode, hdata]
  exact ⟨SymbolTable.Reflects.empty.afterAll _, SymbolTable.Reflects.empty.afterAll _⟩

end Module

namespace Module

variable {m : Module}

/-- The pieces of a module's text in order, each with the symbol that it defines or declares. -/
def parts (m : Module) : List (Option String × String) :=
  [(none, "; ModuleID = '" ++ m.name ++ "'\nsource_filename = \"" ++ m.name ++ "\"\n")] ++
    [(none, if m.data.isEmpty && m.externals.isEmpty then "" else "\n")] ++
    m.externals.toList.map (fun (name, type) => (some name, externalText name type)) ++
    m.data.values.flatMap (fun d => [(some d.name, d.text), (none, "\n")]) ++
    m.functions.values.flatMap (fun f => [(none, "\n"), (some f.name, f.text)]) ++
    [(none, if m.declarations.isEmpty then "" else "\n")] ++
    m.declarations.toList.map (fun (name, signature) => (some name, declarationText name signature)) ++
    [(none, if m.pie then "\n!llvm.module.flags = !\x7b!0\x7d\n!0 = !\x7bi32 7, !\"PIE Level\", i32 2\x7d\n" else "")]

/-- The symbols that a module's text defines or declares, once for each time. -/
def introduced (m : Module) : List String := m.parts.filterMap (·.1)

theorem join_singleton (s : String) : String.join [s] = s := by
  rw [String.join_cons, String.join_nil, String.append_empty]

theorem join_pair (s t : String) : String.join [s, t] = s ++ t := by
  rw [String.join_cons, join_singleton]

theorem join_flatMap {α : Type} (f : α → List String) (xs : List α) :
    String.join (xs.flatMap f) = String.join (xs.map fun x => String.join (f x)) := by
  induction xs with
  | nil => rfl
  | cons x xs ih => rw [List.flatMap_cons, String.join_append, ih, List.map_cons, String.join_cons]

theorem text_eq_join_parts (m : Module) : m.text = String.join (m.parts.map (·.2)) := by
  have hdata : String.join ((m.data.values.flatMap fun d => [(some d.name, d.text), (none, "\n")]).map (·.2)) =
      String.join (m.data.values.map (·.text ++ "\n")) := by
    rw [List.map_flatMap, join_flatMap]
    simp only [List.map_cons, List.map_nil, join_pair]
  have hfunctions : String.join ((m.functions.values.flatMap fun f => [(none, "\n"), (some f.name, f.text)]).map
      (·.2)) = String.join (m.functions.values.map ("\n" ++ ·.text)) := by
    rw [List.map_flatMap, join_flatMap]
    simp only [List.map_cons, List.map_nil, join_pair]
  simp only [parts, List.map_append, String.join_append, hdata, hfunctions, List.map_singleton, join_singleton,
    List.map_map]
  rfl

theorem introduces_of_mem_parts {name part : String} (h : (some name, part) ∈ m.parts) : Introduces name part := by
  simp only [parts, List.mem_append, List.mem_cons, List.not_mem_nil, or_false, List.mem_map,
    List.mem_flatMap, Prod.mk.injEq, Prod.exists, Option.some.injEq, reduceCtorEq, false_and, false_or] at h
  obtain ((⟨name, type, -, rfl, rfl⟩ | ⟨d, -, rfl, rfl⟩) | ⟨f, -, rfl, rfl⟩) | ⟨name, signature, -, rfl, rfl⟩ := h
  · exact .external type
  · exact .data d rfl
  · exact .function f rfl
  · exact .declaration signature

theorem map_values {α : Type} {t : Std.TreeMap String α} {key : α → String}
    (h : ∀ (name : String) (v : α), t[name]? = some v → key v = name) : t.values.map key = t.keys := by
  rw [values_eq_map_toList t, ← Std.TreeMap.map_fst_toList_eq_keys, List.map_map]
  refine List.map_congr_left fun entry hentry => ?_
  exact h entry.1 entry.2 (Std.TreeMap.mem_toList_iff_getElem?_eq_some.1 hentry)

theorem introduced_eq (h : m.Named) : m.introduced =
    (m.dataTable.declared.keys ++ m.dataTable.defined.keys) ++
      (m.code.defined.keys ++ m.code.declared.keys) := by
  have hdata : (m.data.values.flatMap fun d => [(some d.name, d.text), (none, "\n")]).filterMap (·.1) =
      m.data.keys := by
    rw [List.filterMap_flatMap, ← map_values h.data, List.map_eq_flatMap]
    rfl
  have hfunctions : (m.functions.values.flatMap fun f => [(none, "\n"), (some f.name, f.text)]).filterMap (·.1) =
      m.functions.keys := by
    rw [List.filterMap_flatMap, ← map_values h.functions, List.map_eq_flatMap]
    rfl
  have hnone : ∀ text : String, [((none : Option String), text)].filterMap (·.1) = [] := fun _ => rfl
  simp only [introduced, parts, List.filterMap_append, hdata, hfunctions, hnone, List.filterMap_map,
    Function.comp_def, List.filterMap_eq_map', Std.TreeMap.map_fst_toList_eq_keys, List.nil_append,
    List.append_nil, List.append_assoc]
  rfl

theorem Named.after (h : m.Named) (r : Request) : (m.after r).Named := by
  rw [Module.after]
  cases hr : r.run m with
  | error => exact h
  | ok m' =>
      cases r with
      | declareFunction name signature =>
          cases hr
          exact h.declares (declareFunction_declares m name signature).1
      | declareData name type =>
          cases hr
          exact h.declares (declareData_declares m name type).1
      | addData | addVariable => exact h.define hr
      | addFunction => exact h.addFunction hr

theorem Named.afterAll (h : m.Named) (rs : List Request) : (m.afterAll rs).Named := by
  induction rs generalizing m with
  | nil => exact h
  | cons r rs ih => exact ih (h.after r)

theorem mem_acts (rs : List Request) (name : String) :
    (name ∈ (rs.filterMap Request.codeAct?).map SymbolTable.Act.name ↔ (.code, name) ∈ rs.map Request.target) ∧
      (name ∈ (rs.filterMap Request.dataAct?).map SymbolTable.Act.name ↔ (.data, name) ∈ rs.map Request.target) := by
  simp only [List.mem_map]
  constructor
  · refine Lists.exists_mem_filterMap (fun r => ?_) rs
    cases r <;> simp [Request.codeAct?, Request.target, SymbolTable.Act.name]
  · refine Lists.exists_mem_filterMap (fun r => ?_) rs
    cases r <;> simp [Request.dataAct?, Request.target, SymbolTable.Act.name]

theorem mem_defined (rs : List Request) (name : String) :
    ((∃ a ∈ rs.filterMap Request.codeAct?, ∃ f, a = .define name f) ↔
        some (.code, name) ∈ rs.map Request.defined?) ∧
      ((∃ a ∈ rs.filterMap Request.dataAct?, ∃ d, a = .define name d) ↔
        some (.data, name) ∈ rs.map Request.defined?) := by
  simp only [List.mem_map]
  constructor
  · refine Lists.exists_mem_filterMap (fun r => ?_) rs
    cases r <;> simp [Request.codeAct?, Request.defined?]
  · refine Lists.exists_mem_filterMap (fun r => ?_) rs
    cases r <;> simp [Request.dataAct?, Request.defined?]

theorem run_eq_error_iff (m : Module) (r : Request) : (∃ e, r.run m = .error e) ↔
    (∃ name ∈ m.functions, r.defined? = some (.code, name)) ∨ ∃ name ∈ m.data, r.defined? = some (.data, name) := by
  have hdefine : ∀ d : DataDefinition, (∃ e, m.define d = .error e) ↔ d.name ∈ m.data := by
    intro d
    rw [define]
    split
    · simpa
    · simpa
  cases r with
  | declareFunction | declareData => simp [Request.run, Request.defined?]
  | addData | addVariable => simpa [Request.run, Request.defined?, addData, addVariable] using hdefine _
  | addFunction f =>
      rw [Request.run, addFunction]
      split <;> simpa [Request.defined?]

/-- After some requests one fails exactly if it defines again what one of them defined. -/
theorem run_afterAll_eq_error_iff (name : String) (pie : Bool) (rs : List Request) (r : Request) :
    (∃ e, r.run (afterAll { name, pie } rs) = .error e) ↔
      ∃ target, r.defined? = some target ∧ some target ∈ rs.map Request.defined? := by
  obtain ⟨hcode, hdata⟩ := reflects_afterAll name pie rs
  have hfunctions : ∀ symbol, symbol ∈ (afterAll { name, pie } rs).functions ↔
      some (.code, symbol) ∈ rs.map Request.defined? := by
    intro symbol
    rw [← (mem_defined rs symbol).1]
    exact hcode.mem_defined.trans (by simp)
  have hobjects : ∀ symbol, symbol ∈ (afterAll { name, pie } rs).data ↔
      some (.data, symbol) ∈ rs.map Request.defined? := by
    intro symbol
    rw [← (mem_defined rs symbol).2]
    exact hdata.mem_defined.trans (by simp)
  rw [run_eq_error_iff]
  simp only [hfunctions, hobjects]
  constructor
  · rintro (⟨symbol, hsymbol, hr⟩ | ⟨symbol, hsymbol, hr⟩)
    · exact ⟨_, hr, hsymbol⟩
    · exact ⟨_, hr, hsymbol⟩
  · rintro ⟨⟨kind, symbol⟩, hr, hmem⟩
    cases kind with
    | code => exact .inl ⟨symbol, hmem, hr⟩
    | data => exact .inr ⟨symbol, hmem, hr⟩

/-- The text of a module gives each symbol one definition or declaration if it was asked for as code, and one if
it was asked for as data. Only a second definition of one kind fails, and changes nothing. -/
theorem introduced_afterAll (name : String) (pie : Bool) (rs : List Request) :
    let m := afterAll { name, pie } rs
    m.text = String.join (m.parts.map (·.2)) ∧
      (∀ symbol part, (some symbol, part) ∈ m.parts → Introduces symbol part) ∧
      (∀ symbol, m.introduced.count symbol =
        (if (.code, symbol) ∈ rs.map Request.target then 1 else 0) +
          if (.data, symbol) ∈ rs.map Request.target then 1 else 0) ∧
      ∀ r : Request,
        ((∃ e, r.run m = .error e) ↔ ∃ target, r.defined? = some target ∧ some target ∈ rs.map Request.defined?) ∧
          ∀ e, r.run m = .error e → (m.after r).text = m.text := by
  intro m
  obtain ⟨hcode, hdata⟩ := reflects_afterAll name pie rs
  refine ⟨text_eq_join_parts m, fun _ _ => introduces_of_mem_parts, fun symbol => ?_, fun r => ?_⟩
  · have hnamed : m.Named := Named.afterAll ⟨by simp, by simp⟩ rs
    have hcode' := hcode.count_introduced symbol
    have hdata' := hdata.count_introduced symbol
    rw [if_congr (mem_acts rs symbol).1 rfl rfl] at hcode'
    rw [if_congr (mem_acts rs symbol).2 rfl rfl] at hdata'
    rw [introduced_eq hnamed, List.count_append, hdata', ← hcode', List.count_append, List.count_append, Nat.add_comm,
      Nat.add_comm (List.count symbol m.code.defined.keys)]
  · exact ⟨run_afterAll_eq_error_iff name pie rs r, fun e he => by rw [after, he]⟩

def sharing : List Request :=
  [.addData "table" .ptr .null .internal,
    .addFunction { name := "table", signature := ⟨.void, []⟩, nextLocal := 0,
                   blocks := [{ label := "b0", terminator := some (.ret none) }] }]

theorem not_introduced_once_of_sharing :
    (∃ m, runAll { name := "t", pie := false } sharing = .ok m) ∧
      ¬ ∀ symbol, (afterAll { name := "t", pie := false } sharing).introduced.count symbol ≤ 1 := by
  have htwice : (afterAll { name := "t", pie := false } sharing).introduced = ["table", "table"] := rfl
  refine ⟨⟨_, rfl⟩, fun h => absurd (h "table") ?_⟩
  rw [htwice]
  decide

end Module

end NativeBackend
