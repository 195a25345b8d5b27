import Mathlib.Data.List.Basic
import NativeBackend.Ir.Module
import NativeBackend.Proofs.Maps

namespace NativeBackend

mutual

def Constant.symbols : Constant → List String
  | .symbol name | .symbolOffset name _ => [name]
  | .array _ values => Constant.elementSymbols values
  | .struct _ fields => Constant.fieldSymbols fields
  | .bool _ | .int _ | .float _ | .null | .zero | .undef => []

def Constant.elementSymbols : List Constant → List String
  | [] => []
  | c :: cs => c.symbols ++ Constant.elementSymbols cs

def Constant.fieldSymbols : List (IrType × Constant) → List String
  | [] => []
  | (_, c) :: fs => c.symbols ++ Constant.fieldSymbols fs

end

namespace Constant

theorem mem_elementSymbols {name : String} {cs : List Constant} :
    name ∈ elementSymbols cs ↔ ∃ c ∈ cs, name ∈ c.symbols := by
  induction cs with
  | nil => simp [elementSymbols]
  | cons c cs ih => simp [elementSymbols, ih]

theorem mem_fieldSymbols {name : String} {fs : List (IrType × Constant)} :
    name ∈ fieldSymbols fs ↔ ∃ p ∈ fs, name ∈ p.2.symbols := by
  induction fs with
  | nil => simp [fieldSymbols]
  | cons f fs ih => simp [fieldSymbols, ih]

end Constant

def Operand.symbols : Operand → List String
  | .ofLocal _ => []
  | .const c => c.symbols

def BasicBlock.operands (b : BasicBlock) : List Operand :=
  b.phis.flatMap (fun p => p.incoming.map (·.1)) ++ b.instructions.flatMap (·.operands) ++
    b.terminator.toList.flatMap (·.operands)

def Function.symbols (f : Function) : List String :=
  f.blocks.flatMap fun b => b.operands.flatMap (·.symbols)

theorem Function.mem_symbols {f : Function} {name : String} :
    name ∈ f.symbols ↔ ∃ b ∈ f.blocks, ∃ o ∈ b.operands, name ∈ o.symbols := by
  simp [symbols, List.mem_flatMap]

namespace Module

def Knows (m : Module) (name : String) : Prop :=
  name ∈ m.functions ∨ name ∈ m.declarations ∨ name ∈ m.externals ∨ name ∈ m.data

def Mentions (m : Module) (name : String) : Prop :=
  (∃ (key : String) (f : Function), m.functions[key]? = some f ∧ name ∈ f.symbols) ∨
    ∃ (key : String) (d : DataDefinition), m.data[key]? = some d ∧ name ∈ d.value.symbols

def Closed (m : Module) : Prop := ∀ name, m.Mentions name → m.Knows name

structure Declares (m m' : Module) : Prop where
  functions : m'.functions = m.functions
  data : m'.data = m.data
  knows : ∀ name, m.Knows name → m'.Knows name

namespace Declares

variable {m m' : Module}

theorem refl (m : Module) : Declares m m := ⟨rfl, rfl, fun _ h => h⟩

theorem mentions (hd : Declares m m') {name : String} : m'.Mentions name ↔ m.Mentions name := by
  rw [Mentions, Mentions, hd.functions, hd.data]

theorem closed (hd : Declares m m') (hm : m.Closed) : m'.Closed :=
  fun name h => hd.knows name (hm name (hd.mentions.1 h))

end Declares

variable {m m' : Module}

theorem declareFunction_declares (m : Module) (name : String) (s : Signature) :
    Declares m (m.declareFunction name s) ∧ (m.declareFunction name s).Knows name := by
  rw [declareFunction]
  split
  · rename_i h
    exact ⟨.refl m, .inl h⟩
  · refine ⟨⟨rfl, rfl, fun other h => ?_⟩, .inr (.inl Std.TreeMap.mem_insertIfNew_self)⟩
    exact h.imp_right (Or.imp_left fun h => Std.TreeMap.mem_insertIfNew.2 (.inr h))

theorem declareData_declares (m : Module) (name : String) (type : IrType) :
    Declares m (m.declareData name type) ∧ (m.declareData name type).Knows name := by
  rw [declareData]
  split
  · rename_i h
    exact ⟨.refl m, .inr (.inr (.inr h))⟩
  · refine ⟨⟨rfl, rfl, fun other h => ?_⟩, .inr (.inr (.inl Std.TreeMap.mem_insertIfNew_self))⟩
    exact h.imp_right (Or.imp_right (Or.imp_left fun h => Std.TreeMap.mem_insertIfNew.2 (.inr h)))

theorem compare_ne_eq {a b : String} (h : a ≠ b) : compare a b ≠ .eq := fun heq => h (Std.compare_eq_iff_eq.1 heq)

theorem define_eq_ok {d : DataDefinition} (h : m.define d = .ok m') :
    m'.functions = m.functions ∧ m'.data = m.data.insert d.name d ∧ (∀ name, m.Knows name → m'.Knows name) ∧
      m'.Knows d.name := by
  rw [define] at h
  split at h
  · cases h
  · cases h
    refine ⟨rfl, rfl, fun name hk => ?_, .inr (.inr (.inr Std.TreeMap.mem_insert_self))⟩
    by_cases hname : d.name = name
    · exact hname ▸ .inr (.inr (.inr Std.TreeMap.mem_insert_self))
    · refine hk.imp_right (Or.imp_right (Or.imp (fun hk => ?_) fun hk => ?_))
      · exact Std.TreeMap.mem_erase.2 ⟨compare_ne_eq hname, hk⟩
      · exact Std.TreeMap.mem_insert.2 (.inr hk)

theorem define_eq_error {d : DataDefinition} {e : Error} (h : m.define d = .error e) :
    d.name ∈ m.data ∧ e = .internal (.duplicateData d.name) := by
  rw [define] at h
  split at h
  · cases h
    exact ⟨‹_›, rfl⟩
  · cases h

theorem notMem_of_define {d : DataDefinition} (h : m.define d = .ok m') : d.name ∉ m.data := by
  rw [define] at h
  split at h
  · cases h
  · assumption

theorem addFunction_eq_ok {f : Function} (h : m.addFunction f = .ok m') :
    f.name ∉ m.functions ∧ m'.functions = m.functions.insert f.name f ∧ m'.data = m.data ∧
      (∀ name, m.Knows name → m'.Knows name) := by
  rw [addFunction] at h
  split at h
  · cases h
  · rename_i hnew
    cases h
    refine ⟨hnew, rfl, rfl, fun name hk => ?_⟩
    by_cases hname : f.name = name
    · exact hname ▸ .inl Std.TreeMap.mem_insert_self
    · refine hk.imp (fun hk => ?_) (Or.imp_left fun hk => ?_)
      · exact Std.TreeMap.mem_insert.2 (.inr hk)
      · exact Std.TreeMap.mem_erase.2 ⟨compare_ne_eq hname, hk⟩

theorem mentions_define {d : DataDefinition} (h : m.define d = .ok m') {name : String} (hname : m'.Mentions name) :
    m.Mentions name ∨ name ∈ d.value.symbols := by
  obtain ⟨hfunctions, hdata, -, -⟩ := define_eq_ok h
  rcases hname with ⟨key, f, hf, hname⟩ | ⟨key, d', hd, hname⟩
  · rw [hfunctions] at hf
    exact .inl (.inl ⟨key, f, hf, hname⟩)
  · rw [hdata] at hd
    obtain ⟨rfl, rfl⟩ | ⟨-, hd⟩ := Maps.getElem?_insert_eq_some.1 hd
    · exact .inr hname
    · exact .inl (.inr ⟨key, d', hd, hname⟩)

theorem mentions_addFunction {f : Function} (h : m.addFunction f = .ok m') {name : String}
    (hname : m'.Mentions name) : m.Mentions name ∨ name ∈ f.symbols := by
  obtain ⟨-, hfunctions, hdata, -⟩ := addFunction_eq_ok h
  rcases hname with ⟨key, f', hf, hname⟩ | ⟨key, d, hd, hname⟩
  · rw [hfunctions] at hf
    obtain ⟨rfl, rfl⟩ | ⟨-, hf⟩ := Maps.getElem?_insert_eq_some.1 hf
    · exact .inr hname
    · exact .inl (.inl ⟨key, f', hf, hname⟩)
  · rw [hdata] at hd
    exact .inl (.inr ⟨key, d, hd, hname⟩)

theorem Closed.define (hm : m.Closed) {d : DataDefinition} (h : m.define d = .ok m')
    (hd : ∀ name ∈ d.value.symbols, m'.Knows name) : m'.Closed :=
  fun name hname => (mentions_define h hname).elim (fun hold => (define_eq_ok h).2.2.1 name (hm name hold)) (hd name)

theorem Closed.addFunction (hm : m.Closed) {f : Function} (h : m.addFunction f = .ok m')
    (hf : ∀ name ∈ f.symbols, m'.Knows name) : m'.Closed :=
  fun name hname =>
    (mentions_addFunction h hname).elim (fun hold => (addFunction_eq_ok h).2.2.2 name (hm name hold)) (hf name)

structure Named (m : Module) : Prop where
  functions : ∀ (key : String) (f : Function), m.functions[key]? = some f → f.name = key
  data : ∀ (key : String) (d : DataDefinition), m.data[key]? = some d → d.name = key

theorem Named.declares (hm : m.Named) (hd : Declares m m') : m'.Named :=
  ⟨hd.functions ▸ hm.functions, hd.data ▸ hm.data⟩

theorem Named.define (hm : m.Named) {d : DataDefinition} (h : m.define d = .ok m') : m'.Named := by
  obtain ⟨hfunctions, hdata, -, -⟩ := define_eq_ok h
  refine ⟨hfunctions ▸ hm.functions, fun key d' hd => ?_⟩
  rw [hdata] at hd
  obtain ⟨rfl, rfl⟩ | ⟨-, hd⟩ := Maps.getElem?_insert_eq_some.1 hd
  · rfl
  · exact hm.data key d' hd

theorem Named.addFunction (hm : m.Named) {f : Function} (h : m.addFunction f = .ok m') : m'.Named := by
  obtain ⟨-, hfunctions, hdata, -⟩ := addFunction_eq_ok h
  refine ⟨fun key f' hf => ?_, hdata ▸ hm.data⟩
  rw [hfunctions] at hf
  obtain ⟨rfl, rfl⟩ | ⟨-, hf⟩ := Maps.getElem?_insert_eq_some.1 hf
  · rfl
  · exact hm.functions key f' hf

inductive Introduces (name : String) : String → Prop
  | external (type : IrType) : Introduces name (externalText name type)
  | data (d : DataDefinition) (h : d.name = name) : Introduces name d.text
  | function (f : Function) (h : f.name = name) : Introduces name f.text
  | declaration (s : Signature) : Introduces name (declarationText name s)

def Contains (text part : String) : Prop := ∃ before after, text = before ++ part ++ after

theorem Contains.refl (text : String) : Contains text text := ⟨"", "", by simp⟩

theorem Contains.append_right {text part : String} (h : Contains text part) (more : String) :
    Contains (text ++ more) part := by
  obtain ⟨before, after, rfl⟩ := h
  exact ⟨before, after ++ more, by simp only [String.append_assoc]⟩

theorem Contains.append_left {text part : String} (h : Contains text part) (more : String) :
    Contains (more ++ text) part := by
  obtain ⟨before, after, rfl⟩ := h
  exact ⟨more ++ before, after, by simp only [String.append_assoc]⟩

theorem contains_join {parts : List String} {line part : String} (h : line ∈ parts) (hline : Contains line part) :
    Contains (String.join parts) part := by
  obtain ⟨before, after, rfl⟩ := List.append_of_mem h
  rw [String.join_append, String.join_cons]
  exact (hline.append_right _).append_left _

theorem values_eq_map_toList {α : Type} (t : Std.TreeMap String α) : t.values = t.toList.map (·.2) := by
  change t.foldr (fun _ v l => v :: l) [] = _
  rw [Std.TreeMap.foldr_eq_foldr_toList, List.map_eq_foldr]

theorem mem_values {α : Type} {t : Std.TreeMap String α} {key : String} {v : α} (h : t[key]? = some v) :
    v ∈ t.values := by
  rw [values_eq_map_toList]
  exact List.mem_map.2 ⟨(key, v), Std.TreeMap.mem_toList_iff_getElem?_eq_some.2 h, rfl⟩

theorem exists_of_mem {α : Type} {t : Std.TreeMap String α} {key : String} (h : key ∈ t) : ∃ v, t[key]? = some v :=
  Option.isSome_iff_exists.1 (Std.TreeMap.isSome_getElem?_iff_mem.2 h)

/-- The text of a module defines or declares each symbol that the module knows. -/
theorem exists_introduces (hm : m.Named) {name : String} (h : m.Knows name) :
    ∃ part, Introduces name part ∧ Contains m.text part := by
  unfold text
  rcases h with h | h | h | h
  · obtain ⟨f, hf⟩ := exists_of_mem h
    refine ⟨_, .function f (hm.functions name f hf), ?_⟩
    refine (((Contains.append_left ?_ _).append_right _).append_right _).append_right _
    exact contains_join (List.mem_map.2 ⟨f, mem_values hf, rfl⟩) ((Contains.refl f.text).append_left "\n")
  · obtain ⟨s, hs⟩ := exists_of_mem h
    refine ⟨_, .declaration s, ?_⟩
    refine (Contains.append_left ?_ _).append_right _
    exact contains_join (List.mem_map.2 ⟨(name, s), Std.TreeMap.mem_toList_iff_getElem?_eq_some.2 hs, rfl⟩)
      (.refl _)
  · obtain ⟨type, htype⟩ := exists_of_mem h
    refine ⟨_, .external type, ?_⟩
    refine (((((Contains.append_left ?_ _).append_right _).append_right _).append_right _).append_right
      _).append_right _
    exact contains_join (List.mem_map.2 ⟨(name, type), Std.TreeMap.mem_toList_iff_getElem?_eq_some.2 htype, rfl⟩)
      (.refl _)
  · obtain ⟨d, hd⟩ := exists_of_mem h
    refine ⟨_, .data d (hm.data name d hd), ?_⟩
    refine ((((Contains.append_left ?_ _).append_right _).append_right _).append_right _).append_right _
    exact contains_join (List.mem_map.2 ⟨d, mem_values hd, rfl⟩) ((Contains.refl d.text).append_right "\n")

end Module

end NativeBackend
