import NativeBackend.Proofs.Dispatch.Virtual
import NativeBackend.Proofs.Heap.Closed
import NativeBackend.Proofs.Lowering.SoundMethod
import NativeBackend.Session

namespace NativeBackend

open Lowering Steps

namespace Emission

variable {e e' : Emission} {classes : List ClassDef}

theorem check_eq_ok (h : check e = .ok ⟨⟩ e') : e' = e ∧ e.diagnostics.errorCount = 0 := by
  rw [check, bind_of_ok (get_apply e), Diagnostics.check] at h
  by_cases hnone : e.diagnostics.errorCount = 0
  · rw [if_pos hnone] at h
    cases h
    exact ⟨rfl, hnone⟩
  · rw [if_neg hnone] at h
    cases h

theorem buildTables_advances (h : buildTables classes e = .ok ⟨⟩ e') : e.Advances e' := by
  induction classes generalizing e with
  | nil =>
      cases h
      exact .refl _
  | cons c rest ih =>
      cases hi : c.isInterface with
      | true =>
          simp only [buildTables, hi, if_true] at h
          obtain ⟨_, e₁, hbuild, hrest⟩ := bind_eq_ok.1 h
          obtain ⟨t, e₂, ht, hdone⟩ := bind_eq_ok.1 hbuild
          cases hdone
          exact (itable_advances ht).1.trans (ih hrest)
      | false =>
          simp only [buildTables, hi, Bool.false_eq_true, if_false] at h
          obtain ⟨_, e₁, hbuild, hrest⟩ := bind_eq_ok.1 h
          obtain ⟨t, e₂, ht, hdone⟩ := bind_eq_ok.1 hbuild
          cases hdone
          exact (vtable_advances ht).1.trans (ih hrest)

theorem emitTables_advances (he : e.MarkedKnown) (h : emitTables classes e = .ok ⟨⟩ e') :
    e.Advances e' ∧ ∀ c ∈ classes, c.isConcrete = true → HasVtable c e' ∧ DictionarySettled c e' := by
  induction classes generalizing e with
  | nil =>
      cases h
      exact ⟨.refl _, by simp⟩
  | cons c rest ih =>
      obtain ⟨_, e₁, hvtable, h₁⟩ := bind_eq_ok.1 h
      obtain ⟨_, e₂, hitables, hrest⟩ := bind_eq_ok.1 h₁
      obtain ⟨ha₁, hhas⟩ := emitVtable_advances he hvtable
      have he₁ := he.advances ha₁
      obtain ⟨ha₂, hsettled⟩ := emitItables_advances he₁ hitables
      obtain ⟨ha₃, hall⟩ := ih (he₁.advances ha₂) hrest
      refine ⟨(ha₁.trans ha₂).trans ha₃, fun d hd hconcrete => ?_⟩
      rcases List.mem_cons.1 hd with rfl | hd
      · exact ⟨(hhas hconcrete).advances (ha₂.trans ha₃), (hsettled hconcrete).advances ha₃⟩
      · exact hall d hd hconcrete

theorem emitProgramTables_advances {p : Program} (he : e.MarkedKnown) (h : emitProgramTables p e = .ok ⟨⟩ e') :
    e.Advances e' := by
  obtain ⟨_, e₁, hbuild, h₁⟩ := bind_eq_ok.1 h
  obtain ⟨_, e₂, htables, h₂⟩ := bind_eq_ok.1 h₁
  obtain ⟨_, e₃, hvtables, h₃⟩ := bind_eq_ok.1 h₂
  obtain ⟨_, e₄, hitables, hcheck⟩ := bind_eq_ok.1 h₃
  obtain ⟨rfl, -⟩ := check_eq_ok hcheck
  have ha₁ := buildTables_advances hbuild
  obtain ⟨ha₂, hall⟩ := emitTables_advances (he.advances ha₁) htables
  have ha₃ := emitVtableArray_advances (fun c hc hk => (hall c hc hk).1) hvtables
  have ha₄ := emitItableArray_advances (fun c hc hk => (hall c hc hk).2.advances ha₃) hitables
  exact ((ha₁.trans ha₂).trans ha₃).trans ha₄

/-- A function that a graph was lowered to: it has the name of the method, what it mentions is known, and unless
an error was reported no node of its run had a placeholder. -/
structure LowersTo (e : Emission) (g : Graph) (f : Function) : Prop where
  name : f.name = g.method.symbol
  knows : ∀ name ∈ f.symbols, e.module.Knows name
  whole : e.diagnostics.errorCount = 0 → g.LowersWhole f

theorem LowersTo.advances {g : Graph} {f : Function} (h : e.LowersTo g f) (ha : e.Advances e') :
    e'.LowersTo g f where
  name := h.name
  knows name hname := ha.knows name (h.knows name hname)
  whole hnone := h.whole (Nat.eq_zero_of_le_zero (hnone ▸ ha.errors))

theorem lowerMethods_cons {failFast : Bool} {g : Graph} {graphs : List Graph} {results : List (Except Error Function)}
    (h : lowerMethods failFast (g :: graphs) e = .ok results e') :
    ∃ result e₁ rest, results = result :: rest ∧ (∀ f, result = .ok f → lowerMethod g e = .ok f e₁) ∧
      lowerMethods failFast graphs e₁ = .ok rest e' := by
  cases failFast with
  | true =>
      simp only [lowerMethods, if_true] at h
      obtain ⟨result, e₁, hfirst, h₁⟩ := bind_eq_ok.1 h
      obtain ⟨rest, e₂, hrest, hdone⟩ := bind_eq_ok.1 h₁
      cases hdone
      refine ⟨result, e₁, rest, rfl, ?_, hrest⟩
      rintro f rfl
      rw [EStateM.map] at hfirst
      split at hfirst
      · cases hfirst
        assumption
      · cases hfirst
  | false =>
      simp only [lowerMethods, Bool.false_eq_true, if_false] at h
      obtain ⟨result, e₁, hfirst, h₁⟩ := bind_eq_ok.1 h
      obtain ⟨rest, e₂, hrest, hdone⟩ := bind_eq_ok.1 h₁
      cases hdone
      refine ⟨result, e₁, rest, rfl, ?_, hrest⟩
      rintro f rfl
      rw [attempt] at hfirst
      split at hfirst
      · cases hfirst
        assumption
      · cases hfirst

theorem lowerMethods_advances {failFast : Bool} {graphs : List Graph}
    (hgraphs : ∀ g ∈ graphs, g.WellFormed ∧ g.PointersMade) {fs : List Function}
    (h : lowerMethods failFast graphs e = .ok (fs.map .ok) e') :
    e.Advances e' ∧ List.Forall₂ e'.LowersTo graphs fs := by
  induction graphs generalizing e fs with
  | nil =>
      cases fs with
      | nil =>
          cases h
          exact ⟨.refl _, .nil⟩
      | cons => cases h
  | cons g graphs ih =>
      obtain ⟨result, e₁, rest, hresults, hfirst, hrest⟩ := lowerMethods_cons h
      cases fs with
      | nil => cases hresults
      | cons f fs =>
          cases hresults
          obtain ⟨hg, hpointers⟩ := hgraphs g List.mem_cons_self
          obtain ⟨ha, hname, hknows, hwhole⟩ := lowerMethod_advances hg hpointers (hfirst f rfl)
          obtain ⟨ha', hall⟩ := ih (fun g hg => hgraphs g (List.mem_cons_of_mem _ hg)) hrest
          exact ⟨ha.trans ha', .cons (LowersTo.advances ⟨hname, hknows, hwhole⟩ ha') hall⟩

/-- Functions were added to a module under names that none had. -/
structure AddsFunctions (fs : List Function) (m m' : Module) : Prop where
  nodup : (fs.map (·.name)).Nodup
  new : ∀ f ∈ fs, f.name ∉ m.functions
  mem : ∀ name, name ∈ m'.functions ↔ name ∈ m.functions ∨ name ∈ fs.map (·.name)
  added : ∀ f ∈ fs, m'.functions[f.name]? = some f
  kept : ∀ (name : String) f, m.functions[name]? = some f → m'.functions[name]? = some f
  data : m'.data = m.data
  knows : ∀ name, m.Knows name → m'.Knows name
  named : m.Named → m'.Named
  closed : m.Closed → (∀ f ∈ fs, ∀ name ∈ f.symbols, m.Knows name) → m'.Closed

theorem AddsFunctions.nil (m : Module) : AddsFunctions [] m m where
  nodup := List.nodup_nil
  new := by simp
  mem := by simp
  added := by simp
  kept _ _ h := h
  data := rfl
  knows _ h := h
  named h := h
  closed h _ := h

theorem AddsFunctions.cons {f : Function} {fs : List Function} {m m' m'' : Module} (h : m.addFunction f = .ok m')
    (hrest : AddsFunctions fs m' m'') : AddsFunctions (f :: fs) m m'' := by
  obtain ⟨hnew, hfunctions, hdata, hknows⟩ := Module.addFunction_eq_ok h
  have hmem : ∀ name, name ∈ m'.functions ↔ name = f.name ∨ name ∈ m.functions := by
    intro name
    rw [hfunctions, Std.TreeMap.mem_insert, Std.compare_eq_iff_eq, eq_comm]
  have hfresh : f.name ∉ fs.map (·.name) := by
    intro hname
    obtain ⟨f', hf', heq⟩ := List.mem_map.1 hname
    exact hrest.new f' hf' ((hmem _).2 (.inl heq))
  refine ⟨List.nodup_cons.2 ⟨hfresh, hrest.nodup⟩, ?_, ?_, ?_, ?_, hrest.data.trans hdata, ?_, ?_, ?_⟩
  · intro f' hf' hold
    rcases List.mem_cons.1 hf' with rfl | hf'
    · exact hnew hold
    · exact hrest.new f' hf' ((hmem _).2 (.inr hold))
  · intro name
    rw [hrest.mem, hmem, List.map_cons, List.mem_cons]
    tauto
  · intro f' hf'
    rcases List.mem_cons.1 hf' with rfl | hf'
    · refine hrest.kept _ _ ?_
      rw [hfunctions]
      exact Std.TreeMap.getElem?_insert_self
    · exact hrest.added f' hf'
  · intro name f' hf'
    refine hrest.kept name f' ?_
    rw [hfunctions]
    exact Maps.getElem?_insert_of_new (Std.TreeMap.getElem?_eq_none hnew) hf'
  · exact fun name hname => hrest.knows name (hknows name hname)
  · exact fun hm => hrest.named (hm.addFunction h)
  · intro hm hall
    refine hrest.closed (hm.addFunction h fun name hname => ?_) fun f' hf' name hname => ?_
    · exact hknows name (hall f List.mem_cons_self name hname)
    · exact hknows name (hall f' (List.mem_cons_of_mem _ hf') name hname)

theorem addFunctions_eq_ok {first : Option Error} {results : List (Except Error Function)}
    (h : addFunctions first results e = .ok none e') :
    first = none ∧ ∃ fs m, results = fs.map .ok ∧ e' = { e with module := m } ∧ AddsFunctions fs e.module m := by
  induction results generalizing first e with
  | nil =>
      cases h
      exact ⟨rfl, [], _, rfl, rfl, .nil _⟩
  | cons result results ih =>
      cases result with
      | error err =>
          obtain ⟨hfirst, -⟩ := ih h
          cases first <;> cases hfirst
      | ok f =>
          obtain ⟨_, e₁, hadd, hrest⟩ := bind_eq_ok.1 h
          obtain ⟨m, hm, rfl⟩ := updateModule_eq_ok hadd
          obtain ⟨hfirst, fs, m', rfl, rfl, hadds⟩ := ih hrest
          exact ⟨hfirst, f :: fs, m', rfl, rfl, hadds.cons hm⟩

theorem emitMethods_eq_ok {failFast : Bool} {graphs : List Graph}
    (hgraphs : ∀ g ∈ graphs, g.WellFormed ∧ g.PointersMade) (h : emitMethods failFast graphs e = .ok ⟨⟩ e') :
    ∃ e₁ fs m, e.Advances e₁ ∧ List.Forall₂ e₁.LowersTo graphs fs ∧ e' = { e₁ with module := m } ∧
      AddsFunctions fs e₁.module m ∧ e₁.diagnostics.errorCount = 0 := by
  obtain ⟨results, e₁, hlower, h₁⟩ := bind_eq_ok.1 h
  obtain ⟨firstError, e₂, hadd, h₂⟩ := bind_eq_ok.1 h₁
  obtain ⟨_, e₃, hcheck, h₃⟩ := bind_eq_ok.1 h₂
  obtain ⟨rfl, hnone⟩ := check_eq_ok hcheck
  cases firstError with
  | some err => cases h₃
  | none =>
      cases h₃
      obtain ⟨-, fs, m, rfl, rfl, hadds⟩ := addFunctions_eq_ok hadd
      obtain ⟨ha, hall⟩ := lowerMethods_advances hgraphs hlower
      exact ⟨e₁, fs, m, ha, hall, rfl, hadds, hnone⟩

end Emission

namespace Session

variable {s s' : Session}

theorem produce_run {α : Type} {step : EmitM α} {a : α} (h : produce step s = .ok a s') :
    ∃ e, step s.emission = .ok a e ∧ s' = { s with emission := e } := by
  rw [produce] at h
  split at h
  · rename_i hstep
    cases h
    exact ⟨_, hstep, rfl⟩
  · cases h

theorem emitHeap_run {n : Nat} (h : emitHeap s = .ok n s') :
    ∃ heap m, Heap.emit (s.heap, s.emission.module) = .ok n (heap, m) ∧
      s' = { s with heap := heap, emission.module := m } := by
  rw [emitHeap] at h
  split at h
  · rename_i hemit
    cases h
    exact ⟨_, _, hemit, rfl⟩
  · cases h

/-- A compilation is its phases one after another, each with what the ones before it made. -/
theorem compile_run {graphs : List Graph} {r : CompileResult} (h : compile graphs s = .ok r s') :
    ∃ e₁ e₂ heap m n, Emission.emitProgramTables s.program s.emission = .ok ⟨⟩ e₁ ∧
      Emission.emitMethods s.options.parallel.failFast graphs e₁ = .ok ⟨⟩ e₂ ∧
      Heap.emit (s.heap, e₂.module) = .ok n (heap, m) ∧ e₂.diagnostics.errorCount = 0 ∧
      s'.emission = { e₂ with module := m } ∧ s'.heap = heap ∧ r.ir = m.text := by
  rw [compile, bind_of_ok (get_apply s)] at h
  cases hvalid : s.options.validate with
  | error err =>
      simp only [hvalid] at h
      cases h
  | ok _ =>
      simp only [hvalid] at h
      obtain ⟨_, s₁, h₁, h⟩ := bind_eq_ok.1 h
      obtain ⟨e₁, htables, rfl⟩ := produce_run h₁
      obtain ⟨_, s₂, h₂, h⟩ := bind_eq_ok.1 h
      obtain ⟨e₂, hmethods, rfl⟩ := produce_run h₂
      obtain ⟨n, s₃, h₃, h⟩ := bind_eq_ok.1 h
      obtain ⟨heap, m, hheap, rfl⟩ := emitHeap_run h₃
      obtain ⟨_, s₄, h₄, h⟩ := bind_eq_ok.1 h
      obtain ⟨e₃, hcheck, rfl⟩ := produce_run h₄
      obtain ⟨rfl, hnone⟩ := Emission.check_eq_ok hcheck
      cases h
      exact ⟨e₁, e₂, heap, m, n, htables, hmethods, hheap, hnone, rfl, rfl, rfl⟩

theorem wellFormed_of_finished {graphs : List Graph}
    (hgraphs : ∀ g ∈ graphs, ∃ m b, Builder.Built m b ∧ b.finish = .ok g)
    (hpointers : ∀ g ∈ graphs, g.PointersMade) : ∀ g ∈ graphs, g.WellFormed ∧ g.PointersMade := by
  intro g hg
  obtain ⟨_, _, hbuilt, hfinish⟩ := hgraphs g hg
  exact ⟨hbuilt.wellFormed hfinish, hpointers g hg⟩

/-- A compilation that succeeds reported no error, defines one function for each graph and no other, has a
placeholder for no node, and its text defines or declares every symbol that a function or an initializer mentions. -/
theorem compile_complete {o : Options} {p : Program} {live : Reachability} {h : Heap} (hheap : Heap.Prepared p h)
    {graphs : List Graph} (hgraphs : ∀ g ∈ graphs, ∃ m b, Builder.Built m b ∧ b.finish = .ok g)
    (hpointers : ∀ g ∈ graphs, g.PointersMade) {r : CompileResult}
    (hcompile : compile graphs { start o p live with heap := h } = .ok r s) :
    s.emission.diagnostics.errors = [] ∧
      s.emission.module.functions.keys.Perm (graphs.map (·.method.symbol)) ∧
      (∀ g ∈ graphs, ∃ f, s.emission.module.functions[g.method.symbol]? = some f ∧ f.name = g.method.symbol ∧
        g.LowersWhole f) ∧
      r.ir = s.emission.module.text ∧
      ∀ name, s.emission.module.Mentions name →
        ∃ part, Module.Introduces name part ∧ Module.Contains r.ir part := by
  obtain ⟨e₁, e₂, heap, m, n, htables, hmethods, hemit, hnone, hfinal, -, hir⟩ := compile_run hcompile
  have hsound := wellFormed_of_finished hgraphs hpointers
  have ha₁ := Emission.emitProgramTables_advances (by simp [Emission.MarkedKnown, start, Emission.ofOptions]) htables
  obtain ⟨e, fs, m', ha₂, hlowers, rfl, hadds, hnone'⟩ := Emission.emitMethods_eq_ok hsound hmethods
  have ha := ha₁.trans ha₂
  have hnamed : e.module.Named := ha.named ⟨by simp [start, Emission.ofOptions], by simp [start, Emission.ofOptions]⟩
  have hclosed : e.module.Closed := ha.closed (by simp [Module.Closed, Module.Mentions, start, Emission.ofOptions])
  have hempty : e.module.functions = ∅ := ha.functions
  obtain ⟨hclosed', hnamed', hfunctions⟩ := Heap.emit_closed hheap (hadds.named hnamed)
    (hadds.closed hclosed fun f hf => (Lists.exists_of_mem_right hlowers hf).elim fun g hg => hg.2.knows) hemit
  rw [hfinal, hir]
  refine ⟨List.length_eq_zero_iff.1 hnone, ?_, fun g hg => ?_, rfl, fun name hname => ?_⟩
  · have hnames : fs.map (·.name) = graphs.map (·.method.symbol) := by
      rw [← List.forall₂_eq_eq_eq, List.forall₂_map_left_iff, List.forall₂_map_right_iff]
      exact hlowers.flip.imp fun _ _ hlower => hlower.name
    dsimp only
    rw [hfunctions, ← hnames, List.perm_ext_iff_of_nodup Std.TreeMap.nodup_keys hadds.nodup]
    intro name
    rw [Std.TreeMap.mem_keys, hadds.mem, hempty]
    simp
  · obtain ⟨f, hf, hlower⟩ := Lists.exists_of_mem_left hlowers hg
    refine ⟨f, ?_, hlower.name, hlower.whole hnone'⟩
    dsimp only
    rw [hfunctions, ← hlower.name]
    exact hadds.added f hf
  · exact Module.exists_introduces hnamed' (hclosed' name hname)

end Session

namespace Example

open Emission

def hear : Method := .declare "zoo/Dog" "hear" ⟨[.object "java/lang/Object"], .void⟩ { isStatic := true } true

def speaking : Builder := Request.applyAll (.start (speak "zoo/Dog" {}))
  [.pointerLiteral (.global (heapSymbol 0) .void), .call hear [1], .returnVoid]

def treats : Heap where
  store := #[.arrayOf (.int [1, 2]), .arrayOf (.reference [some 0, none])]
  interned := [1]

def zoo : Session := { Session.start {} ⟨[animal, dog]⟩ .everything with heap := treats }

theorem treats_prepared (p : Program) : Heap.Prepared p treats := by
  have hplain : Heap.Prepared p (({} : Heap).allocate (.arrayOf (.int [1, 2]))).2 := by
    refine .allocate .fresh ?_
    rintro id ⟨v, hv, rfl⟩
    simp [HeapArray.values] at hv
  have hlinked : Heap.Prepared p _ := .allocate (o := .arrayOf (.reference [some 0, none])) hplain <| by
    rintro id ⟨v, hv, rfl⟩
    obtain rfl : id = 0 := by simpa [HeapArray.values] using hv
    decide
  exact @Heap.Prepared.intern p _ 1 hlinked (by decide)

theorem speaking_pointersMade : speaking.graph.PointersMade := by
  have hkinds : speaking.graph.nodes.map (·.kind) = #[.action (.blockEntry 0),
      .value ⟨.pointer .void, .pointerLiteral (.global (heapSymbol 0) .void)⟩,
      .value ⟨.void, .call (.direct hear) [1] 0⟩, .terminator (.ret none 2)] := by cbv
  intro n type p hk
  have hmem : NodeKind.value ⟨type, .pointerLiteral p⟩ ∈ speaking.graph.nodes.map (·.kind) :=
    Array.mem_of_getElem? ((Array.getElem?_map ..).trans hk)
  rw [hkinds] at hmem
  obtain ⟨-, rfl⟩ : type = .pointer .void ∧ p = .global (heapSymbol 0) .void := by simpa using hmem
  exact .global _ _

def compiles (graphs : List Graph) (s : Session) : Bool :=
  match Session.compile graphs s with
  | .ok _ _ => true
  | .error _ _ => false

theorem exists_of_compiles {graphs : List Graph} {s : Session} (h : compiles graphs s = true) :
    ∃ r s', Session.compile graphs s = .ok r s' := by
  rw [compiles] at h
  cases hcompile : Session.compile graphs s with
  | ok r s' => exact ⟨r, s', rfl⟩
  | error err s' =>
      rw [hcompile] at h
      cases h

theorem speaking_compiles : compiles [speaking.graph] zoo = true := by
  have hschedule : Schedule.compute speaking.graph = .ok ⟨[0], ⟨0, #[some 0], #[0]⟩,
      #[[.node 2], [.node 2], [.node 3], []], #[some 0, some 0, some 0, some 0]⟩ := by
    cbv
  have hsignature : speaking.graph.method.functionType.target = .ok ⟨.void, [.ptr]⟩ := by cbv
  -- the search for reachable blocks does not compute in the kernel, so the schedule is put in its place
  simp only [compiles, Session.compile, emitMethods, lowerMethods, lowerMethod_of_schedule hsignature hschedule]
  decide +kernel

theorem compile_zoo_complete : ∃ r s, Session.compile [speaking.graph] zoo = .ok r s ∧
    s.emission.diagnostics.errors = [] ∧ s.emission.module.functions.keys.Perm ["zoo.Dog.speak()V"] ∧
    (∃ f, s.emission.module.functions["zoo.Dog.speak()V"]? = some f ∧ speaking.graph.LowersWhole f) ∧
    ∀ name, s.emission.module.Mentions name → ∃ part, Module.Introduces name part ∧ Module.Contains r.ir part := by
  have hfinish : speaking.finish = .ok speaking.graph := Builder.finish_of_matches (by cbv)
  have hsymbol : speaking.graph.method.symbol = "zoo.Dog.speak()V" := by cbv
  obtain ⟨r, s, hcompile⟩ := exists_of_compiles speaking_compiles
  obtain ⟨hnone, hnames, hfunctions, -, hclosed⟩ := Session.compile_complete (treats_prepared _)
    (fun g hg => List.mem_singleton.1 hg ▸ ⟨_, speaking, .applyAll .start _, hfinish⟩)
    (fun g hg => List.mem_singleton.1 hg ▸ speaking_pointersMade) hcompile
  obtain ⟨f, hf, -, hwhole⟩ := hfunctions _ (List.mem_singleton_self _)
  rw [List.map_singleton, hsymbol] at hnames
  rw [hsymbol] at hf
  exact ⟨r, s, hcompile, hnone, hnames, ⟨f, hf, hwhole⟩, hclosed⟩

end Example

end NativeBackend
