import NativeBackend.Dispatch.Table
import NativeBackend.Proofs.Class.Apart
import NativeBackend.Proofs.Descriptor
import NativeBackend.Proofs.Lowering.Lowered

namespace NativeBackend

theorem MethodDescriptor.eq_of_text {d d' : MethodDescriptor} {text text' : String} (hd : parse text = .ok d)
    (hd' : parse text' = .ok d') (h : d.text = d'.text) : d = d' := by
  obtain ⟨-, htext, -⟩ := parse_eq_ok_iff.1 hd
  obtain ⟨-, htext', -⟩ := parse_eq_ok_iff.1 hd'
  obtain rfl : text = text' := by rw [← htext, ← htext', h]
  exact Except.ok.inj (hd.symm.trans hd')

def PlainInSymbol (name : String) : Prop := '.' ∉ name.toList ∧ '(' ∉ name.toList

theorem PlainInSymbol.notMem_dotted {name : String} (h : PlainInSymbol name) : '(' ∉ (dotted name).toList := by
  rw [dotted, String.toList_map, List.mem_map]
  rintro ⟨a, ha, hopen⟩
  split at hopen
  · exact absurd hopen (by decide)
  · exact h.2 (hopen ▸ ha)

theorem PlainInSymbol.eq_of_dotted {name name' : String} (h : PlainInSymbol name) (h' : PlainInSymbol name')
    (heq : dotted name = dotted name') : name = name' := by
  rw [← String.toList_inj, ← slashed_dotted h.1, ← slashed_dotted h'.1, heq]

theorem Routine.symbol_injective {r r' : Routine} (h : r.symbol = r'.symbol) : r = r' := by
  have hall : ∀ r : Routine, r ∈ all := by
    intro r
    cases r <;> decide
  exact List.inj_on_of_nodup_map (by decide : (all.map symbol).Nodup) (hall r) (hall r') h

namespace Method

structure Plain (m : Method) : Prop where
  enclosing : PlainInSymbol m.enclosing
  name : PlainInSymbol m.name
  descriptor : ∃ text, MethodDescriptor.parse text = .ok m.descriptor

theorem toList_symbol (m : Method) :
    m.symbol.toList = ((dotted m.enclosing).toList ++ '.' :: m.name.toList) ++ m.descriptor.chars := by
  simp [symbol, MethodDescriptor.text]

variable {m n : Method}

/-- A symbol is cut in front of the descriptor, where it has its first parenthesis, and what comes before at its last
dot. -/
theorem eq_of_symbol (hm : m.Plain) (hn : n.Plain) (h : m.symbol = n.symbol) :
    m.enclosing = n.enclosing ∧ m.name = n.name ∧ m.descriptor = n.descriptor := by
  have hopen : ∀ {k : Method}, k.Plain → '(' ∉ (dotted k.enclosing).toList ++ '.' :: k.name.toList := by
    intro k hk
    simp [hk.enclosing.notMem_dotted, hk.name.2]
  rw [← String.toList_inj, toList_symbol, toList_symbol] at h
  obtain ⟨hnames, hdescriptor⟩ := eq_of_cut_eq (hopen hm) (hopen hn) h
  have hreversed := congrArg List.reverse hnames
  simp only [List.reverse_append, List.reverse_cons, List.append_assoc, List.singleton_append] at hreversed
  obtain ⟨hname, henclosing⟩ := eq_of_cut_eq (mt List.mem_reverse.1 hm.name.1) (mt List.mem_reverse.1 hn.name.1)
    hreversed
  obtain ⟨text, hd⟩ := hm.descriptor
  obtain ⟨text', hd'⟩ := hn.descriptor
  refine ⟨hm.enclosing.eq_of_dotted hn.enclosing (String.toList_inj.1 (List.reverse_inj.1 henclosing)),
    String.toList_inj.1 (List.reverse_inj.1 hname), MethodDescriptor.eq_of_text hd hd' ?_⟩
  rw [MethodDescriptor.text, MethodDescriptor.text, MethodDescriptor.chars, MethodDescriptor.chars, hdescriptor]

/-- The output keeps two methods apart. The function that one is lowered to takes neither the place of the other's
function nor of its declaration, and neither does a declaration. Nor does a table slot of one point at the other: where
the slots of both hold the same symbol, it is that of a stub, which is the function of neither. -/
structure Unshared (m n : Method) : Prop where
  function : ∀ {g : Graph} {e e' : Emission} {f : Function} {M M' : Module}, g.method = m →
    lowerMethod g e = .ok f e' → M.addFunction f = .ok M' →
    M'.functions[n.symbol]? = M.functions[n.symbol]? ∧ M'.declarations[n.symbol]? = M.declarations[n.symbol]?
  declaration : ∀ (M : Module) (signature : Signature),
    (M.declareFunction m.symbol signature).declarations[n.symbol]? = M.declarations[n.symbol]?
  slot : (SlotTarget.ofMethod m).symbol = (SlotTarget.ofMethod n).symbol →
    ∃ r, SlotTarget.ofMethod m = .stub r ∧ SlotTarget.ofMethod n = .stub r

theorem symbol_ne_routine (m : Method) (r : Routine) : m.symbol ≠ r.symbol := by
  intro h
  have hmem : '(' ∈ m.symbol.toList := by
    rw [toList_symbol]
    exact List.mem_append_right _ List.mem_cons_self
  rw [h] at hmem
  revert hmem
  cases r <;> decide

theorem slotTarget_cases (m : Method) :
    SlotTarget.ofMethod m = .method m ∨ ∃ r, SlotTarget.ofMethod m = .stub r := by
  rw [SlotTarget.ofMethod]
  split
  · exact .inr ⟨_, rfl⟩
  · split
    · exact .inl rfl
    · exact .inr ⟨_, rfl⟩

theorem Unshared.of_symbol_ne (h : m.symbol ≠ n.symbol) : m.Unshared n where
  function := by
    rintro g e e' f M M' rfl hlower hadd
    obtain ⟨signature, s, s', -, -, -, rfl, -⟩ := Lowering.exists_lowerGraph hlower
    rw [Module.addFunction] at hadd
    split at hadd
    · cases hadd
    · cases hadd
      have hne : compare g.method.symbol n.symbol ≠ .eq := mt Std.compare_eq_iff_eq.1 h
      exact ⟨Maps.getElem?_insert_of_ne h _, by rw [Std.TreeMap.getElem?_erase, if_neg hne]⟩
  declaration M signature := by
    rw [Module.declareFunction]
    split
    · rfl
    · dsimp only
      rw [Std.TreeMap.getElem?_insertIfNew, if_neg fun hsame => h (Std.compare_eq_iff_eq.1 hsame.1)]
  slot hsame := by
    rcases m.slotTarget_cases with hm | ⟨r, hm⟩ <;> rcases n.slotTarget_cases with hn | ⟨r', hn⟩ <;>
      rw [hm, hn] at hsame
    · exact absurd hsame h
    · exact absurd hsame (m.symbol_ne_routine r')
    · exact absurd hsame.symm (n.symbol_ne_routine r)
    · obtain rfl : r = r' := Routine.symbol_injective hsame
      exact ⟨r, hm, hn⟩

end Method

namespace ClassDef

/-- The name of the class and those of its methods can be told from what surrounds them in a symbol. -/
def PlainInSymbols (c : ClassDef) : Prop := PlainInSymbol c.name ∧ ∀ m ∈ c.methods, PlainInSymbol m.name

theorem methods_of_build {name : String} {typeId : Nat} {kind : ClassKind} {parent : Option ClassDef}
    {interfaces : List ClassDef} {methods : List MethodDecl} {fields : List FieldDecl} {c : ClassDef}
    (h : build name typeId kind parent interfaces methods fields = .ok c) :
    ∀ m ∈ c.methods, m.enclosing = c.name ∧ ∃ text, MethodDescriptor.parse text = .ok m.descriptor := by
  obtain ⟨ms, hms, h⟩ := Steps.except_bind_eq_ok.1 h
  obtain ⟨decls, -, h⟩ := Steps.except_bind_eq_ok.1 h
  cases h
  intro m hm
  obtain ⟨decl, -, hdecl⟩ := (Steps.mem_of_mapM_eq_ok hms).1 hm
  obtain ⟨d, hd, hdone⟩ := Steps.except_bind_eq_ok.1 hdecl
  cases hdone
  exact ⟨rfl, decl.descriptor, hd⟩

theorem Made.plain {c : ClassDef} (hc : c.Made) (hplain : c.PlainInSymbols) : ∀ m ∈ c.methods, m.Plain := by
  obtain ⟨-, h⟩ := hc
  intro m hm
  obtain ⟨henclosing, hdescriptor⟩ := methods_of_build h m hm
  exact ⟨henclosing ▸ hplain.1, hplain.2 m hm, hdescriptor⟩

theorem Made.enclosing {c : ClassDef} (hc : c.Made) : ∀ m ∈ c.methods, m.enclosing = c.name := by
  obtain ⟨-, h⟩ := hc
  exact fun m hm => (methods_of_build h m hm).1

end ClassDef

/-- Where names have no dot and no opening parenthesis, a symbol says which method of which class is meant. So in the
output for a program of such names nothing is shared by methods of two classes, or of two selectors. -/
theorem method_of_symbol :
    (∀ m n : Method, m.Plain → n.Plain → m.symbol = n.symbol →
      m.enclosing = n.enclosing ∧ m.name = n.name ∧ m.descriptor = n.descriptor) ∧
    ∀ p : Program, p.Accepted → (∀ c ∈ p.classes, c.Made ∧ c.PlainInSymbols) →
      ∀ c ∈ p.classes, ∀ d ∈ p.classes, ∀ m ∈ c.methods, ∀ n ∈ d.methods,
        ¬ (c = d ∧ m.sameSelector n = true) → m.Unshared n := by
  refine ⟨fun m n hm hn => Method.eq_of_symbol hm hn, fun p hp hclasses c hc d hd m hm n hn hother => ?_⟩
  obtain ⟨hmade, hplain⟩ := hclasses c hc
  obtain ⟨hmade', hplain'⟩ := hclasses d hd
  refine .of_symbol_ne fun hsymbol => hother ?_
  obtain ⟨henclosing, hname, hdescriptor⟩ :=
    Method.eq_of_symbol (hmade.plain hplain m hm) (hmade'.plain hplain' n hn) hsymbol
  rw [hmade.enclosing m hm, hmade'.enclosing n hn] at henclosing
  exact ⟨List.inj_on_of_nodup_map hp.nodup_name hc hd henclosing,
    by simp [Method.sameSelector, Method.hasSelector, hname, hdescriptor]⟩

def kennel : ClassDef := ⟨"zoo", 19, .concrete, none, [], [.declare "zoo" "Dog" ⟨[], .void⟩ {} true], [], 8⟩

def barkAt : Method := .declare "zoo/Dog" "bark" ⟨[.object "zoo/Cat.old(1"], .void⟩ {} true

def barkAlone : Method := .declare "zoo/Dog" "bark" ⟨[], .void⟩ {} true

def hound : ClassDef := ⟨"zoo/Dog", 20, .concrete, none, [], [barkAt, barkAlone], [], 8⟩

theorem kennel_made : kennel.Made :=
  @ClassDef.Made.of_build "zoo" 19 .concrete none [] [⟨"Dog", "()V", {}, true⟩] [] kennel (by rintro _ ⟨⟩) (by cbv)

theorem hound_made : hound.Made :=
  @ClassDef.Made.of_build "zoo/Dog" 20 .concrete none []
    [⟨"bark", "(Lzoo/Cat.old(1;)V", {}, true⟩, ⟨"bark", "()V", {}, true⟩] [] hound (by rintro _ ⟨⟩) (by cbv)

theorem method_of_symbol_zoo :
    barkAt.Plain ∧ barkAlone.Plain ∧ barkAt.symbol ≠ barkAlone.symbol ∧
      (⟨[kennel, hound]⟩ : Program).Accepted ∧ barkAt.Unshared barkAlone ∧
      (Method.declare "zoo" "Dog" ⟨[], .void⟩ {} true).Unshared barkAlone := by
  have hkennel : kennel.PlainInSymbols :=
    ⟨⟨by decide, by decide⟩, List.forall_mem_singleton.2 ⟨by decide, by decide⟩⟩
  have hhound : hound.PlainInSymbols :=
    ⟨⟨by decide, by decide⟩, List.forall_mem_cons.2 ⟨⟨by decide, by decide⟩,
      List.forall_mem_singleton.2 ⟨by decide, by decide⟩⟩⟩
  have hplain := hound_made.plain hhound
  have haccepted : (⟨[kennel, hound]⟩ : Program).Accepted :=
    .add (c := hound) (.add (c := kennel) .empty rfl) rfl
  have hclasses : ∀ c ∈ (⟨[kennel, hound]⟩ : Program).classes, c.Made ∧ c.PlainInSymbols :=
    List.forall_mem_cons.2 ⟨⟨kennel_made, hkennel⟩, List.forall_mem_singleton.2 ⟨hound_made, hhound⟩⟩
  have hat : barkAt.Plain := hplain barkAt (by simp [hound])
  have halone : barkAlone.Plain := hplain barkAlone (by simp [hound])
  refine ⟨hat, halone, fun h => ?_, haccepted, ?_, ?_⟩
  · have := (method_of_symbol.1 barkAt barkAlone hat halone h).2.2
    revert this
    decide
  · exact method_of_symbol.2 _ haccepted hclasses hound (by simp) hound (by simp) barkAt (by simp [hound]) barkAlone
      (by simp [hound]) fun h => absurd h.2 (by decide)
  · exact method_of_symbol.2 _ haccepted hclasses kennel (by simp) hound (by simp) _ (by simp [kennel]) barkAlone
      (by simp [hound]) fun h => absurd (congrArg ClassDef.typeId h.1) (by decide)

end NativeBackend
