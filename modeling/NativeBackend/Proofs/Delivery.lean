import NativeBackend.Proofs.Dispatch.Requests
import NativeBackend.Proofs.Session

namespace NativeBackend

open Steps

namespace Emission

variable {p : Program} {e e' start : Emission} {requests : List TableRequest}

theorem Delivered.keeps (h : Delivered p start requests e) (hkeeps : Keeps e e') : Delivered p start requests e' where
  live := hkeeps.live.trans h.live
  held r hr hrp := (h.held r hr hrp).keeps hkeeps
  vtables := by
    obtain ⟨entries, harray, hentries⟩ := h.vtables
    exact ⟨entries, hkeeps.data _ _ harray, hentries⟩
  dictionaries := by
    obtain ⟨entries, harray, hunshared, hentries⟩ := h.dictionaries
    refine ⟨entries, hkeeps.data _ _ harray, hunshared, fun c hc hk hrequest => ?_⟩
    rw [hentries c hc hk hrequest, (h.held _ hrequest ⟨hc, hk⟩).1.any_hasSlots_eq hkeeps]

theorem buildTables_grows (hp : p.Accepted) (he : Cached p e) {classes : List ClassDef}
    (hin : ∀ c ∈ classes, c ∈ p.classes) (h : buildTables classes e = .ok ⟨⟩ e') : Grows p [] e e' := by
  induction classes generalizing e with
  | nil =>
      cases h
      exact .refl _ _ _
  | cons c classes ih =>
      have hlater : ∀ {e₁}, Grows p [] e e₁ → buildTables classes e₁ = .ok ⟨⟩ e' → Grows p [] e e' := fun hg hrest =>
        hg.trans (ih (hg.cached he) (fun d hd => hin d (List.mem_cons_of_mem _ hd)) hrest)
      cases hi : c.isInterface with
      | true =>
          simp only [buildTables, hi, if_true] at h
          obtain ⟨_, e₁, hbuild, hrest⟩ := bind_eq_ok.1 h
          obtain ⟨t, e₂, ht, hdone⟩ := bind_eq_ok.1 hbuild
          cases hdone
          exact hlater (itable_grows [] ht).1 hrest
      | false =>
          simp only [buildTables, hi, Bool.false_eq_true, if_false] at h
          obtain ⟨_, e₁, hbuild, hrest⟩ := bind_eq_ok.1 h
          obtain ⟨t, e₂, ht, hdone⟩ := bind_eq_ok.1 hbuild
          cases hdone
          obtain ⟨e₃, hv, hg⟩ := vtable_grows hp he (hin c List.mem_cons_self) hi
          cases hv.symm.trans ht
          exact hlater hg hrest

def tableRequests (classes : List ClassDef) : List TableRequest := classes.flatMap fun c => [.vtable c, .itables c]

theorem mem_tableRequests {classes : List ClassDef} {r : TableRequest} :
    r ∈ tableRequests classes ↔ r.owner ∈ classes := by
  cases r <;> simp [tableRequests, TableRequest.owner]

theorem emitTables_eq_forM (classes : List ClassDef) : emitTables classes = (tableRequests classes).forM meet := by
  induction classes with
  | nil => rfl
  | cons c classes ih =>
      rw [emitTables, ih]
      rfl

/-- Where the tables of a program are apart, all of them are there once they are emitted, with the arrays that lead to
them. -/
theorem emitProgramTables_delivered (hp : p.Accepted) (hapart : p.TablesApart) (he : Unemitted p e)
    (h : emitProgramTables p e = .ok ⟨⟩ e') : Delivered p e (tableRequests p.classes) e' := by
  obtain ⟨_, e₁, hbuild, h₁⟩ := bind_eq_ok.1 h
  obtain ⟨_, e₂, htables, h₂⟩ := bind_eq_ok.1 h₁
  obtain ⟨_, e₃, hvtables, h₃⟩ := bind_eq_ok.1 h₂
  obtain ⟨_, e₄, hitables, hcheck⟩ := bind_eq_ok.1 h₃
  obtain ⟨rfl, -⟩ := check_eq_ok hcheck
  have hbuilt := (Owned.of_unemitted he).grows (buildTables_grows hp he.cached (fun _ hc => hc) hbuild)
  rw [emitTables_eq_forM] at htables
  rcases forM_meet_owned hp hapart hbuilt fun r hr => mem_tableRequests.1 hr with ⟨_, hrun, howned⟩ | ⟨_, _, hrun, -⟩
  · cases hrun.symm.trans htables
    have hall : Owned p e (tableRequests p.classes) e₂ := howned.of_mem_iff (by simp)
    rcases emitArrays_delivered hp hapart hall with ⟨_, hrun, hdelivered⟩ | ⟨_, _, hrun, -⟩
    · cases hrun.symm.trans ((bind_of_ok hvtables _).trans hitables)
      exact hdelivered
    · cases hrun.symm.trans ((bind_of_ok hvtables _).trans hitables)
  · cases hrun.symm.trans htables

theorem emitMethods_keeps {failFast : Bool} {graphs : List Graph}
    (hgraphs : ∀ g ∈ graphs, g.WellFormed ∧ g.PointersMade) (h : emitMethods failFast graphs e = .ok ⟨⟩ e') :
    Keeps e e' := by
  obtain ⟨e₁, fs, m, ha, -, rfl, hadds, -⟩ := emitMethods_eq_ok hgraphs h
  exact ha.toKeeps.trans (.of_data fun _ _ hd => by rw [hadds.data, hd])

end Emission

namespace Heap

theorem Linked.exists_data {h h' : Heap} {m m' : Module} {n : Nat} (hl : Linked h) (hnone : h.emitted = 0)
    (hemit : Heap.emit (h, m) = .ok n (h', m')) {k : Nat} (hk : k < h'.length) :
    ∃ id o d, h'.interned[k]? = some id ∧ h'.store[id]? = some o ∧ m'.data[heapSymbol k]? = some d ∧
      Holds h' d.type d.value o := by
  obtain ⟨hlinked, -, -, hall⟩ := hl.emit (s := (h, m)) hemit
  have hid := List.getElem?_eq_getElem hk
  have ho := Array.getElem?_eq_getElem (hlinked.interned _ (List.mem_of_getElem? hid))
  obtain ⟨d, hd, hholds, -⟩ := (emitted_of_emit hemit).defined k (by rw [hnone]; exact Nat.zero_le k)
    (Nat.lt_of_lt_of_le hk hall) _ _ hid ho
  exact ⟨_, _, d, hid, ho, hd, hholds⟩

end Heap

namespace Session

variable {s : Session} {o : Options} {p : Program} {live : Reachability} {h : Heap} {graphs : List Graph}
  {r : CompileResult}

/-- After a compilation that succeeds, the module has the data of all interned objects. -/
theorem compile_defines_objects (hheap : Heap.Prepared p h)
    (hcompile : compile graphs { start o p live with heap := h } = .ok r s) {k : Nat} (hk : k < s.heap.length) :
    ∃ id object d, s.heap.interned[k]? = some id ∧ s.heap.store[id]? = some object ∧
      s.emission.module.data[heapSymbol k]? = some d ∧ Heap.Holds s.heap d.type d.value object := by
  obtain ⟨e₁, e₂, heap, m, n, -, -, hemit, -, hfinal, rfl, -⟩ := compile_run hcompile
  obtain ⟨hlinked, hnone⟩ := hheap.linked
  rw [hfinal]
  exact hlinked.exists_data hnone hemit hk

/-- It has all tables of the program too, if their symbols are apart, and the arrays that lead to them. -/
theorem compile_delivers_tables (hp : p.Accepted) (hapart : p.TablesApart)
    (hgraphs : ∀ g ∈ graphs, ∃ m b, Builder.Built m b ∧ b.finish = .ok g) (hpointers : ∀ g ∈ graphs, g.PointersMade)
    (hcompile : compile graphs { start o p live with heap := h } = .ok r s) :
    Emission.Delivered p (start o p live).emission (Emission.tableRequests p.classes) s.emission := by
  obtain ⟨e₁, e₂, heap, m, n, htables, hmethods, hemit, -, hfinal, -⟩ := compile_run hcompile
  have hunemitted : Emission.Unemitted p (start o p live).emission :=
    ⟨fun _ _ ht => by simp [start, Emission.ofOptions] at ht, rfl, rfl⟩
  have hsound := wellFormed_of_finished hgraphs hpointers
  rw [hfinal]
  exact (Emission.emitProgramTables_delivered hp hapart hunemitted htables).keeps
    ((Emission.emitMethods_keeps hsound hmethods).trans (.of_data (Heap.emitted_of_emit hemit).keeps))

end Session

end NativeBackend
