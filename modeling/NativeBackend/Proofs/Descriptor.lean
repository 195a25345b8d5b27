import Mathlib.Data.List.TakeWhile
import NativeBackend.Descriptor

namespace NativeBackend

theorem cut_at {c : Char} {before : List Char} (h : c ∉ before) (after : List Char) :
    (before ++ c :: after).takeWhile (· != c) = before ∧ (before ++ c :: after).dropWhile (· != c) = c :: after := by
  have hall : ∀ x ∈ before, (x != c) = true := fun x hx => bne_iff_ne.2 fun heq => h (heq ▸ hx)
  rw [List.takeWhile_append_of_pos hall, List.dropWhile_append_of_pos hall]
  simp

theorem eq_of_cut_eq {c : Char} {before before' after after' : List Char} (h : c ∉ before) (h' : c ∉ before')
    (heq : before ++ c :: after = before' ++ c :: after') : before = before' ∧ after = after' := by
  obtain ⟨htake, hdrop⟩ := cut_at h after
  obtain ⟨htake', hdrop'⟩ := cut_at h' after'
  rw [heq] at htake hdrop
  exact ⟨htake.symm.trans htake', (List.cons.inj (hdrop.symm.trans hdrop')).2⟩

theorem eq_of_cut {c x : Char} {cs after : List Char} (h : cs.dropWhile (· != c) = x :: after) :
    cs = cs.takeWhile (· != c) ++ c :: after ∧ c ∉ cs.takeWhile (· != c) := by
  have hx : x = c := by
    have hhead := List.head_dropWhile_not (· != c) (l := cs) (by simp [h])
    simpa [h] using hhead
  subst hx
  refine ⟨?_, fun hmem => by simpa using List.mem_takeWhile_imp hmem⟩
  rw [← h, List.takeWhile_append_dropWhile]

namespace Descriptor

/-- A class name in a descriptor is not empty, and has no semicolon, which ends it. -/
def WellNamed : Descriptor → Prop
  | .object name => name ≠ "" ∧ ';' ∉ name.toList
  | .array element => element.WellNamed
  | _ => True

theorem exists_chars (d : Descriptor) : ∃ c cs, d.chars = c :: cs := by
  cases d <;> exact ⟨_, _, rfl⟩

/-- A descriptor is read back from its text, whatever follows. -/
theorem read?_chars {d : Descriptor} (hd : d.WellNamed) (rest : List Char) :
    read? (d.chars ++ rest) = some (d, rest) := by
  induction d with
  | object name =>
      obtain ⟨hne, hnot⟩ := hd
      obtain ⟨htake, hdrop⟩ := cut_at hnot rest
      obtain ⟨first, others, hname⟩ := List.exists_cons_of_ne_nil (mt String.toList_eq_nil_iff.1 hne)
      rw [chars, List.cons_append, List.append_assoc, List.singleton_append, read?]
      simp only [htake.trans hname, hdrop]
      rw [← hname, String.ofList_toList]
  | array element ih =>
      rw [chars, List.cons_append, read?, ih hd]
      rfl
  | _ => rfl

theorem eq_of_read? {cs rest : List Char} {d : Descriptor} (h : read? cs = some (d, rest)) :
    d.WellNamed ∧ cs = d.chars ++ rest := by
  induction cs generalizing d rest with
  | nil => cases h
  | cons c cs ih =>
      unfold read? at h
      split at h
      case h_10 =>
        split at h
        case h_1 first others _ tail htake hdrop =>
          cases h
          obtain ⟨hcut, hnot⟩ := eq_of_cut hdrop
          rw [htake] at hcut hnot
          refine ⟨⟨?_, by simpa using hnot⟩, ?_⟩
          · simp [← String.toList_eq_nil_iff]
          · simp [chars, hcut]
        case h_2 => cases h
      case h_11 =>
        obtain ⟨⟨element, tail⟩, helement, heq⟩ := Option.map_eq_some_iff.1 h
        cases heq
        obtain ⟨hd, rfl⟩ := ih helement
        exact ⟨hd, rfl⟩
      case h_12 => cases h
      all_goals
        cases h
        exact ⟨trivial, rfl⟩

theorem read?_eq_some_iff {cs rest : List Char} {d : Descriptor} :
    read? cs = some (d, rest) ↔ d.WellNamed ∧ cs = d.chars ++ rest := by
  refine ⟨eq_of_read?, ?_⟩
  rintro ⟨hd, rfl⟩
  exact read?_chars hd rest

theorem parse_eq_ok_iff {text : String} {d : Descriptor} : parse text = .ok d ↔ d.WellNamed ∧ d.text = text := by
  have hread : parse text = .ok d ↔ read? text.toList = some (d, []) := by
    unfold parse
    split
    · simp [*]
    · simp [*]
    · simp [*]
  rw [hread, read?_eq_some_iff, List.append_nil, Descriptor.text]
  refine and_congr_right fun _ => ⟨fun h => ?_, fun h => ?_⟩
  · rw [← h, String.ofList_toList]
  · rw [← h, String.toList_ofList]

end Descriptor

namespace MethodDescriptor

def WellNamed (d : MethodDescriptor) : Prop := (∀ p ∈ d.params, p.WellNamed) ∧ d.returns.WellNamed

theorem readParams?_eq_some_iff {cs : List Char} {params : List Descriptor} :
    readParams? cs = some params ↔ (∀ p ∈ params, p.WellNamed) ∧ cs = params.flatMap Descriptor.chars := by
  constructor
  · intro h
    fun_induction readParams? cs generalizing params with
    | case1 =>
        cases h
        exact ⟨by simp, rfl⟩
    | case2 c cs hread => cases h
    | case3 c cs d rest hread ih =>
        obtain ⟨others, hothers, rfl⟩ := Option.map_eq_some_iff.1 h
        obtain ⟨hd, hcs⟩ := Descriptor.eq_of_read? hread
        obtain ⟨hall, rfl⟩ := ih hothers
        exact ⟨List.forall_mem_cons.2 ⟨hd, hall⟩, hcs⟩
  · rintro ⟨hall, rfl⟩
    induction params with
    | nil => rw [List.flatMap_nil, readParams?]
    | cons d params ih =>
        obtain ⟨hd, hall⟩ := List.forall_mem_cons.1 hall
        obtain ⟨c, cs, hcs⟩ := d.exists_chars
        have hread := Descriptor.read?_chars hd (params.flatMap Descriptor.chars)
        rw [hcs, List.cons_append] at hread
        rw [List.flatMap_cons, hcs, List.cons_append, readParams?]
        split
        case h_1 hnone => cases hread.symm.trans hnone
        case h_2 hsome =>
          cases hread.symm.trans hsome
          rw [ih hall]
          rfl

/-- Parameters end at the first closing parenthesis, so none may have one in its text. -/
theorem parse_eq_ok_iff {text : String} {d : MethodDescriptor} : parse text = .ok d ↔
    d.WellNamed ∧ d.text = text ∧ ∀ p ∈ d.params, ')' ∉ p.text.toList := by
  have htext : d.text = text ↔ text.toList = d.chars := by
    rw [MethodDescriptor.text, ← String.toList_inj, String.toList_ofList, eq_comm]
  have hparams : (∀ p ∈ d.params, ')' ∉ p.text.toList) ↔ ')' ∉ d.params.flatMap Descriptor.chars := by
    simp [Descriptor.text]
  rw [htext, hparams]
  constructor
  · intro h
    unfold parse at h
    split at h
    case h_1 inner htoList =>
      split at h
      case h_1 x returns hdrop =>
        obtain ⟨hcut, hnot⟩ := eq_of_cut hdrop
        split at h
        · cases h
        · rename_i params hread
          obtain ⟨hall, htake⟩ := readParams?_eq_some_iff.1 hread
          cases hreturns : Descriptor.parse (String.ofList returns) with
          | error e =>
              rw [hreturns] at h
              cases h
          | ok r =>
              rw [hreturns] at h
              cases h
              obtain ⟨hr, hrest⟩ := Descriptor.parse_eq_ok_iff.1 hreturns
              rw [htake] at hcut hnot
              refine ⟨⟨hall, hr⟩, ?_, hnot⟩
              rw [htoList, hcut, chars, String.ofList_inj.1 hrest]
      case h_2 => cases h
    case h_2 => cases h
  · rintro ⟨⟨hall, hr⟩, hchars, hnot⟩
    obtain ⟨htake, hdrop⟩ := cut_at hnot d.returns.chars
    have hreturns : Descriptor.parse (String.ofList d.returns.chars) = .ok d.returns :=
      Descriptor.parse_eq_ok_iff.2 ⟨hr, rfl⟩
    rw [parse, hchars, chars]
    simp only [htake, hdrop, readParams?_eq_some_iff.2 ⟨hall, rfl⟩, hreturns]
    rfl

end MethodDescriptor

/-- What is accepted is what is printed: a text is read as a descriptor exactly if it is the text of that
descriptor and class names are well-formed. In the parameters of a method they must in addition not have a closing
parenthesis, which would end the parameters. -/
theorem parse_iff_text (text : String) :
    (∀ d : Descriptor, Descriptor.parse text = .ok d ↔ d.WellNamed ∧ d.text = text) ∧
      ∀ d : MethodDescriptor, MethodDescriptor.parse text = .ok d ↔
        d.WellNamed ∧ d.text = text ∧ ∀ p ∈ d.params, ')' ∉ p.text.toList :=
  ⟨fun _ => Descriptor.parse_eq_ok_iff, fun _ => MethodDescriptor.parse_eq_ok_iff⟩

/-- A class whose name has a closing parenthesis is read where it stands alone and where it is returned, but not
where it is a parameter. -/
theorem not_parse_text_of_parenthesis :
    (⟨[.object "a)b"], .void⟩ : MethodDescriptor).WellNamed ∧
      Descriptor.parse (Descriptor.object "a)b").text = .ok (.object "a)b") ∧
      MethodDescriptor.parse (⟨[], .object "a)b"⟩ : MethodDescriptor).text = .ok ⟨[], .object "a)b"⟩ ∧
      MethodDescriptor.parse (⟨[.object "a)b"], .void⟩ : MethodDescriptor).text =
        .error (.internal (.malformedDescriptor "(La)b;)V")) := by
  have hname : (Descriptor.object "a)b").WellNamed := ⟨by decide, by decide⟩
  refine ⟨⟨by simpa using hname, trivial⟩, Descriptor.parse_eq_ok_iff.2 ⟨hname, rfl⟩,
    MethodDescriptor.parse_eq_ok_iff.2 ⟨⟨by simp, hname⟩, rfl, by simp⟩, ?_⟩
  cbv

end NativeBackend
