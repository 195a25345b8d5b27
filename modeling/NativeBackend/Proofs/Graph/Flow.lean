namespace NativeBackend

structure Flow (β : Type) where
  entry : β
  next : β → β → Prop

namespace Flow

variable {β : Type} (f : Flow β)

/-- Control has come to a block; the blocks it went through are listed latest first. -/
inductive Path : List β → β → Prop where
  | start : Path [f.entry] f.entry
  | step {visited : List β} {b c : β} : Path visited b → f.next b c → Path (c :: visited) c

def Reachable (b : β) : Prop := ∃ visited, f.Path visited b

def Dominates (a b : β) : Prop := ∀ visited, f.Path visited b → a ∈ visited

variable {f} {a b c d : β} {visited : List β}

theorem Path.mem_last (h : f.Path visited b) : b ∈ visited := by
  cases h <;> exact List.mem_cons_self

theorem Path.cut (h : f.Path visited c) (hb : b ∈ visited) :
    ∃ visited', f.Path visited' b ∧ visited' <:+ visited := by
  induction h with
  | start =>
      rw [List.mem_singleton.1 hb]
      exact ⟨_, .start, List.suffix_rfl⟩
  | step hp hnext ih =>
      rcases List.mem_cons.1 hb with rfl | hb
      · exact ⟨_, .step hp hnext, List.suffix_rfl⟩
      · obtain ⟨visited', hp', hsuffix⟩ := ih hb
        exact ⟨visited', hp', hsuffix.trans (List.suffix_cons _ _)⟩

theorem Reachable.of_mem (h : f.Path visited c) (hb : b ∈ visited) : f.Reachable b := by
  obtain ⟨visited', hp, -⟩ := h.cut hb
  exact ⟨visited', hp⟩

theorem dominates_refl (f : Flow β) (b : β) : f.Dominates b b := fun _ h => h.mem_last

theorem entry_dominates (f : Flow β) (b : β) : f.Dominates f.entry b := by
  intro visited h
  induction h with
  | start => exact List.mem_singleton_self _
  | step _ _ ih => exact List.mem_cons_of_mem _ ih

theorem Dominates.reachable (h : f.Dominates a b) (hb : f.Reachable b) : f.Reachable a := by
  obtain ⟨visited, hp⟩ := hb
  exact .of_mem hp (h visited hp)

theorem Dominates.trans (hab : f.Dominates a b) (hbc : f.Dominates b c) : f.Dominates a c := by
  intro visited h
  obtain ⟨visited', hp, hsuffix⟩ := h.cut (hbc visited h)
  exact hsuffix.subset (hab visited' hp)

theorem Dominates.antisymm (hab : f.Dominates a b) (hba : f.Dominates b a) (hb : f.Reachable b) : a = b := by
  by_cases hne : a = b
  · exact hne
  · have hnot : ∀ (n : Nat) (visited : List β), visited.length ≤ n → ¬ f.Path visited b := by
      intro n
      induction n with
      | zero =>
          intro visited hlen h
          have := List.length_pos_of_mem h.mem_last
          omega
      | succ n ih =>
          intro visited hlen h
          cases h with
          | start => exact hne (List.mem_singleton.1 (hab _ .start))
          | step hp hnext =>
              have ha := (List.mem_cons.1 (hab _ (.step hp hnext))).resolve_left hne
              obtain ⟨toA, hpa, hsuffixA⟩ := hp.cut ha
              obtain ⟨toB, hpb, hsuffixB⟩ := hpa.cut (hba toA hpa)
              have hlenA := hsuffixA.length_le
              have hlenB := hsuffixB.length_le
              rw [List.length_cons] at hlen
              exact ih toB (by omega) hpb
    obtain ⟨visited, h⟩ := hb
    exact absurd h (hnot visited.length visited (Nat.le_refl _))

theorem Dominates.of_next (h : f.Dominates a c) (hne : a ≠ c) (hnext : f.next b c) : f.Dominates a b :=
  fun _ hp => (List.mem_cons.1 (h _ (.step hp hnext))).resolve_left hne

theorem Path.of_rename {γ : Type} {f' : Flow γ} {name : β → γ} (hentry : f'.entry = name f.entry)
    (hnext : ∀ b, f.Reachable b → ∀ c', f'.next (name b) c' → ∃ c, c' = name c ∧ f.next b c)
    {visited' : List γ} {c' : γ} (h : f'.Path visited' c') :
    ∃ visited c, visited' = visited.map name ∧ c' = name c ∧ f.Path visited c := by
  induction h with
  | start =>
      rw [hentry]
      exact ⟨[f.entry], f.entry, rfl, rfl, .start⟩
  | step _ hstep ih =>
      obtain ⟨visited, b, rfl, rfl, hp⟩ := ih
      obtain ⟨c, rfl, hc⟩ := hnext b ⟨visited, hp⟩ _ hstep
      exact ⟨c :: visited, c, rfl, rfl, .step hp hc⟩

theorem Dominates.rename {γ : Type} {f' : Flow γ} {name : β → γ} (hentry : f'.entry = name f.entry)
    (hinj : ∀ b c, name b = name c → b = c)
    (hnext : ∀ b, f.Reachable b → ∀ c', f'.next (name b) c' → ∃ c, c' = name c ∧ f.next b c)
    (h : f.Dominates a b) : f'.Dominates (name a) (name b) := by
  intro visited' hp'
  obtain ⟨visited, c, rfl, hc, hp⟩ := hp'.of_rename hentry hnext
  rw [← hinj b c hc] at hp
  exact List.mem_map_of_mem (h visited hp)

end Flow

end NativeBackend
