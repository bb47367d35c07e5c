import LinkTemplate.Text

namespace LinkTemplate.Text

variable {c d : Char} {s : Text}

theorem mem_lead_iff {s? : Option Text} : d ∈ lead c s? ↔ ∃ s, s? = some s ∧ (d = c ∨ d ∈ s) := by
  cases s? <;> simp

theorem not_mem_lead (hne : d ≠ c) {s? : Option Text} (h : ∀ s, s? = some s → d ∉ s) :
    d ∉ lead c s? := by
  rw [mem_lead_iff]
  rintro ⟨s, hs, rfl | hd⟩
  · exact hne rfl
  · exact h s hs hd

theorem not_mem_of_not_mem_append_lead {s? : Option Text} (h : d ∉ s ++ lead c s?) :
    d ∉ s ∧ ∀ t, s? = some t → d ∉ t := by
  refine ⟨fun hd => h (List.mem_append_left _ hd), ?_⟩
  intro t ht hd
  exact h (List.mem_append_right _ (mem_lead_iff.mpr ⟨t, ht, .inr hd⟩))

theorem cut_fst_prefix (c : Char) (s : Text) : (cut c s).1 <+: s := List.takeWhile_prefix _

theorem not_mem_cut_fst (c : Char) (s : Text) : c ∉ (cut c s).1 := by
  by_cases h : c ∈ s
  · obtain ⟨a, b, rfl, ha⟩ := List.eq_append_cons_of_mem h
    rwa [cut_append_cons ha]
  · rwa [cut_of_not_mem h]

theorem exists_eq_append_lead (c : Char) (s : Text) :
    ∃ front back?, s = front ++ lead c back? ∧ c ∉ front :=
  ⟨(cut c s).1, (cut c s).2, (cut_append_lead c s).symm, not_mem_cut_fst c s⟩

theorem cut_fst_append_of_mem (h : c ∈ s) (t : Text) : (cut c (s ++ t)).1 = (cut c s).1 := by
  obtain ⟨a, b, rfl, ha⟩ := List.eq_append_cons_of_mem h
  rw [List.append_assoc, List.cons_append, cut_append_cons ha, cut_append_cons ha]

theorem cut_fst_append_of_not_mem (h : c ∉ s) (t : Text) :
    (cut c (s ++ t)).1 = s ++ (cut c t).1 := by
  obtain ⟨front, back?, rfl, hfront⟩ := exists_eq_append_lead c t
  have hst : c ∉ s ++ front := by simp [h, hfront]
  rw [← List.append_assoc, cut_append_lead_of_not_mem hst, cut_append_lead_of_not_mem hfront]

theorem cut_fst_append_prefix (c : Char) (s t : Text) : (cut c s).1 <+: (cut c (s ++ t)).1 := by
  by_cases h : c ∈ s
  · simp [cut_fst_append_of_mem h]
  · simp [cut_fst_append_of_not_mem h, cut_of_not_mem h]

private theorem findFrom_append (word passed before rest : Text) :
    ∃ before' rest', findFrom word passed (before ++ (word ++ rest)) = some (before', rest') ∧
      before'.length ≤ passed.length + before.length := by
  have hfront (s : Text) : after? word (word ++ s) = some s := after?_eq_some_iff.mpr rfl
  induction before generalizing passed with
  | nil =>
    refine ⟨passed.reverse, rest, ?_, by simp⟩
    rw [List.nil_append]
    cases hs : word ++ rest with
    | nil => rw [findFrom, ← hs, hfront, Option.map_some]
    | cons c s => rw [findFrom, ← hs, hfront]
  | cons c before ih =>
    rw [List.cons_append, findFrom]
    split
    next r _ => exact ⟨passed.reverse, r, rfl, by simp⟩
    next =>
      obtain ⟨before', rest', hfound, hl⟩ := ih (c :: passed)
      refine ⟨before', rest', hfound, ?_⟩
      simp only [List.length_cons] at hl ⊢
      omega

theorem findWord?_append (word before rest : Text) :
    ∃ before' rest', findWord? word (before ++ (word ++ rest)) = some (before', rest') ∧
      before'.length ≤ before.length := by
  obtain ⟨before', rest', hfound, hl⟩ := findFrom_append word [] before rest
  exact ⟨before', rest', hfound, by simpa using hl⟩

/-- A later occurrence of a word ends in a suffix of what follows an earlier one. -/
theorem exists_suffix_of_occurrences {word before rest before' rest' : Text}
    (h : before' ++ (word ++ rest') = before ++ (word ++ rest))
    (hl : before'.length ≤ before.length) :
    ∃ gap, rest' = gap ++ rest ∧ before.length = before'.length + gap.length := by
  have hlen := congrArg List.length h
  simp only [List.length_append] at hlen
  have hsuffix : rest <:+ rest' :=
    List.suffix_of_suffix_length_le ⟨before ++ word, by rw [List.append_assoc, ← h]⟩
      ⟨before' ++ word, List.append_assoc _ _ _⟩ (by omega)
  obtain ⟨gap, rfl⟩ := hsuffix
  refine ⟨gap, rfl, ?_⟩
  rw [List.length_append] at hlen
  omega

/-- Read backwards, a word is found at its last occurrence. -/
theorem findWord?_reverse_append (word before rest : Text) :
    ∃ gap rest', findWord? word.reverse (before ++ (word ++ rest)).reverse =
        some (rest'.reverse, (before ++ gap).reverse) ∧
      before ++ (word ++ rest) = before ++ gap ++ (word ++ rest') := by
  have hrev : (before ++ (word ++ rest)).reverse =
      rest.reverse ++ (word.reverse ++ before.reverse) := by
    simp only [List.reverse_append, List.append_assoc]
  obtain ⟨after, back, hfound, hl⟩ := findWord?_append word.reverse rest.reverse before.reverse
  have heq := eq_append_of_findWord? hfound
  obtain ⟨gap, rfl, -⟩ := exists_suffix_of_occurrences heq.symm hl
  refine ⟨gap.reverse, after.reverse, ?_, ?_⟩
  · rw [hrev, hfound, List.reverse_append, List.reverse_reverse, List.reverse_reverse]
  · apply List.reverse_inj.mp
    rw [hrev, heq]
    simp only [List.reverse_append, List.reverse_reverse, List.append_assoc]

theorem lines_of_not_mem {s : Text} (h : '\n' ∉ s) : lines s = [s] := by
  induction s with
  | nil => rfl
  | cons c s ih =>
    have hc : c ≠ '\n' := fun e => h (e ▸ List.mem_cons_self)
    rw [lines, if_neg hc, ih fun hm => h (List.mem_cons_of_mem _ hm)]

theorem lines_append_cons {line : Text} (h : '\n' ∉ line) (s : Text) :
    lines (line ++ '\n' :: s) = line :: lines s := by
  induction line with
  | nil => rw [List.nil_append, lines, if_pos rfl]
  | cons c line ih =>
    have hc : c ≠ '\n' := fun e => h (e ▸ List.mem_cons_self)
    rw [List.cons_append, lines, if_neg hc, ih fun hm => h (List.mem_cons_of_mem _ hm)]

theorem lines_induction {motive : Text → Prop} (last : ∀ s, '\n' ∉ s → motive s)
    (line : ∀ line s, '\n' ∉ line → motive s → motive (line ++ '\n' :: s)) (s : Text) :
    motive s := by
  generalize hn : s.length = n
  induction n using Nat.strongRecOn generalizing s with
  | ind n ih =>
    by_cases h : '\n' ∈ s
    · obtain ⟨first, rest, rfl, hfirst⟩ := List.eq_append_cons_of_mem h
      refine line first rest hfirst (ih rest.length ?_ rest rfl)
      rw [← hn, List.length_append, List.length_cons]
      omega
    · exact last s h

end LinkTemplate.Text
