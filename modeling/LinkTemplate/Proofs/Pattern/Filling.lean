import LinkTemplate.Pattern
import LinkTemplate.Proofs.Uri.Encoding
import Mathlib.Data.List.Induction

namespace LinkTemplate.Pattern

/-- Stems that are each followed by a value. -/
def weave (stems values : List Text) : Text := (stems.zip values).flatMap fun q => q.1 ++ q.2

theorem fill_eq (p : Pattern) (values : List Text) :
    p.fill values = weave p.stems values ++ p.last := rfl

@[simp] theorem weave_nil (values : List Text) : weave [] values = [] := rfl

@[simp] theorem weave_cons (stem value : Text) (stems values : List Text) :
    weave (stem :: stems) (value :: values) = stem ++ (value ++ weave stems values) := by
  rw [weave, List.zip_cons_cons, List.flatMap_cons, List.append_assoc]
  rfl

theorem weave_concat {stems values : List Text} (h : values.length = stems.length)
    (stem value : Text) :
    weave (stems ++ [stem]) (values ++ [value]) = weave stems values ++ (stem ++ value) := by
  rw [weave, List.zip_append h.symm, List.flatMap_append, ← weave]
  simp only [List.zip_cons_cons, List.zip_nil_right, List.flatMap_cons, List.flatMap_nil,
    List.append_nil]

theorem weave_cons_eq_append {stem : Text} {stems values : List Text}
    (h : values.length = stems.length + 1) :
    weave (stem :: stems) values = stem ++ weave ([] :: stems) values := by
  cases values with
  | nil => exact absurd h.symm (Nat.succ_ne_zero _)
  | cons value values => rw [weave_cons, weave_cons, List.nil_append]

theorem fill_cons {stem last : Text} {stems values : List Text}
    (h : values.length = stems.length + 1) :
    fill ⟨stem :: stems, last⟩ values = stem ++ (weave ([] :: stems) values ++ last) := by
  change weave (stem :: stems) values ++ last = _
  rw [weave_cons_eq_append h, List.append_assoc]

theorem length_weave_congr {stems values values' : List Text}
    (h : values.map List.length = values'.map List.length) :
    (weave stems values).length = (weave stems values').length := by
  induction stems generalizing values values' with
  | nil => rfl
  | cons stem stems ih =>
    cases values with
    | nil =>
      obtain rfl : values' = [] := List.map_eq_nil_iff.mp h.symm
      rfl
    | cons value values =>
      cases values' with
      | nil => exact absurd h (List.cons_ne_nil _ _)
      | cons value' values' =>
        rw [List.map_cons, List.map_cons, List.cons.injEq] at h
        simp only [weave_cons, List.length_append, h.1, ih h.2]

theorem mem_weave {stems values : List Text} {c : Char} (h : c ∈ weave stems values) :
    (∃ stem ∈ stems, c ∈ stem) ∨ ∃ value ∈ values, c ∈ value := by
  obtain ⟨⟨stem, value⟩, hq, hc⟩ := List.mem_flatMap.mp h
  have hmem := List.of_mem_zip hq
  rcases List.mem_append.mp hc with hc | hc
  · exact .inl ⟨stem, hmem.1, hc⟩
  · exact .inr ⟨value, hmem.2, hc⟩

theorem mem_weave_of_mem_value {stems values : List Text} {c : Char} {value : Text}
    (h : values.length = stems.length) (hv : value ∈ values) (hc : c ∈ value) :
    c ∈ weave stems values := by
  induction stems generalizing values with
  | nil =>
    rw [List.length_eq_zero_iff.mp h] at hv
    exact absurd hv List.not_mem_nil
  | cons stem stems ih =>
    cases values with
    | nil => exact absurd hv List.not_mem_nil
    | cons v values =>
      rw [weave_cons]
      apply List.mem_append_right
      rcases List.mem_cons.mp hv with rfl | hv
      · exact List.mem_append_left _ hc
      · exact List.mem_append_right _ (ih (by simpa using h) hv)

/-- Where the lengths of two lists of texts first differ, the first list has the longer text. -/
def Dominates : List Text → List Text → Prop
  | [], [] => True
  | v :: vs, w :: ws => w.length < v.length ∨ w.length = v.length ∧ Dominates vs ws
  | _, _ => False

namespace Dominates

variable {us vs ws : List Text}

theorem refl (vs : List Text) : Dominates vs vs := by
  induction vs with
  | nil => trivial
  | cons v vs ih => exact .inr ⟨rfl, ih⟩

theorem trans (h : Dominates us vs) (h' : Dominates vs ws) : Dominates us ws := by
  induction us generalizing vs ws with
  | nil =>
    cases vs with
    | nil => exact h'
    | cons v vs => exact absurd h id
  | cons u us ih =>
    cases vs with
    | nil => exact absurd h id
    | cons v vs =>
      cases ws with
      | nil => exact absurd h' id
      | cons w ws =>
        rcases h with h | ⟨h, ht⟩
        · rcases h' with h' | ⟨h', -⟩
          · exact .inl (Nat.lt_trans h' h)
          · exact .inl (h' ▸ h)
        · rcases h' with h' | ⟨h', ht'⟩
          · exact .inl (h ▸ h')
          · exact .inr ⟨h'.trans h, ih ht ht'⟩

theorem concat {v w : Text} (h : Dominates vs ws)
    (hlast : vs.map List.length = ws.map List.length → w.length ≤ v.length) :
    Dominates (vs ++ [v]) (ws ++ [w]) := by
  induction vs generalizing ws with
  | nil =>
    cases ws with
    | nil =>
      rcases Nat.lt_or_eq_of_le (hlast rfl) with hl | hl
      · exact .inl hl
      · exact .inr ⟨hl, trivial⟩
    | cons w ws => exact absurd h id
  | cons u vs ih =>
    cases ws with
    | nil => exact absurd h id
    | cons x ws =>
      rcases h with h | ⟨h, ht⟩
      · exact .inl h
      · refine .inr ⟨h, ih ht fun he => hlast ?_⟩
        rw [List.map_cons, List.map_cons, h, he]

end Dominates

theorem exists_weave_append {stems values : List Text} (hs : stems ≠ [])
    (h : values.length = stems.length) (t : Text) :
    ∃ values', values'.length = stems.length ∧ weave stems values' = weave stems values ++ t ∧
      Dominates values' values := by
  induction stems generalizing values with
  | nil => exact absurd rfl hs
  | cons stem stems ih =>
    cases values with
    | nil => exact absurd h.symm (Nat.succ_ne_zero _)
    | cons value values =>
      have hl : values.length = stems.length := by simpa using h
      by_cases hne : stems = []
      · subst hne
        obtain rfl := List.length_eq_zero_iff.mp hl
        refine ⟨[value ++ t], rfl, ?_, ?_⟩
        · simp only [weave_cons, weave_nil, List.append_nil, List.append_assoc]
        · rcases Nat.eq_zero_or_pos t.length with ht | ht
          · exact .inr ⟨by simp [ht], trivial⟩
          · exact .inl (by simpa using ht)
      · obtain ⟨values', hl', hw, hd⟩ := ih hne hl
        refine ⟨value :: values', by simpa using hl', ?_, .inr ⟨rfl, hd⟩⟩
        simp only [weave_cons, hw, List.append_assoc]

theorem count_weave {stems values : List Text} (h : values.length = stems.length) (c : Char) :
    (weave stems values).count c = stems.flatten.count c + values.flatten.count c := by
  induction stems generalizing values with
  | nil =>
    rw [List.length_eq_zero_iff.mp h]
    rfl
  | cons stem stems ih =>
    obtain ⟨value, values, rfl⟩ := List.exists_cons_of_length_eq_add_one h
    have hl : values.length = stems.length := by simpa using h
    simp only [weave_cons, List.flatten_cons, List.count_append, ih hl]
    omega

private theorem eq_of_separated {c : Char} {word x y u v : Text} (hx : c ∉ x) (hy : c ∉ y)
    (hword : c ∈ word) (h : x ++ (word ++ u) = y ++ (word ++ v)) : x = y := by
  obtain ⟨a, b, rfl, ha⟩ := List.eq_append_cons_of_mem hword
  have hfree {z : Text} (hz : c ∉ z) : c ∉ z ++ a := by
    rw [List.mem_append, not_or]
    exact ⟨hz, ha⟩
  have hcut {z w : Text} (hz : c ∉ z) : (Text.cut c (z ++ (a ++ c :: b ++ w))).1 = z ++ a := by
    rw [List.append_assoc, ← List.append_assoc, List.cons_append, Text.cut_append_cons (hfree hz)]
  have hxy : x ++ a = y ++ a := by rw [← hcut hx (w := u), h, hcut hy]
  exact List.append_cancel_right hxy

private theorem eq_of_weave_of_free {c : Char} {stem : Text} {stems xs ys : List Text}
    (hs : ∀ stem ∈ stems, c ∈ stem) (hx : ∀ x ∈ xs, c ∉ x) (hy : ∀ y ∈ ys, c ∉ y)
    (hlx : xs.length = stems.length + 1) (hly : ys.length = stems.length + 1)
    (h : weave (stem :: stems) xs = weave (stem :: stems) ys) : xs = ys := by
  induction stems generalizing stem xs ys with
  | nil =>
    obtain ⟨x, rfl⟩ := List.length_eq_one_iff.mp hlx
    obtain ⟨y, rfl⟩ := List.length_eq_one_iff.mp hly
    simp only [weave_cons, weave_nil, List.append_nil, List.append_cancel_left_eq] at h
    rw [h]
  | cons stem' stems ih =>
    obtain ⟨x, xs, rfl⟩ := List.exists_cons_of_length_eq_add_one hlx
    obtain ⟨y, ys, rfl⟩ := List.exists_cons_of_length_eq_add_one hly
    have hlx' : xs.length = stems.length + 1 := Nat.succ.inj hlx
    have hly' : ys.length = stems.length + 1 := Nat.succ.inj hly
    rw [weave_cons, weave_cons stem y, List.append_cancel_left_eq] at h
    have hxy : x = y := by
      rw [weave_cons_eq_append hlx', weave_cons_eq_append hly'] at h
      exact eq_of_separated (hx x List.mem_cons_self) (hy y List.mem_cons_self)
        (hs stem' List.mem_cons_self) h
    rw [hxy, List.append_cancel_left_eq] at h
    rw [hxy, ih (fun s hm => hs s (List.mem_cons_of_mem _ hm))
      (fun s hm => hx s (List.mem_cons_of_mem _ hm)) (fun s hm => hy s (List.mem_cons_of_mem _ hm))
      hlx' hly' h]

/-- Values without a character are the only ones between stems that hold it. -/
theorem eq_of_weave_eq {c : Char} {stems xs ys : List Text} (hs : ∀ stem ∈ stems.tail, c ∈ stem)
    (hy : ∀ y ∈ ys, c ∉ y) (hlx : xs.length = stems.length) (hly : ys.length = stems.length)
    (h : weave stems xs = weave stems ys) : xs = ys := by
  -- The character occurs in the stems as often as in the whole text, so no value holds it.
  have hcount : xs.flatten.count c = ys.flatten.count c := by
    have hc := congrArg (List.count c) h
    rw [count_weave hlx, count_weave hly] at hc
    omega
  have hx : ∀ x ∈ xs, c ∉ x := by
    have hnone : ys.flatten.count c = 0 := by
      rw [List.count_eq_zero, List.mem_flatten]
      rintro ⟨y, hm, hc⟩
      exact hy y hm hc
    rw [hnone, List.count_eq_zero] at hcount
    intro x hm hc
    exact hcount (List.mem_flatten_of_mem hm hc)
  cases stems with
  | nil => rw [List.length_eq_zero_iff.mp hlx, List.length_eq_zero_iff.mp hly]
  | cons stem stems => exact eq_of_weave_of_free hs hx hy hlx hly h

@[simp] theorem valuesBackwards_nil (back : Text) : valuesBackwards [] back = some [back.reverse] :=
  rfl

theorem valuesBackwards_concat (stems : List Text) (stem back : Text) :
    valuesBackwards (stems ++ [stem]) back =
      match Text.findWord? stem.reverse back with
      | none => none
      | some (value, rest) => (valuesBackwards stems rest).map (· ++ [value.reverse]) := by
  rw [valuesBackwards, List.reverse_append, List.reverse_singleton, List.singleton_append,
    List.map_cons, between]
  cases Text.findWord? stem.reverse back with
  | none => rfl
  | some q =>
    simp only [valuesBackwards, Option.map_map]
    congr 1
    funext values
    simp only [Function.comp_apply, List.map_cons, List.reverse_cons]

theorem weave_of_valuesBackwards {stems : List Text} {back : Text} {values : List Text}
    (h : valuesBackwards stems back = some values) :
    values.length = stems.length + 1 ∧ weave ([] :: stems) values = back.reverse := by
  induction stems using List.reverseRecOn generalizing back values with
  | nil =>
    rw [valuesBackwards_nil, Option.some.injEq] at h
    subst h
    exact ⟨rfl, List.append_nil _⟩
  | append_singleton stems stem ih =>
    rw [valuesBackwards_concat] at h
    split at h
    · cases h
    next value rest hfound =>
      obtain ⟨front, hfront, rfl⟩ := Option.map_eq_some_iff.mp h
      obtain ⟨hl, hw⟩ := ih hfront
      refine ⟨by simp [hl], ?_⟩
      rw [← List.cons_append, weave_concat (by simpa using hl), hw,
        Text.eq_append_of_findWord? hfound]
      simp only [List.reverse_append, List.reverse_reverse, List.append_assoc]

/-- Values that a text allows are found, or others that are longer from the first on. -/
theorem valuesBackwards_weave {stems values : List Text} (h : values.length = stems.length + 1) :
    ∃ found, valuesBackwards stems (weave ([] :: stems) values).reverse = some found ∧
      Dominates found values := by
  induction stems using List.reverseRecOn generalizing values with
  | nil =>
    obtain ⟨value, rfl⟩ := List.length_eq_one_iff.mp h
    refine ⟨[value], ?_, .refl _⟩
    rw [valuesBackwards_nil, List.reverse_reverse, weave_cons, weave_nil, List.nil_append,
      List.append_nil]
  | append_singleton stems stem ih =>
    rcases values.eq_nil_or_concat with rfl | ⟨front, value, hvalues⟩
    · exact absurd h (by simp)
    rw [List.concat_eq_append] at hvalues
    subst hvalues
    have hfront : front.length = stems.length + 1 := by simpa using h
    rw [← List.cons_append, weave_concat (by simpa using hfront)]
    -- The last stem may occur later than here: what precedes it then grows by `gap`.
    obtain ⟨gap, rest, hfound, hsplit⟩ :=
      Text.findWord?_reverse_append stem (weave ([] :: stems) front) value
    obtain ⟨front', hl', hw', hd'⟩ :=
      exists_weave_append (List.cons_ne_nil _ _) (by simpa using hfront) gap
    obtain ⟨found, hback, hd⟩ := ih (by simpa using hl')
    rw [hw'] at hback
    refine ⟨found ++ [rest], ?_, (hd.trans hd').concat fun he => ?_⟩
    · rw [valuesBackwards_concat, hfound]
      simp only [hback, Option.map_some, List.reverse_reverse]
    · have hweave := (weave_of_valuesBackwards hback).2
      rw [List.reverse_reverse] at hweave
      have hlen : (weave ([] :: stems) found).length = (weave ([] :: stems) front).length :=
        length_weave_congr he
      have htotal := congrArg List.length hsplit
      rw [hweave] at hlen
      simp only [List.length_append] at hlen htotal
      omega

/-- The literal texts of a pattern hold no line feed. -/
structure Inline (p : Pattern) : Prop where
  stems : ∀ stem ∈ p.stems, '\n' ∉ stem
  last : '\n' ∉ p.last

/-- A value for each hole of a pattern, none with a line feed. -/
structure Fits (p : Pattern) (values : List Text) : Prop where
  length_eq : values.length = p.stems.length
  inline : ∀ value ∈ values, '\n' ∉ value

theorem fits_nil {p : Pattern} (h : p.stems = []) : p.Fits [] where
  length_eq := by
    rw [h]
  inline := by
    intro value hm
    exact absurd hm List.not_mem_nil

theorem mem_of_mem_dropFinalSlash {s : Text} {c : Char} (h : c ∈ dropFinalSlash s) : c ∈ s := by
  unfold dropFinalSlash at h
  split at h
  · exact List.dropLast_subset _ h
  · exact h

theorem inline_ofLayout (l : Layout) : (ofLayout l).Inline where
  stems := by
    intro stem hs
    obtain ⟨slot, -, rfl⟩ := List.mem_map.mp hs
    exact (Uri.written_encodeText _).lineFeed_not_mem
  last hm := (Uri.written_encodeText _).lineFeed_not_mem (mem_of_mem_dropFinalSlash hm)

variable {p : Pattern} {s : Text} {values : List Text}

theorem Inline.lineFeed_not_mem_fill (hp : p.Inline) (hv : p.Fits values) :
    '\n' ∉ p.fill values := by
  rw [fill_eq]
  intro hm
  rcases List.mem_append.mp hm with hm | hm
  · rcases mem_weave hm with ⟨stem, hs, hc⟩ | ⟨value, hv', hc⟩
    · exact hp.stems stem hs hc
    · exact hv.inline value hv' hc
  · exact hp.last hm

theorem fits_of_fill (hl : values.length = p.stems.length) (hf : '\n' ∉ p.fill values) :
    p.Fits values where
  length_eq := hl
  inline value hv hc := by
    rw [fill_eq] at hf
    exact hf (List.mem_append_left _ (mem_weave_of_mem_value hl hv hc))

private theorem values?_fill (hp : p.Inline) (hv : p.Fits values) :
    (p.values? (p.fill values)).isSome = true := by
  obtain ⟨stems, last⟩ := p
  have hline := hp.lineFeed_not_mem_fill hv
  cases stems with
  | nil => rw [values?, fill_eq, weave_nil, List.nil_append, if_pos rfl, Option.isSome_some]
  | cons stem stems =>
    have hl : values.length = stems.length + 1 := hv.length_eq
    have hfront : Text.after? stem (fill ⟨stem :: stems, last⟩ values) =
        some (weave ([] :: stems) values ++ last) := by
      rw [Text.after?_eq_some_iff, fill_cons hl]
    have hback : Text.after? last.reverse (weave ([] :: stems) values ++ last).reverse =
        some (weave ([] :: stems) values).reverse := by
      rw [Text.after?_eq_some_iff, List.reverse_append]
    obtain ⟨found, hfound, -⟩ := valuesBackwards_weave hl
    simp only [values?, if_neg hline, hfront, hback, hfound, Option.isSome_some]

private theorem fill_of_values? (h : p.values? s = some values) :
    p.Fits values ∧ s = p.fill values := by
  obtain ⟨stems, last⟩ := p
  cases stems with
  | nil =>
    simp only [values?, Option.ite_none_right_eq_some, Option.some.injEq] at h
    obtain ⟨rfl, rfl⟩ := h
    exact ⟨fits_nil rfl, rfl⟩
  | cons stem stems =>
    simp only [values?, Option.ite_none_left_eq_some] at h
    obtain ⟨hline, h⟩ := h
    split at h
    · cases h
    next rest hfront =>
      split at h
      · cases h
      next back hback =>
        obtain ⟨hl, hw⟩ := weave_of_valuesBackwards h
        have hrest : rest = weave ([] :: stems) values ++ last := by
          apply List.reverse_inj.mp
          rw [Text.after?_eq_some_iff.mp hback, hw, List.reverse_append, List.reverse_reverse]
        have hs : s = fill ⟨stem :: stems, last⟩ values := by
          rw [Text.after?_eq_some_iff.mp hfront, hrest, fill_cons hl]
        exact ⟨fits_of_fill hl (hs ▸ hline), hs⟩

theorem isMatch_iff (hp : p.Inline) :
    p.isMatch s = true ↔ ∃ values, p.Fits values ∧ s = p.fill values := by
  rw [isMatch]
  constructor
  · intro h
    obtain ⟨values, hvalues⟩ := Option.isSome_iff_exists.mp h
    exact ⟨values, fill_of_values? hvalues⟩
  · rintro ⟨values, hv, rfl⟩
    exact values?_fill hp hv

end LinkTemplate.Pattern
