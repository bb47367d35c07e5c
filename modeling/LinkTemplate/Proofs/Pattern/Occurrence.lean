import LinkTemplate.Proofs.Pattern.Filling
import Mathlib.Data.List.Forall2
import Mathlib.Data.List.Lex

/-!
# The first occurrence of a pattern

A search finds an occurrence if there is one. It starts as early as any, and its values are the
longest, the first of them first.
-/

namespace LinkTemplate

open Text (byteLength)

theorem Text.byteLength_lt_of_length_lt {a b s t : Text} (h : a ++ s = b ++ t)
    (hl : a.length < b.length) : byteLength a < byteLength b := by
  have hprefix : a <+: b := by
    apply List.prefix_of_prefix_length_le (List.prefix_append a s) _ (Nat.le_of_lt hl)
    rw [h]
    exact List.prefix_append b t
  obtain ⟨gap, rfl⟩ := hprefix
  have hgap : byteLength gap ≠ 0 := by
    intro h0
    rw [byteLength_eq_zero_iff] at h0
    simp [h0] at hl
  rw [byteLength_append]
  omega

theorem Text.byteLength_le_of_length_le {a b s t : Text} (h : a ++ s = b ++ t)
    (hl : a.length ≤ b.length) : byteLength a ≤ byteLength b := by
  rcases Nat.lt_or_eq_of_le hl with hlt | heq
  · exact Nat.le_of_lt (byteLength_lt_of_length_lt h hlt)
  · rw [(List.append_inj h heq).1]

/-- What a search prefers: an earlier start, then longer values, the first of them first. -/
def Occurrence.Precedes (o o' : Occurrence) : Prop :=
  o.before.length < o'.before.length ∨
    o.before.length = o'.before.length ∧ Pattern.Dominates o.values o'.values

namespace Pattern

/-- After what stands before an occurrence, the text goes on with the filled pattern. -/
structure Occurs (p : Pattern) (o : Occurrence) (s : Text) : Prop where
  fits : p.Fits o.values
  text : ∃ after, s = o.before ++ (p.fill o.values ++ after)

variable {p : Pattern} {o : Occurrence} {s stem last line : Text} {stems values : List Text}

private theorem occurs_of_findInLine (hline : '\n' ∉ line)
    (h : findInLine stem stems last line = some o) : Occurs ⟨stem :: stems, last⟩ o line := by
  unfold findInLine at h
  split at h
  · cases h
  next before rest hstem =>
    split at h
    · cases h
    next after back hlast =>
      obtain ⟨values, hvalues, rfl⟩ := Option.map_eq_some_iff.mp h
      obtain ⟨hl, hw⟩ := weave_of_valuesBackwards hvalues
      have hrest : rest = weave ([] :: stems) values ++ last ++ after.reverse := by
        apply List.reverse_inj.mp
        rw [Text.eq_append_of_findWord? hlast, hw]
        simp only [List.reverse_append, List.reverse_reverse, List.append_assoc]
      have htext : line = before ++ (fill ⟨stem :: stems, last⟩ values ++ after.reverse) := by
        rw [Text.eq_append_of_findWord? hstem, hrest, fill_cons hl]
        simp only [List.append_assoc]
      refine ⟨fits_of_fill hl fun hm => hline ?_, after.reverse, htext⟩
      rw [htext]
      exact List.mem_append_right _ (List.mem_append_left _ hm)

private theorem findInLine_of_occurs (h : Occurs ⟨stem :: stems, last⟩ o line) :
    ∃ found, findInLine stem stems last line = some found ∧ found.Precedes o := by
  obtain ⟨before, values⟩ := o
  obtain ⟨⟨hl, -⟩, after, htext⟩ := h
  have hl : values.length = stems.length + 1 := hl
  obtain ⟨value, values, rfl⟩ := List.exists_cons_of_length_eq_add_one hl
  have hline : line =
      before ++ (stem ++ (weave ([] :: stems) (value :: values) ++ (last ++ after))) := by
    rw [htext, fill_cons hl]
    simp only [List.append_assoc]
  obtain ⟨before', rest, hstem, hle⟩ := Text.findWord?_append stem before
    (weave ([] :: stems) (value :: values) ++ (last ++ after))
  obtain ⟨early, rfl, hbefore⟩ :=
    Text.exists_suffix_of_occurrences (Text.eq_append_of_findWord? hstem).symm hle
  have hearly : early ++ (weave ([] :: stems) (value :: values) ++ (last ++ after)) =
      weave ([] :: stems) ((early ++ value) :: values) ++ (last ++ after) := by
    simp only [weave_cons, List.nil_append, List.append_assoc]
  obtain ⟨late, after', hlast, -⟩ := Text.findWord?_reverse_append last
    (weave ([] :: stems) ((early ++ value) :: values)) after
  obtain ⟨wide, hwide, hweave, hdom⟩ :=
    exists_weave_append (List.cons_ne_nil [] stems)
      (show ((early ++ value) :: values).length = stems.length + 1 from hl) late
  obtain ⟨found, hback, hdom'⟩ := valuesBackwards_weave hwide
  refine ⟨⟨before', found⟩, ?_, ?_⟩
  · rw [← hline] at hstem
    rw [hweave] at hback
    simp only [findInLine, hstem, hearly, hlast, hback, Option.map_some]
  · rcases Nat.eq_zero_or_pos early.length with h0 | hpos
    · obtain rfl := List.length_eq_zero_iff.mp h0
      exact .inr ⟨by simpa using hbefore.symm, hdom'.trans hdom⟩
    · exact .inl (by
        change before'.length < before.length
        omega)

private theorem append_eq_append_lineFeed {a b line s : Text} (h : a ++ b = line ++ '\n' :: s) :
    (∃ x, line = a ++ x ∧ b = x ++ '\n' :: s) ∨ ∃ x, a = line ++ '\n' :: x ∧ s = x ++ b := by
  rcases List.append_eq_append_iff.mp h with ⟨x, rfl, hb⟩ | ⟨x, rfl, hs⟩
  · exact .inl ⟨x, rfl, hb⟩
  · cases x with
    | nil => exact .inl ⟨[], by simp, by simpa using hs.symm⟩
    | cons c x =>
      rw [List.cons_append, List.cons.injEq] at hs
      obtain ⟨rfl, rfl⟩ := hs
      exact .inr ⟨x, rfl, rfl⟩

private theorem occurs_of_findInLines
    (h : findInLines stem stems last (Text.lines s) = some o) :
    Occurs ⟨stem :: stems, last⟩ o s := by
  induction s using Text.lines_induction generalizing o with
  | last s hs =>
    rw [Text.lines_of_not_mem hs, findInLines] at h
    split at h
    next found hfound =>
      cases h
      exact occurs_of_findInLine hs hfound
    next => cases h
  | line line s hline ih =>
    rw [Text.lines_append_cons hline, findInLines] at h
    split at h
    next found hfound =>
      cases h
      obtain ⟨hfits, after, htext⟩ := occurs_of_findInLine hline hfound
      refine ⟨hfits, after ++ '\n' :: s, ?_⟩
      rw [htext]
      simp only [List.append_assoc]
    next =>
      obtain ⟨found, hfound, rfl⟩ := Option.map_eq_some_iff.mp h
      obtain ⟨hfits, after, htext⟩ := ih hfound
      refine ⟨hfits, after, ?_⟩
      rw [htext]
      simp only [List.append_assoc, List.cons_append]

private theorem findInLines_of_occurs (hp : Inline ⟨stem :: stems, last⟩)
    (h : Occurs ⟨stem :: stems, last⟩ o s) :
    ∃ found, findInLines stem stems last (Text.lines s) = some found ∧ found.Precedes o := by
  induction s using Text.lines_induction generalizing o with
  | last s hs =>
    obtain ⟨found, hfound, hprec⟩ := findInLine_of_occurs h
    refine ⟨found, ?_, hprec⟩
    rw [Text.lines_of_not_mem hs, findInLines, hfound]
  | line line s hline ih =>
    obtain ⟨hfits, after, htext⟩ := h
    rw [Text.lines_append_cons hline, findInLines]
    rcases append_eq_append_lineFeed htext.symm with ⟨x, hx, hfill⟩ | ⟨x, hbefore, hs⟩
    · rcases append_eq_append_lineFeed hfill with ⟨y, rfl, -⟩ | ⟨y, hy, -⟩
      · obtain ⟨found, hfound, hprec⟩ := findInLine_of_occurs ⟨hfits, y, hx⟩
        exact ⟨found, by rw [hfound], hprec⟩
      · refine absurd ?_ (hp.lineFeed_not_mem_fill hfits)
        rw [hy]
        exact List.mem_append_right _ List.mem_cons_self
    · have hlen : o.before.length = line.length + (x.length + 1) := by
        rw [hbefore, List.length_append, List.length_cons]
      cases hfirst : findInLine stem stems last line with
      | some found =>
        obtain ⟨-, after', hline'⟩ := occurs_of_findInLine hline hfirst
        have hle := congrArg List.length hline'
        rw [List.length_append] at hle
        exact ⟨found, rfl, .inl (by omega)⟩
      | none =>
        obtain ⟨found, hfound, hprec⟩ := ih (o := ⟨x, o.values⟩) ⟨hfits, after, hs⟩
        refine ⟨⟨line ++ '\n' :: found.before, found.values⟩, by rw [hfound]; rfl, ?_⟩
        simp only [Occurrence.Precedes, List.length_append, List.length_cons] at hprec ⊢
        rcases hprec with hlt | ⟨he, hdom⟩
        · exact .inl (by omega)
        · exact .inr ⟨by omega, hdom⟩

theorem occurs_of_find? (h : p.find? s = some o) : p.Occurs o s := by
  obtain ⟨stems, last⟩ := p
  cases stems with
  | nil =>
    obtain ⟨⟨before, after⟩, hfound, rfl⟩ := Option.map_eq_some_iff.mp h
    exact ⟨fits_nil rfl, after, Text.eq_append_of_findWord? hfound⟩
  | cons stem stems => exact occurs_of_findInLines h

/-- An occurrence is found, or one that precedes it. -/
theorem find?_of_occurs (hp : p.Inline) (h : p.Occurs o s) :
    ∃ found, p.find? s = some found ∧ found.Precedes o := by
  obtain ⟨stems, last⟩ := p
  cases stems with
  | nil =>
    obtain ⟨before, values⟩ := o
    obtain ⟨⟨hl, -⟩, after, htext⟩ := h
    obtain rfl : values = [] := List.length_eq_zero_iff.mp hl
    obtain ⟨before', rest, hfound, hle⟩ := Text.findWord?_append last before after
    refine ⟨⟨before', []⟩, ?_, ?_⟩
    · rw [htext]
      exact Option.map_eq_some_iff.mpr ⟨_, hfound, rfl⟩
    · rcases Nat.lt_or_eq_of_le hle with hlt | he
      · exact .inl hlt
      · exact .inr ⟨he, trivial⟩
  | cons stem stems => exact findInLines_of_occurs hp h

/-- Values that fill a pattern to a text and are longer than any others, the first of them first. -/
structure IsLongest (p : Pattern) (s : Text) (values : List Text) : Prop where
  fits : p.Fits values
  fill_eq : p.fill values = s
  dominates : ∀ others, p.Fits others → p.fill others = s → Dominates values others

private theorem map_length_eq_of_dominates {vs ws : List Text} (h : Dominates vs ws)
    (h' : Dominates ws vs) : vs.map List.length = ws.map List.length := by
  induction vs generalizing ws with
  | nil =>
    cases ws with
    | nil => rfl
    | cons w ws => exact absurd h id
  | cons v vs ih =>
    cases ws with
    | nil => exact absurd h id
    | cons w ws =>
      have hne : ¬(w.length < v.length ∧ v.length < w.length) := by omega
      rcases h with h | ⟨h, ht⟩
      · rcases h' with h' | ⟨h', -⟩
        · exact absurd ⟨h, h'⟩ hne
        · exact absurd h' (Nat.ne_of_gt h)
      · rcases h' with h' | ⟨-, ht'⟩
        · exact absurd h.symm (Nat.ne_of_lt h')
        · rw [List.map_cons, List.map_cons, h, ih ht ht']

private theorem exists_longer {after : Text} (hs : p.stems ≠ [])
    (hl : values.length = p.stems.length) (hlast : p.last <:+ p.fill values ++ after) :
    ∃ longer, longer.length = p.stems.length ∧ p.fill longer = p.fill values ++ after ∧
      Dominates longer values ∧
        (longer.map List.length = values.map List.length → after = []) := by
  have hsuffix : p.last <:+ p.last ++ after := by
    apply List.suffix_of_suffix_length_le hlast
    · rw [fill_eq, List.append_assoc]
      exact List.suffix_append _ _
    · rw [List.length_append]
      exact Nat.le_add_right _ _
  obtain ⟨gap, hgap⟩ := hsuffix
  obtain ⟨longer, hl', hw, hd⟩ := exists_weave_append hs hl gap
  refine ⟨longer, hl', ?_, hd, fun he => ?_⟩
  · rw [fill_eq, fill_eq, hw, List.append_assoc, hgap, List.append_assoc]
  · have hlen : (weave p.stems longer).length = (weave p.stems values).length :=
      length_weave_congr he
    have htotal := congrArg List.length hgap
    rw [hw] at hlen
    simp only [List.length_append] at hlen htotal
    exact List.length_eq_zero_iff.mp (by omega)

private theorem exists_find?_fill (hp : p.Inline) (hv : p.Fits values) :
    ∃ found, p.find? (p.fill values) = some ⟨[], found⟩ ∧ Dominates found values := by
  obtain ⟨⟨before, found⟩, hfound, hprec⟩ :=
    find?_of_occurs (o := ⟨[], values⟩) hp ⟨hv, [], (List.append_nil _).symm⟩
  rcases hprec with hlt | ⟨he, hdom⟩
  · exact absurd hlt (Nat.not_lt_zero _)
  · obtain rfl : before = [] := List.length_eq_zero_iff.mp he
    exact ⟨found, hfound, hdom⟩

/-- A search in a filled pattern takes the whole text and finds the longest values. -/
theorem find?_fill (hp : p.Inline) (hv : p.Fits values) :
    ∃ found, p.find? (p.fill values) = some ⟨[], found⟩ ∧ p.IsLongest (p.fill values) found := by
  have hline := hp.lineFeed_not_mem_fill hv
  obtain ⟨found, hfound, -⟩ := exists_find?_fill hp hv
  have hdom : ∀ others, p.Fits others → p.fill others = p.fill values → Dominates found others := by
    intro others ho hf
    obtain ⟨found', hfound', hd⟩ := exists_find?_fill hp ho
    rw [hf, hfound, Option.some.injEq, Occurrence.mk.injEq] at hfound'
    rw [hfound'.2]
    exact hd
  obtain ⟨hfits, after, htext⟩ := occurs_of_find? hfound
  rw [List.nil_append] at htext
  have hafter : after = [] := by
    by_cases hs : p.stems = []
    · have hnil {vs : List Text} (h : p.Fits vs) : vs = [] := by
        rw [← List.length_eq_zero_iff, h.length_eq, hs, List.length_nil]
      rw [hnil hv, hnil hfits] at htext
      exact List.append_right_eq_self.mp htext.symm
    · have hlast : p.last <:+ p.fill found ++ after := by
        rw [← htext, fill_eq]
        exact List.suffix_append _ _
      obtain ⟨longer, hl, hfill, hd, hnil⟩ := exists_longer hs hfits.length_eq hlast
      rw [← htext] at hfill
      have hfits' : p.Fits longer := fits_of_fill hl (hfill ▸ hline)
      exact hnil (map_length_eq_of_dominates hd (hdom longer hfits' hfill))
  rw [hafter, List.append_nil] at htext
  exact ⟨found, hfound, hfits, htext.symm, hdom⟩

private theorem forall₂_nil_of_dominates (stem value : Text) {stems values : List Text}
    (hl : values.length = stems.length)
    (h : ∀ others, others.length = stems.length + 1 →
      weave (stem :: stems) others = weave (stem :: stems) (value :: values) →
        Dominates (value :: values) others) :
    List.Forall₂ (fun stem value => stem = [] → value = []) stems values := by
  induction stems generalizing stem value values with
  | nil =>
    obtain rfl := List.length_eq_zero_iff.mp hl
    exact .nil
  | cons stem' stems ih =>
    obtain ⟨value', values, rfl⟩ := List.exists_cons_of_length_eq_add_one hl
    refine .cons ?_ (ih stem' value' (by simpa using hl) ?_)
    · rintro rfl
      -- Without a stem between them, the first of two values could take the second's text.
      have hd := h ((value ++ value') :: [] :: values) (by simpa using hl) (by
        simp only [weave_cons, List.nil_append, List.append_assoc])
      have hle : (value ++ value').length ≤ value.length := by
        rcases hd with hd | ⟨hd, -⟩
        · exact Nat.le_of_lt hd
        · exact Nat.le_of_eq hd
      rw [List.length_append] at hle
      exact List.length_eq_zero_iff.mp (by omega)
    · intro others hl' hw
      have hd := h (value :: others) (by simpa using hl') (by
        rw [weave_cons, hw, weave_cons stem])
      rcases hd with hd | ⟨-, hd⟩
      · exact absurd hd (Nat.lt_irrefl _)
      · exact hd

/-- Of values with nothing between them, the longest leave all the text to the first. -/
theorem IsLongest.nil_of_stem_nil (hp : p.Inline) (h : p.IsLongest s values) :
    List.Forall₂ (fun stem value => stem = [] → value = []) p.stems.tail values.tail := by
  obtain ⟨stems, last⟩ := p
  have hl : values.length = stems.length := h.fits.length_eq
  have hline := hp.lineFeed_not_mem_fill h.fits
  cases stems with
  | nil =>
    obtain rfl := List.length_eq_zero_iff.mp hl
    exact .nil
  | cons stem stems =>
    obtain ⟨value, values, rfl⟩ := List.exists_cons_of_length_eq_add_one hl
    apply forall₂_nil_of_dominates stem value (Nat.succ.inj hl)
    intro others ho hw
    have hfill : fill ⟨stem :: stems, last⟩ others =
        fill ⟨stem :: stems, last⟩ (value :: values) := by
      change weave (stem :: stems) others ++ last = weave (stem :: stems) (value :: values) ++ last
      rw [hw]
    exact h.dominates others (fits_of_fill ho (hfill ▸ hline)) (hfill.trans h.fill_eq)

variable {others : List Text} {t : Text}

theorem lengths_le_of_dominates (hv : values.length = stems.length)
    (ho : others.length = stems.length) (h : weave stems values ++ s = weave stems others ++ t)
    (hd : Dominates values others) : others.map byteLength ≤ values.map byteLength := by
  induction stems generalizing values others with
  | nil =>
    rw [List.length_eq_zero_iff.mp hv, List.length_eq_zero_iff.mp ho]
  | cons stem stems ih =>
    obtain ⟨value, values, rfl⟩ := List.exists_cons_of_length_eq_add_one hv
    obtain ⟨other, others, rfl⟩ := List.exists_cons_of_length_eq_add_one ho
    simp only [weave_cons, List.append_assoc, List.append_cancel_left_eq] at h
    rw [List.map_cons, List.map_cons]
    rcases hd with hlt | ⟨he, hd⟩
    · exact le_of_lt (List.Lex.rel (Text.byteLength_lt_of_length_lt h.symm hlt))
    · obtain ⟨rfl, hrest⟩ := List.append_inj h he.symm
      exact List.cons_le_cons _ (ih (Nat.succ.inj hv) (Nat.succ.inj ho) hrest hd)

theorem eq_of_lengths_eq (hv : values.length = stems.length) (ho : others.length = stems.length)
    (h : weave stems values ++ s = weave stems others ++ t)
    (hl : values.map byteLength = others.map byteLength) : values = others := by
  induction stems generalizing values others with
  | nil => rw [List.length_eq_zero_iff.mp hv, List.length_eq_zero_iff.mp ho]
  | cons stem stems ih =>
    obtain ⟨value, values, rfl⟩ := List.exists_cons_of_length_eq_add_one hv
    obtain ⟨other, others, rfl⟩ := List.exists_cons_of_length_eq_add_one ho
    simp only [weave_cons, List.append_assoc, List.append_cancel_left_eq] at h
    rw [List.map_cons, List.map_cons, List.cons.injEq] at hl
    obtain rfl := Text.eq_of_byteLength_eq h hl.1
    rw [List.append_cancel_left_eq] at h
    rw [ih (Nat.succ.inj hv) (Nat.succ.inj ho) h hl.2]

/-- What stands before value `k`, where stems and values take turns. -/
def weaveBefore (stems values : List Text) (k : Nat) : Text :=
  weave (stems.take k) (values.take k) ++ (stems[k]?).getD []

theorem weave_eq_weaveBefore_append {k : Nat} {value : Text} (hl : values.length = stems.length)
    (hk : values[k]? = some value) :
    ∃ rest, weave stems values = weaveBefore stems values k ++ (value ++ rest) := by
  induction stems generalizing values k with
  | nil =>
    rw [List.length_eq_zero_iff.mp hl] at hk
    cases hk
  | cons stem stems ih =>
    obtain ⟨first, values, rfl⟩ := List.exists_cons_of_length_eq_add_one hl
    cases k with
    | zero =>
      obtain rfl : first = value := by simpa using hk
      exact ⟨weave stems values, by simp [weaveBefore]⟩
    | succ k =>
      obtain ⟨rest, hrest⟩ := ih (Nat.succ.inj hl) hk
      refine ⟨rest, ?_⟩
      rw [weave_cons, hrest]
      simp [weaveBefore]

theorem getElem?_startsFrom {start k : Nat} (hl : values.length = stems.length)
    (hk : k < stems.length) :
    (startsFrom start stems values)[k]? =
      some (start + byteLength (weaveBefore stems values k)) := by
  induction stems generalizing start values k with
  | nil => cases hk
  | cons stem stems ih =>
    obtain ⟨value, values, rfl⟩ := List.exists_cons_of_length_eq_add_one hl
    cases k with
    | zero => simp [startsFrom, weaveBefore]
    | succ k =>
      simp only [startsFrom, List.getElem?_cons_succ]
      rw [ih (Nat.succ.inj hl) (Nat.lt_of_succ_lt_succ hk)]
      simp [weaveBefore]
      omega

theorem startsFrom_add (n start : Nat) (stems values : List Text) :
    startsFrom (n + start) stems values = (startsFrom start stems values).map (n + ·) := by
  induction stems generalizing start values with
  | nil => rfl
  | cons stem stems ih =>
    cases values with
    | nil => rfl
    | cons value values => simp only [startsFrom, Nat.add_assoc, ih, List.map_cons]

end Pattern

end LinkTemplate
