import LinkTemplate.Proofs.Captures.Records
import LinkTemplate.Proofs.Pattern.Occurrence
import LinkTemplate.Proofs.Template.Expansion

namespace LinkTemplate

theorem Slot.getLast?_text (slot : Slot) : slot.text.getLast? = some '}' := List.getLast?_concat

theorem Layout.getLast?_text_iff (l : Layout) :
    l.text.getLast? = some '/' ↔ l.last.getLast? = some '/' := by
  rw [Layout.text, List.getLast?_append]
  cases hlast : l.last.getLast? with
  | some c => simp
  | none =>
    rcases l.slots.eq_nil_or_concat with hslots | ⟨slots, slot, hslots⟩
    · simp [hslots]
    · have hbrace : (l.slots.flatMap Slot.text).getLast? = some '}' := by
        simp [hslots, List.getLast?_append, Slot.getLast?_text]
      simp [hbrace]

theorem Pattern.dropFinalSlash_concat (s : Text) : dropFinalSlash (s ++ ['/']) = s := by
  simp [dropFinalSlash]

theorem Uri.getLast?_encodeText_iff (s : Text) :
    (encodeText s).getLast? = some '/' ↔ s.getLast? = some '/' :=
  ⟨(written_encodeText s).getLast?_eq_slash, (written_encodeText s).getLast?_of_slash⟩

theorem Pattern.length_startsFrom {start : Nat} {stems values : List Text}
    (h : values.length = stems.length) :
    (startsFrom start stems values).length = values.length := by
  induction stems generalizing start values with
  | nil =>
    rw [List.length_eq_zero_iff.mp h]
    rfl
  | cons stem stems ih =>
    obtain ⟨value, values, rfl⟩ := List.exists_cons_of_length_eq_add_one h
    have hl : values.length = stems.length := by simpa using h
    simp only [startsFrom, List.length_cons, ih hl]

theorem Capture.decoded_of_written {c : Capture} {s : Text} (h : Uri.Written s c.value) :
    c.decoded = .ok s := by
  rw [decoded, h.decode]

namespace Template

variable {t : Template} {source : Source} {u : Uri} {o : Occurrence} {s : Text} {values : List Text}

theorem getLast?_last (h : t.text.getLast? ≠ some '/') : t.layout.last.getLast? ≠ some '/' := by
  intro hl
  apply h
  rw [text, Layout.text, List.getLast?_append, hl, Option.some_or]

theorem pattern_last (h : t.text.getLast? ≠ some '/') :
    t.pattern.last = Uri.encodeText t.layout.last := by
  change Pattern.dropFinalSlash _ = _
  rw [Pattern.dropFinalSlash, if_neg]
  intro hl
  exact getLast?_last h ((Uri.written_encodeText _).getLast?_eq_slash hl)

theorem length_stems (t : Template) : t.pattern.stems.length = t.layout.slots.length :=
  List.length_map _

theorem inline_pattern (t : Template) : t.pattern.Inline := Pattern.inline_ofLayout t.layout

theorem isMatch_text_iff : t.isMatch u.text = true ↔
    ∃ values, values.length = t.pattern.stems.length ∧ u.text = t.pattern.fill values := by
  rw [isMatch, Pattern.isMatch_iff t.inline_pattern]
  constructor
  · rintro ⟨values, hv, hu⟩
    exact ⟨values, hv.length_eq, hu⟩
  · rintro ⟨values, hl, hu⟩
    exact ⟨values, Pattern.fits_of_fill hl (hu ▸ u.lineFeed_not_mem_text), hu⟩

theorem exists_fill_of_expand
    (plain : ∀ literal ∈ t.layout.literals, literal.any Uri.isMark = false)
    (ending : t.text.getLast? ≠ some '/') (h : t.expand source = .ok u) :
    ∃ values written, t.values source = .ok values ∧ List.Forall₂ Uri.Written values written ∧
      t.pattern.Fits written ∧ u.text = t.pattern.fill written := by
  obtain ⟨values, written, hv, hw, hu⟩ := exists_weave_of_expand plain h
  have hl : written.length = t.pattern.stems.length := by
    rw [← hw.length_eq, length_values hv, length_stems]
  rw [← pattern_last ending, ← Pattern.fill_eq] at hu
  exact ⟨values, written, hv, hw, Pattern.fits_of_fill hl (hu ▸ u.lineFeed_not_mem_text), hu⟩

/-- A template without marks in its literal texts matches each of its expansions, whatever the
values are, if it ends in no slash or in a placeholder and one slash. -/
theorem isMatch_expand
    (plain : ∀ literal ∈ t.layout.literals, literal.any Uri.isMark = false)
    (ending : t.text.getLast? ≠ some '/' ∨ t.layout.slots ≠ [] ∧ t.layout.last = ['/'])
    (h : t.expand source = .ok u) : t.isMatch u.text = true := by
  rw [isMatch_text_iff]
  rcases ending with hend | ⟨hslots, hlast⟩
  · obtain ⟨-, written, -, -, hfits, hu⟩ := exists_fill_of_expand plain hend h
    exact ⟨written, hfits.length_eq, hu⟩
  · obtain ⟨values, written, hv, hw, hu⟩ := exists_weave_of_expand plain h
    have hl : written.length = t.pattern.stems.length := by
      rw [← hw.length_eq, length_values hv, length_stems]
    have hstems : t.pattern.stems ≠ [] := by
      rw [← List.length_pos_iff, length_stems, List.length_pos_iff]
      exact hslots
    have hslash : Uri.encodeText t.layout.last = ['/'] := by
      rw [hlast]
      decide
    have hempty : t.pattern.last = [] := by
      change Pattern.dropFinalSlash (Uri.encodeText t.layout.last) = []
      rw [hslash]
      rfl
    obtain ⟨values', hl', hw', -⟩ := Pattern.exists_weave_append hstems hl ['/']
    refine ⟨values', hl', ?_⟩
    rw [hu, hslash, Pattern.fill_eq, hempty, hw', List.append_nil]

theorem isMatch_final_slash : ∃ t u, ofText "s{a}é{b}/".toList = .ok t ∧
    t.expand (Bindings.positional [.text ":/[?#".toList, .text "\n%/".toList]).source = .ok u ∧
      t.isMatch u.text = true := by
  refine ⟨⟨Layout.scan "s{a}é{b}/".toList, by decide, by decide, by decide⟩,
    ⟨(Uri.Components.ofText "s:/[?#é\n%//".toList).encode, _, by decide, rfl⟩, rfl, rfl, ?_⟩
  exact @isMatch_expand _
    (Bindings.positional [.text ":/[?#".toList, .text "\n%/".toList]).source _ (by decide)
    (.inr ⟨by decide, rfl⟩) rfl

/-- The encoded literal texts before the placeholders. -/
def stems (t : Template) : List Text := t.layout.slots.map fun slot => Uri.encodeText slot.literal

/-- The encoded literal text at the end, without its last slash if the template ends in one. -/
def ending (t : Template) : Text :=
  if t.text.getLast? = some '/' then (Uri.encodeText t.layout.last).dropLast
  else Uri.encodeText t.layout.last

/-- The encoded literal texts with values in place of the placeholders between them. -/
def fill (t : Template) (values : List Text) : Text := Pattern.weave t.stems values ++ t.ending

theorem ending_append_slash (h : t.text.getLast? = some '/') :
    t.ending ++ ['/'] = Uri.encodeText t.layout.last := by
  have hlast : (Uri.encodeText t.layout.last).getLast? = some '/' :=
    (Uri.getLast?_encodeText_iff _).mpr (t.layout.getLast?_text_iff.mp h)
  rw [ending, if_pos h]
  exact List.dropLast_append_getLast? _ hlast

theorem pattern_eq (t : Template) : t.pattern = ⟨t.stems, t.ending⟩ := by
  have hlast : t.pattern.last = t.ending := by
    by_cases h : t.text.getLast? = some '/'
    · change Pattern.dropFinalSlash (Uri.encodeText t.layout.last) = t.ending
      rw [← ending_append_slash h, Pattern.dropFinalSlash_concat]
    · rw [pattern_last h, ending, if_neg h]
  rw [← hlast]
  rfl

theorem fill_pattern (t : Template) (values : List Text) :
    t.pattern.fill values = t.fill values := by
  rw [pattern_eq]
  rfl

theorem fits_pattern_iff {values : List Text} :
    t.pattern.Fits values ↔ values.length = t.count ∧ ∀ value ∈ values, '\n' ∉ value := by
  rw [count, ← length_stems]
  exact ⟨fun h => ⟨h.length_eq, h.inline⟩, fun h => ⟨h.1, h.2⟩⟩

/-- The positions where an occurrence of a template's pattern starts and ends. -/
def span (t : Template) (o : Occurrence) : Nat × Nat :=
  (Text.byteLength o.before, Text.byteLength (o.before ++ t.pattern.fill o.values))

theorem isMatch_iff_fill : t.isMatch s = true ↔
    ∃ values, values.length = t.count ∧ (∀ value ∈ values, '\n' ∉ value) ∧ s = t.fill values := by
  rw [isMatch, Pattern.isMatch_iff t.inline_pattern]
  simp only [fits_pattern_iff, fill_pattern, and_assoc]

private theorem eq_fill_of_span (h : t.find? s = some o)
    (hspan : t.span o = (0, Text.byteLength s)) : s = t.pattern.fill o.values := by
  obtain ⟨-, after, htext⟩ := Pattern.occurs_of_find? h
  simp only [span, Prod.mk.injEq, Text.byteLength_eq_zero_iff] at hspan
  obtain ⟨hbefore, hstop⟩ := hspan
  have hafter : Text.byteLength after = 0 := by
    have hsize := congrArg Text.byteLength htext
    simp only [Text.byteLength_append] at hsize hstop
    omega
  rw [Text.byteLength_eq_zero_iff] at hafter
  rw [htext, hbefore, hafter, List.nil_append, List.append_nil]

/-- A template matches a text if and only if line-feed-free values between its encoded literal texts
make up that text, and if and only if the first occurrence of its pattern, which captures are taken
from, goes from the start of the text to its end. -/
theorem isMatch_iff_span (t : Template) (s : Text) :
    (t.isMatch s = true ↔
      ∃ values, values.length = t.count ∧ (∀ value ∈ values, '\n' ∉ value) ∧ s = t.fill values) ∧
    (t.isMatch s = true ↔
      ∃ o, t.find? s = some o ∧ t.span o = (0, Text.byteLength s)) := by
  refine ⟨isMatch_iff_fill, ?_⟩
  rw [isMatch, Pattern.isMatch_iff t.inline_pattern]
  constructor
  · rintro ⟨values, hfits, hs⟩
    obtain ⟨found, hfound, hlongest⟩ := Pattern.find?_fill t.inline_pattern hfits
    refine ⟨⟨[], found⟩, ?_, ?_⟩
    · rw [find?, hs, hfound]
    · rw [span, List.nil_append, hlongest.fill_eq, hs]
      rfl
  · rintro ⟨o, hfind, hspan⟩
    exact ⟨o.values, (Pattern.occurs_of_find? hfind).fits, eq_fill_of_span hfind hspan⟩

private theorem length_zip_starts (h : o.values.length = t.pattern.stems.length) :
    (o.values.zip (t.pattern.starts o)).length = t.names.length := by
  rw [List.length_zip, Pattern.starts, Pattern.length_startsFrom h, Nat.min_self, h, length_stems]
  exact (List.length_map _).symm

theorem map_name_capturesOf (h : o.values.length = t.pattern.stems.length) :
    (t.capturesOf o).map Capture.name = t.names := by
  rw [capturesOf, List.map_map]
  exact List.map_fst_zip (Nat.le_of_eq (length_zip_starts h).symm)

theorem map_value_capturesOf (h : o.values.length = t.pattern.stems.length) :
    (t.capturesOf o).map Capture.value = o.values := by
  have hvalues : (t.capturesOf o).map Capture.value =
      ((t.names.zip (o.values.zip (t.pattern.starts o))).map Prod.snd).map Prod.fst := by
    rw [capturesOf, List.map_map, List.map_map]
    rfl
  rw [hvalues, List.map_snd_zip (Nat.le_of_eq (length_zip_starts h))]
  exact List.map_fst_zip (Nat.le_of_eq (Pattern.length_startsFrom h).symm)

theorem map_decoded_capturesOf (h : o.values.length = t.pattern.stems.length)
    (hw : List.Forall₂ Uri.Written values o.values) :
    (t.capturesOf o).map Capture.decoded = values.map Except.ok := by
  rw [← map_value_capturesOf h, List.forall₂_map_right_iff] at hw
  rw [← List.forall₂_eq_eq_eq, List.forall₂_map_left_iff, List.forall₂_map_right_iff]
  exact (hw.imp fun _ _ => Capture.decoded_of_written).flip

theorem of_mem_capturesOf {R : Text → Text → Prop} {c : Capture}
    (h : List.Forall₂ R t.names o.values) (hc : c ∈ t.capturesOf o) : R c.name c.value := by
  have hl : o.values.length = t.pattern.stems.length := by
    rw [← h.length_eq, length_stems]
    exact List.length_map _
  rw [← map_name_capturesOf hl, ← map_value_capturesOf hl, List.forall₂_map_left_iff,
    List.forall₂_map_right_iff, List.forall₂_same] at h
  exact h c hc

theorem captures_fill (h : t.pattern.Fits values) :
    ∃ found, t.captures (t.pattern.fill values) = .ofList (t.capturesOf ⟨[], found⟩) ∧
      t.pattern.IsLongest (t.pattern.fill values) found := by
  obtain ⟨found, hfound, hlongest⟩ := Pattern.find?_fill t.inline_pattern h
  refine ⟨found, ?_, hlongest⟩
  rw [captures, find?, hfound]

end Template

end LinkTemplate
