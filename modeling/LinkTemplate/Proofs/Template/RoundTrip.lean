import LinkTemplate.Proofs.Template.Matching

/-!
# Expanding and capturing

With slashes between the placeholders and none in the values, a template captures what was put into
its expansion. Without them it may capture other values, and these expand it to the same URI.
-/

namespace LinkTemplate

namespace Template

variable {t : Template} {u : Uri} {value? : Text → Option Text}

private theorem slash_mem_stems (slashes : ∀ slot ∈ t.layout.slots.tail, '/' ∈ slot.literal) :
    ∀ stem ∈ t.pattern.stems.tail, '/' ∈ stem := by
  intro stem hm
  have htail : t.pattern.stems.tail =
      t.layout.slots.tail.map fun slot => Uri.encodeText slot.literal := List.map_tail.symm
  rw [htail] at hm
  obtain ⟨slot, hslot, rfl⟩ := List.mem_map.mp hm
  exact (Uri.written_encodeText slot.literal).mem_of_mem (slashes slot hslot) (by decide)

private theorem slash_not_mem_written {values written : List Text}
    (hv : ∀ value ∈ values, '/' ∉ value) (h : List.Forall₂ Uri.Written values written) :
    ∀ w ∈ written, '/' ∉ w := by
  induction h with
  | nil =>
    intro w hm
    exact absurd hm List.not_mem_nil
  | cons hw _ ih =>
    intro w hm
    rcases List.mem_cons.mp hm with rfl | hm
    · intro hc
      exact hv _ List.mem_cons_self (hw.slash_mem hc)
    · apply ih _ w hm
      intro v hm
      exact hv v (List.mem_cons_of_mem _ hm)

private theorem forall₂_written_of_names {names values written : List Text}
    (hv : names.map value? = values.map some) (h : List.Forall₂ Uri.Written values written) :
    List.Forall₂ (fun name w => ∃ v, value? name = some v ∧ Uri.Written v w) names written := by
  induction h generalizing names with
  | nil =>
    obtain rfl : names = [] := List.map_eq_nil_iff.mp hv
    exact .nil
  | cons hw _ ih =>
    rw [List.map_cons, List.map_eq_cons_iff] at hv
    obtain ⟨name, names, rfl, hname, hnames⟩ := hv
    exact .cons ⟨_, hname, hw⟩ (ih hnames)

/-- A template without marks in its literal texts that ends in no slash and has one between any two
placeholders: from an expansion with slash-free values by name it captures each name, in the order
in which the names came first, and what it captures decodes to the value of the name. -/
theorem captures_expand
    (plain : ∀ literal ∈ t.layout.literals, literal.any Uri.isMark = false)
    (ending : t.text.getLast? ≠ some '/')
    (slashes : ∀ slot ∈ t.layout.slots.tail, '/' ∈ slot.literal)
    (free : ∀ name ∈ t.names, ∃ v, value? name = some v ∧ '/' ∉ v)
    (h : t.expand (.byName value?) = .ok u) :
    (t.captures u.text).entries.map Capture.name = t.names.eraseDups ∧
      ∀ c ∈ (t.captures u.text).entries, ∃ v, value? c.name = some v ∧ c.decoded = .ok v := by
  obtain ⟨values, written, hvalues, hwritten, hfits, hu⟩ := exists_fill_of_expand plain ending h
  rw [values_byName_eq_ok_iff] at hvalues
  have hfree : ∀ value ∈ values, '/' ∉ value := by
    intro value hm
    have hsome : some value ∈ t.names.map value? := hvalues ▸ List.mem_map_of_mem hm
    obtain ⟨name, hname, hvalue⟩ := List.mem_map.mp hsome
    obtain ⟨v, hv, hslash⟩ := free name hname
    rw [hvalue, Option.some.injEq] at hv
    exact hv ▸ hslash
  obtain ⟨found, hcaptures, hlongest⟩ := captures_fill hfits
  have hfound : found = written := by
    have hweave := hlongest.fill_eq
    rw [Pattern.fill_eq, Pattern.fill_eq, List.append_cancel_right_eq] at hweave
    exact Pattern.eq_of_weave_eq (slash_mem_stems slashes) (slash_not_mem_written hfree hwritten)
      hlongest.fits.length_eq hfits.length_eq hweave
  have hl : written.length = t.pattern.stems.length := hfits.length_eq
  rw [hu, hcaptures, hfound]
  constructor
  · rw [Captures.map_name_ofList, map_name_capturesOf hl]
  · intro c hc
    obtain ⟨v, hv, hw⟩ := of_mem_capturesOf (forall₂_written_of_names hvalues hwritten)
      (Captures.mem_of_mem_ofList hc)
    exact ⟨v, hv, Capture.decoded_of_written hw⟩

theorem captures_repeated_name : ∃ t u, ofText "s:{a}/é{b}/{a}".toList = .ok t ∧
    t.expand (.byName fun name =>
      List.lookup name [("a".toList, "?#:[%\n".toList), ("b".toList, [])]) = .ok u ∧
      (t.captures u.text).entries.map Capture.name = ["a".toList, "b".toList] ∧
        ∀ c ∈ (t.captures u.text).entries, ∃ v,
          List.lookup c.name [("a".toList, "?#:[%\n".toList), ("b".toList, [])] = some v ∧
            c.decoded = .ok v := by
  refine ⟨⟨Layout.scan "s:{a}/é{b}/{a}".toList, by decide, by decide, by decide⟩,
    ⟨(Uri.Components.ofText "s:?#:[%\n/é/?#:[%\n".toList).encode, _, by decide, rfl⟩,
    rfl, rfl, ?_⟩
  apply @captures_expand _ _ fun name =>
    List.lookup name [("a".toList, "?#:[%\n".toList), ("b".toList, [])]
  · decide
  · decide
  · decide
  · intro name hm
    have hname : name ∈ ["a".toList, "b".toList, "a".toList] := hm
    simp only [List.mem_cons, List.not_mem_nil, or_false] at hname
    rcases hname with rfl | rfl | rfl
    all_goals exact ⟨_, rfl, by decide⟩
  · rfl

end Template

namespace Uri.Written

open Percent (encodeChar isEscapeDigit IsInner)

variable {s u a b : Text}

/-- A cut that leaves no inner text is a cut of the text itself. -/
theorem exists_of_not_isInner (h : Written s u) (hu : u = a ++ b) (hb : ¬IsInner b) :
    ∃ t v, s = t ++ v ∧ Written t a ∧ Written v b := by
  induction h generalizing a with
  | nil =>
    obtain ⟨rfl, rfl⟩ := List.append_eq_nil_iff.mp hu.symm
    exact ⟨[], [], rfl, .nil, .nil⟩
  | @encoded c s u hs ih =>
    rcases a.eq_nil_or_concat with rfl | ⟨_, _, ha⟩
    · rw [List.nil_append] at hu
      exact ⟨[], c :: s, rfl, .nil, hu ▸ .encoded c hs⟩
    · have hne : a ≠ [] := by simp [ha]
      have hl : (encodeChar isKeptChar c).length ≤ a.length :=
        Nat.le_of_not_lt fun hl => hb (Percent.isInner_of_encodeChar hu hne hl)
      obtain ⟨a', rfl⟩ : encodeChar isKeptChar c <+: a :=
        List.prefix_of_prefix_length_le ⟨u, rfl⟩ ⟨b, hu.symm⟩ hl
      rw [List.append_assoc, List.append_cancel_left_eq] at hu
      obtain ⟨t, v, rfl, ht, hv⟩ := ih hu
      exact ⟨c :: t, v, rfl, .encoded c ht, hv⟩
  | @mark c hc s u hs ih =>
    cases a with
    | nil =>
      rw [List.nil_append] at hu
      exact ⟨[], c :: s, rfl, .nil, hu ▸ .mark hc hs⟩
    | cons d a =>
      rw [List.cons_append, List.cons.injEq] at hu
      obtain ⟨rfl, hu⟩ := hu
      obtain ⟨t, v, rfl, ht, hv⟩ := ih hu
      exact ⟨c :: t, v, rfl, .mark hc ht, hv⟩

private theorem head_eq {c d : Char} (h : Written (d :: s) (encodeChar isKeptChar c ++ b)) :
    d = c := by
  have hd := h.bytes_append []
  rw [List.append_assoc, Percent.bytes_encodeChar_append isKeptChar_percent, List.flatMap_cons,
    List.append_assoc] at hd
  exact (Percent.eq_of_utf8EncodeChar_append hd).symm

private theorem exists_of_encodeChar_append {c : Char} (hc : isMark c = false)
    (h : Written s u) (hu : u = encodeChar isKeptChar c ++ b) :
    ∃ t, s = c :: t ∧ Written t b := by
  cases s with
  | nil =>
    have hnil := List.append_eq_nil_iff.mp (hu ▸ h.eq_nil)
    exact absurd hnil.1 (Percent.encodeChar_ne_nil _ _)
  | cons d s =>
    obtain rfl : d = c := head_eq (hu ▸ h)
    cases h with
    | encoded _ h =>
      rw [List.append_cancel_left_eq] at hu
      exact ⟨s, rfl, hu ▸ h⟩
    | mark hd _ =>
      rw [hc] at hd
      exact absurd hd Bool.false_ne_true

theorem exists_of_encode_append {l : Text} (hl : ∀ c ∈ l, isMark c = false)
    (h : Written s (Percent.encode isKeptChar l ++ b)) : ∃ t, s = l ++ t ∧ Written t b := by
  induction l generalizing s with
  | nil => exact ⟨s, rfl, h⟩
  | cons c l ih =>
    rw [Percent.encode_cons, List.append_assoc] at h
    obtain ⟨t, rfl, ht⟩ := exists_of_encodeChar_append (hl c List.mem_cons_self) h rfl
    obtain ⟨t', rfl, ht'⟩ := ih (fun d hd => hl d (List.mem_cons_of_mem _ hd)) ht
    exact ⟨t', rfl, ht'⟩

end Uri.Written

open Percent (encode IsInner isEscapeDigit)
open Pattern (weave)
open Uri (Written isKeptChar isMark)

/-- The decoded value of a name. -/
def Captures.decoded? (cs : Captures) (name : Text) : Option Text :=
  (cs.find? name).bind fun c => c.decoded.toOption

theorem Captures.map_decoded? {cs : Captures} {raw : List Text}
    (distinct : (cs.entries.map Capture.name).Nodup)
    (h : cs.entries.map Capture.decoded = raw.map Except.ok) :
    (cs.entries.map Capture.name).map cs.decoded? = raw.map some := by
  have hvalue : ∀ c ∈ cs.entries, cs.decoded? c.name = c.decoded.toOption := by
    intro c hc
    rw [decoded?, find?_of_mem distinct hc, Option.bind_some]
  calc (cs.entries.map Capture.name).map cs.decoded?
      = cs.entries.map (fun c => cs.decoded? c.name) := List.map_map
    _ = (cs.entries.map Capture.decoded).map Except.toOption := by
        rw [List.map_map]
        exact List.map_congr_left hvalue
    _ = raw.map some := by
        rw [h, List.map_map]
        rfl

variable {stems values : List Text} {s : Text}

/-- What a value is followed by is no inner text if no stem starts with a digit of an escape and no
value stands after an empty stem. -/
private theorem not_isInner_weave
    (digits : ∀ stem ∈ stems, stem.head?.any isEscapeDigit = false)
    (h : List.Forall₂ (fun stem value => encode isKeptChar stem = [] → value = []) stems values) :
    ¬IsInner (weave (stems.map (encode isKeptChar)) values) := by
  induction h with
  | nil => exact Percent.not_isInner_nil
  | @cons stem value stems values hnil _ ih =>
    rw [List.map_cons, Pattern.weave_cons]
    cases stem with
    | nil =>
      rw [hnil rfl, Percent.encode_nil, List.nil_append, List.nil_append]
      apply ih
      intro stem hm
      exact digits stem (List.mem_cons_of_mem _ hm)
    | cons c stem =>
      rw [Percent.encode_cons, List.append_assoc]
      exact Percent.not_isInner_encodeChar_append Uri.isKeptChar_percent
        (digits _ List.mem_cons_self) _

/-- Cut at such places, a written form of a text falls into encoded stems and written forms. -/
private theorem exists_values_of_weave (plain : ∀ stem ∈ stems, stem.any isMark = false)
    (digits : ∀ stem ∈ stems.tail, stem.head?.any isEscapeDigit = false)
    (hl : values.length = stems.length)
    (hnil : List.Forall₂ (fun stem value => encode isKeptChar stem = [] → value = [])
      stems.tail values.tail)
    (h : Written s (weave (stems.map (encode isKeptChar)) values)) :
    ∃ raw, s = weave stems raw ∧ List.Forall₂ Written raw values := by
  induction stems generalizing values s with
  | nil =>
    obtain rfl := List.length_eq_zero_iff.mp hl
    have hs := h.decode
    rw [List.map_nil, Pattern.weave_nil, Written.nil.decode, Option.some.injEq] at hs
    exact ⟨[], hs.symm, .nil⟩
  | cons stem stems ih =>
    obtain ⟨value, values, rfl⟩ := List.exists_cons_of_length_eq_add_one hl
    rw [List.map_cons, Pattern.weave_cons] at h
    obtain ⟨rest, rfl, hrest⟩ := h.exists_of_encode_append
      (Uri.isMark_eq_false_of_any (plain stem List.mem_cons_self))
    obtain ⟨v, tail, rfl, hv, htail⟩ :=
      hrest.exists_of_not_isInner rfl (not_isInner_weave digits hnil)
    have hnil' : List.Forall₂ (fun stem value => encode isKeptChar stem = [] → value = [])
        stems.tail values.tail := by
      change List.Forall₂ _ stems values at hnil
      cases hnil with
      | nil => exact .nil
      | cons _ hnil => exact hnil
    obtain ⟨raw, rfl, hraw⟩ := ih (fun stem hm => plain stem (List.mem_cons_of_mem _ hm))
      (fun stem hm => digits stem (List.mem_of_mem_tail hm)) (by simpa using hl) hnil' htail
    refine ⟨v :: raw, ?_, .cons hv hraw⟩
    rw [Pattern.weave_cons]

namespace Template

variable {t : Template} {source : Source} {u : Uri} {written raw : List Text}

private theorem stems_eq (plain : ∀ literal ∈ t.layout.literals, literal.any isMark = false) :
    t.pattern.stems = (t.layout.slots.map Slot.literal).map (encode isKeptChar) := by
  rw [List.map_map]
  apply List.map_congr_left
  intro slot hm
  apply Uri.encodeText_eq_encode
  apply Uri.isMark_eq_false_of_any
  exact plain _ (List.mem_append_left _ (List.mem_map_of_mem hm))

/-- The longest values that fill the pattern to an expansion are written forms of values that make
up the expanded text. -/
theorem exists_substitute_of_isLongest
    (plain : ∀ literal ∈ t.layout.literals, literal.any isMark = false)
    (digits : ∀ slot ∈ t.layout.slots.tail, slot.literal.head?.any isEscapeDigit = false)
    (hw : List.Forall₂ Written values written) (hfits : t.pattern.Fits written)
    {found : List Text} (hfound : t.pattern.IsLongest (t.pattern.fill written) found) :
    ∃ raw, List.Forall₂ Written raw found ∧
      t.layout.substitute raw = t.layout.substitute values := by
  have hweave := hfound.fill_eq
  rw [Pattern.fill_eq, Pattern.fill_eq, List.append_cancel_right_eq] at hweave
  have hwritten : Written (weave (t.layout.slots.map Slot.literal) values)
      (weave t.pattern.stems found) := by
    have hstems : List.Forall₂ Written (t.layout.slots.map Slot.literal) t.pattern.stems := by
      have h := Written.forall₂_encodeText (t.layout.slots.map Slot.literal)
      rw [List.map_map] at h
      exact h
    rw [hweave]
    apply Written.weave hstems hw
    rw [hw.length_eq, hfits.length_eq, hstems.length_eq]
  have hnil := hfound.nil_of_stem_nil t.inline_pattern
  rw [stems_eq plain, ← List.map_tail, List.forall₂_map_left_iff] at hnil
  rw [stems_eq plain] at hwritten
  obtain ⟨raw, hraw, hfound'⟩ := exists_values_of_weave
    (fun stem hm => plain stem (List.mem_append_left _ hm)) (by
      intro stem hm
      rw [← List.map_tail] at hm
      obtain ⟨slot, hslot, rfl⟩ := List.mem_map.mp hm
      exact digits slot hslot)
    (by rw [hfound.fits.length_eq, length_stems, List.length_map]) hnil hwritten
  exact ⟨raw, hfound', by rw [Layout.substitute_eq, Layout.substitute_eq, hraw]⟩

/-- A template with distinct names and without marks in its literal texts that ends in no slash,
where no literal text between two placeholders starts with a digit of an escape: what it captures
from an expansion decodes, and the decoded values expand it to the same URI. -/
theorem expand_captures (distinct : t.names.Nodup)
    (plain : ∀ literal ∈ t.layout.literals, literal.any isMark = false)
    (ending : t.text.getLast? ≠ some '/')
    (digits : ∀ slot ∈ t.layout.slots.tail, slot.literal.head?.any isEscapeDigit = false)
    (h : t.expand source = .ok u) :
    (∀ c ∈ (t.captures u.text).entries, ∃ v, c.decoded = .ok v) ∧
      t.expand (.byName (t.captures u.text).decoded?) = .ok u := by
  obtain ⟨values, written, hvalues, hw, hfits, hu⟩ := exists_fill_of_expand plain ending h
  obtain ⟨found, hcaptures, hlongest⟩ := captures_fill hfits
  obtain ⟨raw, hraw, hsubstitute⟩ := exists_substitute_of_isLongest plain digits hw hfits hlongest
  have hl : found.length = t.pattern.stems.length := hlongest.fits.length_eq
  have hnames := map_name_capturesOf (o := ⟨[], found⟩) hl
  have hdecoded := map_decoded_capturesOf (o := ⟨[], found⟩) hl hraw
  have hentries : (t.captures u.text).entries = t.capturesOf ⟨[], found⟩ := by
    rw [hu, hcaptures]
    exact Captures.entries_ofList (hnames ▸ distinct)
  constructor
  · intro c hc
    have hmem : c.decoded ∈ raw.map Except.ok := by
      rw [← hdecoded, ← hentries]
      exact List.mem_map_of_mem hc
    obtain ⟨v, -, hv⟩ := List.mem_map.mp hmem
    exact ⟨v, hv.symm⟩
  · have htaken : t.names.map (t.captures u.text).decoded? = raw.map some := by
      rw [← hnames, ← hentries]
      apply Captures.map_decoded?
      · rw [hentries, hnames]
        exact distinct
      · rw [hentries, hdecoded]
    obtain ⟨values', hvalues', hparse⟩ := expand_eq_ok_iff.mp h
    obtain rfl : values = values' := Except.ok.inj (hvalues.symm.trans hvalues')
    rw [expand_eq_ok_iff]
    exact ⟨raw, values_byName_eq_ok_iff.mpr htaken, hsubstitute ▸ hparse⟩

theorem expand_captures_adjacent : ∃ t u, ofText "s:{a}-{b}{c}0".toList = .ok t ∧
    t.expand (Bindings.positional
      [.text "é-".toList, .text "-%".toList, .text "/?#".toList]).source = .ok u ∧
      (∀ c ∈ (t.captures u.text).entries, ∃ v, c.decoded = .ok v) ∧
        t.expand (.byName (t.captures u.text).decoded?) = .ok u := by
  refine ⟨⟨Layout.scan "s:{a}-{b}{c}0".toList, by decide, by decide, by decide⟩,
    ⟨(Uri.Components.ofText "s:é---%/?#0".toList).encode, _, by decide, rfl⟩, rfl, rfl, ?_⟩
  exact @expand_captures _
    (Bindings.positional [.text "é-".toList, .text "-%".toList, .text "/?#".toList]).source _
    (by decide) (by decide) (by decide) (by decide) rfl

end Template

end LinkTemplate
