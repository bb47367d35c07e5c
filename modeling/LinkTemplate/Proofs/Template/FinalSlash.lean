import LinkTemplate.Proofs.Template.Matching
import LinkTemplate.Proofs.Template.Placeholders
import LinkTemplate.Proofs.Uri.Composition

/-! # A slash at the end -/

namespace LinkTemplate

namespace Text

/-- Puts a slash at the end of the last piece of a cut text. -/
def pushSlash : Text × Option Text → Text × Option Text
  | (s, none) => (s ++ ['/'], none)
  | (s, some t) => (s, some (t ++ ['/']))

theorem cut_append_slash {c : Char} (hc : c ≠ '/') (s : Text) :
    cut c (s ++ ['/']) = pushSlash (cut c s) := by
  obtain ⟨front, back?, rfl, hfront⟩ := exists_eq_append_lead c s
  rw [cut_append_lead_of_not_mem hfront]
  cases back? with
  | none =>
    have hslash : c ∉ front ++ ['/'] := by simp [hfront, hc]
    rw [lead_none, List.append_nil, cut_of_not_mem hslash, pushSlash]
  | some back =>
    rw [lead_some, List.append_assoc, List.cons_append, cut_append_cons hfront, pushSlash]

theorem takeWhile_append_slash {p : Char → Bool} (hp : p '/' = false) (s : Text) :
    (s ++ ['/']).takeWhile p = s.takeWhile p := by
  induction s with
  | nil => simp [hp]
  | cons c s ih => rw [List.cons_append, List.takeWhile_cons, List.takeWhile_cons, ih]

theorem dropWhile_append_slash {p : Char → Bool} (hp : p '/' = false) (s : Text) :
    (s ++ ['/']).dropWhile p = s.dropWhile p ++ ['/'] := by
  induction s with
  | nil => simp [hp]
  | cons c s ih =>
    rw [List.cons_append, List.dropWhile_cons, List.dropWhile_cons, ih]
    split <;> rfl

end Text

open Text (cut cut_append_slash lead pushSlash)

namespace Uri

private theorem encode_slash {keep : Char → Bool} (hk : keep '/' = true) :
    Percent.encode keep ['/'] = ['/'] := by
  rw [Percent.encode_cons, Percent.encodeChar, if_pos hk, Percent.encode_nil]
  rfl

private theorem encode_pushSlash {keep : Char → Bool} (hk : keep '/' = true) (c : Char)
    (p : Text × Option Text) :
    Percent.encode keep (pushSlash p).1 ++ lead c ((pushSlash p).2.map (Percent.encode isUriChar)) =
      Percent.encode keep p.1 ++ lead c (p.2.map (Percent.encode isUriChar)) ++ ['/'] := by
  obtain ⟨s, t?⟩ := p
  cases t? with
  | none => simp only [pushSlash, Percent.encode_append, encode_slash hk, Option.map_none,
      Text.lead_none, List.append_nil]
  | some t =>
    have hslash : Percent.encode isUriChar ['/'] = ['/'] := encode_slash (by decide)
    simp only [pushSlash, Percent.encode_append, hslash, Option.map_some, Text.lead_some,
      List.append_assoc, List.cons_append]

namespace Components

private theorem text_encode_unstructured (scheme : Text) (p : Text × Option Text) :
    (Components.unstructured scheme (pushSlash p).1 (pushSlash p).2).encode.text =
      (Components.unstructured scheme p.1 p.2).encode.text ++ ['/'] := by
  have hpart := encode_pushSlash (show isUriChar '/' = true by decide) '#' p
  simp [Components.encode, text, scheme?, schemeSpecificPart, Components.fragment?, hpart]

private theorem text_encode_hierarchical (scheme : Text) (authority? : Option Text)
    (p : Text × Option Text) :
    (hierarchical scheme authority? (pushSlash p).1 (pushSlash p).2 none).encode.text =
      (hierarchical scheme authority? p.1 p.2 none).encode.text ++ ['/'] := by
  have hpath := encode_pushSlash (show isPathChar '/' = true by decide) '?' p
  cases authority? <;>
    simp [Components.encode, text, scheme?, schemeSpecificPart, Components.fragment?, hpath]

private theorem text_encode_ofPart (scheme part : Text) (fragment? : Option Text) :
    (ofPart scheme part fragment?).encode.text = (ofPart scheme part none).encode.text ++
      lead '#' (fragment?.map (Percent.encode isUriChar)) := by
  unfold ofPart
  split <;> simp [Components.encode, text, scheme?, schemeSpecificPart, Components.fragment?]

private theorem text_encode_authority (scheme rest : Text) :
    (ofPart scheme ('/' :: '/' :: (rest ++ ['/'])) none).encode.text =
      (ofPart scheme ('/' :: '/' :: rest) none).encode.text ++ ['/'] := by
  let inside := fun d : Char => d != '/' && d != '?'
  have hpart (rest : Text) : ofPart scheme ('/' :: '/' :: rest) none =
      hierarchical scheme (some (rest.takeWhile inside)) (cut '?' (rest.dropWhile inside)).1
        (cut '?' (rest.dropWhile inside)).2 none := rfl
  have hstop : inside '/' = false := by decide
  rw [hpart, hpart, Text.takeWhile_append_slash hstop, Text.dropWhile_append_slash hstop,
    cut_append_slash (by decide), text_encode_hierarchical]

private theorem text_encode_path (scheme : Text) {path : Text} (head : path.head? = some '/')
    (single : ¬['/', '/'] <+: path ++ ['/']) :
    (ofPart scheme (path ++ ['/']) none).encode.text =
      (ofPart scheme path none).encode.text ++ ['/'] := by
  have hsingle : ¬['/', '/'] <+: path := fun h => single (h.trans (List.prefix_append _ _))
  have hhead : (path ++ ['/']).head? = some '/' := by simp [head]
  rw [ofPart_of_single_slash hhead single, ofPart_of_single_slash head hsingle,
    cut_append_slash (by decide), text_encode_hierarchical]

private theorem text_encode_ofPart_append_slash (scheme part : Text) :
    (ofPart scheme (part ++ ['/']) none).encode.text =
      (ofPart scheme part none).encode.text ++ ['/'] := by
  have hslash : Percent.encode isPathChar ['/'] = ['/'] := encode_slash (by decide)
  cases part with
  | nil =>
    have hpart : ofPart scheme ([] ++ ['/']) none = hierarchical scheme none ['/'] none none := rfl
    rw [hpart, Components.encode, hslash]
    simp [ofPart, Components.encode, text, scheme?, schemeSpecificPart, Components.fragment?]
  | cons c rest =>
    by_cases hc : c = '/'
    · subst hc
      cases rest with
      | nil =>
        have hpart : ofPart scheme (['/'] ++ ['/']) none =
            hierarchical scheme (some []) [] none none := rfl
        have hsingle : ofPart scheme ['/'] none = hierarchical scheme none ['/'] none none := rfl
        rw [hpart, hsingle, Components.encode, Components.encode, hslash]
        simp [text, scheme?, schemeSpecificPart, Components.fragment?]
      | cons d rest =>
        by_cases hd : d = '/'
        · subst hd
          exact text_encode_authority scheme rest
        · exact text_encode_path scheme rfl (by simp [Ne.symm hd])
    · have hhead : (c :: (rest ++ ['/'])).head? ≠ some '/' := by simpa using hc
      rw [List.cons_append, ofPart_unstructured hhead, ofPart_unstructured (by simpa using hc)]
      exact text_encode_unstructured scheme (c :: rest, none)

private theorem text_encode_rest (scheme rest : Text) :
    (ofPart scheme (cut '#' (rest ++ ['/'])).1 (cut '#' (rest ++ ['/'])).2).encode.text =
      (ofPart scheme (cut '#' rest).1 (cut '#' rest).2).encode.text ++ ['/'] := by
  rw [cut_append_slash (by decide)]
  generalize cut '#' rest = p
  obtain ⟨part, fragment?⟩ := p
  cases fragment? with
  | none => exact text_encode_ofPart_append_slash scheme part
  | some fragment =>
    have hslash : Percent.encode isUriChar ['/'] = ['/'] := encode_slash (by decide)
    simp only [pushSlash]
    rw [text_encode_ofPart _ _ (some (fragment ++ ['/'])), text_encode_ofPart _ _ (some fragment)]
    simp only [Option.map_some, Percent.encode_append, hslash, Text.lead_some, List.append_assoc,
      List.cons_append]

private theorem text_encode_relative (path : Text) (p : Text × Option Text) :
    (relative path (some (pushSlash p).1) (pushSlash p).2).encode.text =
      (relative path (some p.1) p.2).encode.text ++ ['/'] := by
  have hquery := encode_pushSlash (show isUriChar '/' = true by decide) '#' p
  simp [Components.encode, text, scheme?, schemeSpecificPart, Components.fragment?, hquery]

private theorem text_encode_relative_path (p : Text × Option Text) :
    (relative (pushSlash p).1 none (pushSlash p).2).encode.text =
      (relative p.1 none p.2).encode.text ++ ['/'] := by
  have hpath := encode_pushSlash (show isPathChar '/' = true by decide) '#' p
  simp [Components.encode, text, scheme?, schemeSpecificPart, Components.fragment?, hpath]

end Components

/-- A slash after a text is one after its encoded form, whatever the text is. -/
theorem encodeText_append_slash (s : Text) : encodeText (s ++ ['/']) = encodeText s ++ ['/'] := by
  rw [encodeText, encodeText, Components.ofText, Components.ofText, cut_append_slash (by decide)]
  generalize cut ':' s = p
  obtain ⟨scheme, rest?⟩ := p
  cases rest? with
  | some rest => exact Components.text_encode_rest scheme rest
  | none =>
    simp only [pushSlash]
    rw [cut_append_slash (by decide)]
    generalize cut '?' s = q
    obtain ⟨path, rest?⟩ := q
    cases rest? with
    | some rest =>
      simp only [pushSlash]
      rw [cut_append_slash (by decide)]
      exact Components.text_encode_relative path (cut '#' rest)
    | none =>
      simp only [pushSlash]
      rw [cut_append_slash (by decide)]
      exact Components.text_encode_relative_path (cut '#' s)

end Uri

namespace Pattern

theorem ofLayout_append_slash {slots : List Slot} {last : Text} (h : last.getLast? ≠ some '/') :
    ofLayout ⟨slots, last ++ ['/']⟩ = ofLayout ⟨slots, last⟩ := by
  have hlast : dropFinalSlash (Uri.encodeText last) = Uri.encodeText last := by
    rw [dropFinalSlash, if_neg]
    rwa [Uri.getLast?_encodeText_iff]
  rw [ofLayout, ofLayout, Uri.encodeText_append_slash, dropFinalSlash_concat, hlast]

theorem isMatch_append {p : Pattern} {s t : Text} (hp : p.Inline) (hs : p.stems ≠ [])
    (hlast : p.last = []) (ht : '\n' ∉ t) (h : p.isMatch s = true) :
    p.isMatch (s ++ t) = true := by
  rw [isMatch_iff hp] at h ⊢
  obtain ⟨values, hfits, rfl⟩ := h
  obtain ⟨values', hl, hweave, -⟩ := exists_weave_append hs hfits.length_eq t
  have hfill : p.fill values ++ t = p.fill values' := by
    rw [fill_eq, fill_eq, hlast, List.append_nil, List.append_nil, hweave]
  refine ⟨values', fits_of_fill hl ?_, hfill⟩
  rw [← hfill, List.mem_append, not_or]
  exact ⟨hp.lineFeed_not_mem_fill hfits, ht⟩

end Pattern

namespace Template

variable {s : Text} {t : Template}

theorem layout_of_ofText (h : ofText s = .ok t) : t.layout = Layout.scan s := by
  rw [← t.scan_text]
  exact congrArg Layout.scan (text_of_ofText h)

theorem layout_ne_nil (t : Template) : t.layout ≠ ⟨[], []⟩ := by
  intro h
  have hblank := t.not_blank
  rw [h] at hblank
  exact absurd hblank (by decide)

private theorem exists_ofText_append_slash (h : ofText s = .ok t)
    (ending : s.getLast? ≠ some '/') :
    ∃ t', ofText (s ++ ['/']) = .ok t' ∧ t'.layout = ⟨t.layout.slots, t.layout.last ++ ['/']⟩ ∧
      t'.pattern = t.pattern := by
  have hlast : t.layout.last.getLast? ≠ some '/' := getLast?_last (by rwa [text_of_ofText h])
  have hscan : Layout.scan (s ++ ['/']) = ⟨t.layout.slots, t.layout.last ++ ['/']⟩ := by
    rw [Layout.scan_append_slash, ← layout_of_ofText h]
  have hpattern : Pattern.ofLayout (Layout.scan (s ++ ['/'])) = t.pattern := by
    rw [hscan, Pattern.ofLayout_append_slash hlast]
    rfl
  have visible : Text.isBlank (s ++ ['/']) = false := by
    have hslash : Text.isWhiteSpace '/' = false := by decide
    simp [Text.isBlank, hslash]
  obtain ⟨t', ht', hlayout⟩ := exists_ofText visible (by rw [hpattern]; exact t.weight_le)
  refine ⟨t', ht', hlayout.trans hscan, ?_⟩
  rw [← hpattern, ← hlayout]
  rfl

/-- A template that ends in no slash, with a slash after it, is a template with the same
placeholders and the same pattern. So both match the same texts and capture the same from any text.
If no literal text follows the last placeholder, both match each text that they match with a slash
after it, too. -/
theorem ofText_append_slash (h : ofText s = .ok t) (ending : s.getLast? ≠ some '/') :
    ∃ t', ofText (s ++ ['/']) = .ok t' ∧ t'.names = t.names ∧ t'.ranges = t.ranges ∧
      t'.pattern.text = t.pattern.text ∧
      (∀ u, t'.isMatch u = t.isMatch u ∧ t'.captures u = t.captures u) ∧
      (t.layout.last = [] → ∀ u, t.isMatch u = true →
        t.isMatch (u ++ ['/']) = true ∧ t'.isMatch (u ++ ['/']) = true) := by
  obtain ⟨t', ht', hlayout, hpattern⟩ := exists_ofText_append_slash h ending
  have hnames : t'.names = t.names := by
    rw [names, hlayout]
    rfl
  have hranges : t'.ranges = t.ranges := by
    rw [ranges, ranges, Layout.ranges_eq_slotRanges, Layout.ranges_eq_slotRanges, hlayout]
  have hmatch (u : Text) : t'.isMatch u = t.isMatch u := by rw [isMatch, isMatch, hpattern]
  have hcaptures (u : Text) : t'.captures u = t.captures u := by
    simp only [captures, find?, capturesOf, hpattern, hnames]
  refine ⟨t', ht', hnames, hranges, by rw [hpattern], fun u => ⟨hmatch u, hcaptures u⟩, ?_⟩
  intro hlast u hu
  have hstems : t.pattern.stems ≠ [] := by
    intro hnil
    have hslots : t.layout.slots = [] := List.map_eq_nil_iff.mp hnil
    exact t.layout_ne_nil (congrArg₂ Layout.mk hslots hlast)
  have hempty : t.pattern.last = [] := by
    have hend : t.text.getLast? ≠ some '/' := by rwa [text_of_ofText h]
    rw [pattern_last hend, hlast]
    rfl
  have hslash : t.isMatch (u ++ ['/']) = true :=
    Pattern.isMatch_append t.inline_pattern hstems hempty (by decide) hu
  exact ⟨hslash, (hmatch _).trans hslash⟩

/-- An empty pair of braces in the literal text, and a text that is matched with two slashes. -/
theorem ofText_append_slash_empty_braces : ∃ t t', ofText "s:é{}/{y}".toList = .ok t ∧
    "s:é{}/{y}".toList.getLast? ≠ some '/' ∧ ofText ("s:é{}/{y}".toList ++ ['/']) = .ok t' ∧
      t'.ranges = t.ranges ∧ t'.pattern.text = t.pattern.text ∧
      t.isMatch "s:%C3%A9%7B%7D/1/".toList = true ∧
      t'.isMatch "s:%C3%A9%7B%7D/1/".toList = true := by
  have h : ofText "s:é{}/{y}".toList =
      .ok ⟨Layout.scan "s:é{}/{y}".toList, by decide, by decide, by decide⟩ := rfl
  have ending : "s:é{}/{y}".toList.getLast? ≠ some '/' := by decide
  obtain ⟨t', ht', -, hranges, hpattern, -, hslash⟩ := ofText_append_slash h ending
  obtain ⟨hmatch, hmatch'⟩ := hslash rfl "s:%C3%A9%7B%7D/1".toList (by decide)
  exact ⟨_, t', h, ending, ht', hranges, hpattern, hmatch, hmatch'⟩

end Template

end LinkTemplate
