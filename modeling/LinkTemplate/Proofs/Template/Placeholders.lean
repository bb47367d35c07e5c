import LinkTemplate.Proofs.Layout
import LinkTemplate.Proofs.Template.Expansion
import Mathlib.Data.List.Pairwise
import Mathlib.Data.Nat.Find

namespace LinkTemplate

open Pattern (weave)
open Text (byteLength)

namespace Layout

/-- At a position of a text stands an opening brace with a closing brace directly after it. -/
def EmptyBracesAt (s : Text) (n : Nat) : Prop :=
  ∃ before after, s = before ++ '{' :: '}' :: after ∧ n = byteLength before

variable {s name before after : Text} {r : Nat × Nat} {ranges : List (Nat × Nat)}

theorem Encloses.eq_append (h : Encloses s r name) (hs : s = before ++ '{' :: after)
    (hr : r.1 = byteLength before) : ∃ rest, after = name ++ '}' :: rest := by
  obtain ⟨before', rest, hs', rfl⟩ := h
  rw [List.append_assoc, List.cons_append] at hs'
  obtain rfl := Text.eq_of_byteLength_eq (hs.symm.trans hs') hr.symm
  rw [hs, List.append_cancel_left_eq, List.cons.injEq] at hs'
  exact ⟨rest, hs'.2⟩

theorem IsName.brace_mem_iff (hname : IsName name) (h : Encloses s r name) :
    '}' ∈ name ↔ EmptyBracesAt s r.1 := by
  obtain ⟨c, inner, rfl⟩ := List.exists_cons_of_ne_nil hname.ne_nil
  constructor
  · intro hm
    obtain rfl : '}' = c := (List.mem_cons.mp hm).resolve_right hname.brace_not_mem
    obtain ⟨before, after, hs, rfl⟩ := h
    exact ⟨before, inner ++ '}' :: after, by simp [hs], rfl⟩
  · rintro ⟨before, after, hs, hr⟩
    obtain ⟨rest, hafter⟩ := h.eq_append hs hr
    rw [List.cons_append, List.cons.injEq] at hafter
    exact List.mem_cons.mpr (.inl hafter.1)

theorem Covers.disjoint {q : Nat × Nat} (h : Covers s 0 ranges) (hq : q ∈ ranges) (hr : r ∈ ranges)
    (hne : q ≠ r) : q.2 ≤ r.1 ∨ r.2 ≤ q.1 := by
  have hsymm : Std.Symm fun p p' : Nat × Nat => p.2 ≤ p'.1 ∨ p'.2 ≤ p.1 := ⟨fun _ _ => Or.symm⟩
  have hpairs : ranges.Pairwise fun p p' : Nat × Nat => p.2 ≤ p'.1 ∨ p'.2 ≤ p.1 :=
    h.ascending.imp Or.inl
  exact hpairs.forall hq hr hne

theorem Covers.exists_fst_eq_iff (h : Covers s 0 ranges)
    (hs : s = before ++ '{' :: '}' :: after) :
    (∃ r ∈ ranges, r.1 = byteLength before) ↔
      (∀ r ∈ ranges, ¬(r.1 < byteLength before ∧ byteLength before < r.2)) ∧
        ∃ inner rest, after = inner ++ '}' :: rest ∧ '/' ∉ inner := by
  constructor
  · rintro ⟨r, hr, hfst⟩
    obtain ⟨name, hencloses, hname⟩ := h.isPlaceholder r hr
    refine ⟨?_, ?_⟩
    · intro q hq hin
      have hlt := (h.isPlaceholder r hr).fst_lt_snd
      have hne : q ≠ r := by
        rintro rfl
        omega
      rcases h.disjoint hq hr hne with hle | hle <;> omega
    · obtain ⟨rest, hafter⟩ := hencloses.eq_append hs hfst
      obtain ⟨c, inner, rfl⟩ := List.exists_cons_of_ne_nil hname.ne_nil
      rw [List.cons_append, List.cons.injEq] at hafter
      exact ⟨inner, rest, hafter.2, fun hm => hname.slash_not_mem (List.mem_cons_of_mem c hm)⟩
  · rintro ⟨houter, inner, rest, rfl, hslash⟩
    apply Classical.byContradiction
    intro hnone
    refine h.not_closes before _ hs (Nat.zero_le _) ?_
      ⟨'}' :: inner, rest, rfl, List.cons_ne_nil _ _, by simp [hslash]⟩
    intro r hr hin
    rcases Nat.lt_or_eq_of_le hin.1 with hlt | heq
    · exact houter r hr ⟨hlt, hin.2⟩
    · exact hnone ⟨r, hr, heq⟩

end Layout

/-- A name as it stands in the text of a template. -/
def Text.inBraces (name : Text) : Text := '{' :: name ++ ['}']

theorem Layout.substitute_inBraces (l : Layout) :
    l.substitute (l.names.map Text.inBraces) = l.text := by
  have htext : (fun slot : Slot => slot.literal ++ Text.inBraces slot.name) = Slot.text := by
    funext slot
    simp [Slot.text, Text.inBraces]
  rw [substitute, names, List.map_map, ← List.map_prod_left_eq_zip, List.flatMap_map, text]
  exact congrArg (l.slots.flatMap · ++ l.last) htext

namespace Template

def ranges (t : Template) : List (Nat × Nat) := t.layout.ranges

theorem exists_ofText {s : Text} (visible : Text.isBlank s = false)
    (light : (Pattern.ofLayout (Layout.scan s)).weight ≤ Pattern.weightLimit) :
    ∃ t, ofText s = .ok t ∧ t.layout = Layout.scan s := by
  rw [ofText, dif_neg (by rw [visible]; exact Bool.false_ne_true), dif_neg (Nat.not_lt.mpr light)]
  exact ⟨_, rfl, rfl⟩

theorem substitute_inBraces (t : Template) :
    t.substitute (.byName fun name => some (Text.inBraces name)) = .ok t.text := by
  have hvalues : t.values (.byName fun name => some (Text.inBraces name)) =
      .ok (t.names.map Text.inBraces) := by
    rw [values_byName_eq_ok_iff, List.map_map]
    rfl
  rw [substitute, hvalues]
  exact congrArg Except.ok t.layout.substitute_inBraces

/-- A text that is not blank has one list of all its placeholders: ranges of bytes that ascend and
are disjoint, each a name between braces, such that no opening brace outside of them closes. The
template of the text has these ranges and the names in them, and with each name put back between
braces it is the text again. -/
theorem ofText_ranges {s : Text} (visible : Text.isBlank s = false) :
    ∃ ranges, (∀ ranges', Layout.Covers s 0 ranges' ↔ ranges' = ranges) ∧
      ((Pattern.ofLayout (Layout.scan s)).weight ≤ Pattern.weightLimit →
        ∃ t, ofText s = .ok t ∧ t.ranges = ranges ∧
          List.Forall₂ (Layout.Encloses s) t.ranges t.names ∧
          t.substitute (.byName fun name => some (Text.inBraces name)) = .ok s) := by
  refine ⟨(Layout.scan s).ranges, fun ranges' => Layout.covers_iff, ?_⟩
  intro light
  obtain ⟨t, ht, hlayout⟩ := exists_ofText visible light
  have hnames := t.layout.forall₂_encloses
  have htext := t.substitute_inBraces
  change List.Forall₂ (Layout.Encloses t.text) t.ranges t.names at hnames
  rw [text_of_ofText ht] at hnames htext
  exact ⟨t, ht, congrArg Layout.ranges hlayout, hnames, htext⟩

theorem ofText_ranges_braces : Text.isBlank "/{é{b}/{}/{c/d}{}}".toList = false ∧
    (∀ ranges, Layout.Covers "/{é{b}/{}/{c/d}{}}".toList 0 ranges ↔
      ranges = [(1, 7), (16, 19)]) ∧
    ∃ t, ofText "/{é{b}/{}/{c/d}{}}".toList = .ok t ∧ t.ranges = [(1, 7), (16, 19)] ∧
      t.substitute (.byName fun name => some (Text.inBraces name)) =
        .ok "/{é{b}/{}/{c/d}{}}".toList := by
  have visible : Text.isBlank "/{é{b}/{}/{c/d}{}}".toList = false := by decide
  obtain ⟨ranges, hunique, htemplate⟩ := ofText_ranges visible
  have hranges : ranges = [(1, 7), (16, 19)] :=
    (Layout.covers_iff.mp ((hunique ranges).mpr rfl)).trans (by decide)
  subst hranges
  obtain ⟨t, ht, htranges, -, hsubstitute⟩ := htemplate (by decide)
  exact ⟨visible, hunique, t, ht, htranges, hsubstitute⟩

theorem scanned_layout (t : Template) : t.layout.Scanned := by
  rw [← t.scan_text]
  exact Layout.scanned_scan _

theorem covers_ranges (t : Template) : Layout.Covers t.text 0 t.ranges := by
  have h := Layout.covers_scan t.text
  rwa [text, t.scan_text] at h

/-- The closing brace of a placeholder is the first one after the first character of its name. It is
the first one after the opening brace unless the placeholder starts with an empty pair of braces.
Such a pair starts a placeholder if and only if no placeholder is around it and a closing brace
comes after it with no slash in between. -/
theorem closing_brace (t : Template) :
    List.Forall₂ (fun r name => Layout.Encloses t.text r name ∧ '}' ∉ name.tail ∧
      ('}' ∈ name ↔ Layout.EmptyBracesAt t.text r.1)) t.ranges t.names ∧
    ∀ before after, t.text = before ++ '{' :: '}' :: after →
      ((∃ r ∈ t.ranges, r.1 = byteLength before) ↔
        (∀ r ∈ t.ranges, ¬(r.1 < byteLength before ∧ byteLength before < r.2)) ∧
          ∃ inner rest, after = inner ++ '}' :: rest ∧ '/' ∉ inner) := by
  refine ⟨?_, fun before after => t.covers_ranges.exists_fst_eq_iff⟩
  have hnames : ∀ name ∈ t.names, Layout.IsName name := by
    intro name hm
    obtain ⟨slot, hslot, rfl⟩ := List.mem_map.mp hm
    exact t.scanned_layout.isName slot hslot
  have hencloses : List.Forall₂ (Layout.Encloses t.text) t.ranges t.names :=
    t.layout.forall₂_encloses
  have hboth := (List.forall₂_and_left _ _).mpr ⟨hnames, hencloses.flip⟩
  refine hboth.flip.imp ?_
  intro r name ⟨hname, h⟩
  exact ⟨h, hname.brace_not_mem, hname.brace_mem_iff h⟩

/-- A placeholder whose name is a closing brace, after a pair of braces that starts none. -/
theorem closing_brace_empty_braces : ∃ t, ofText "/{}/{}\x7d".toList = .ok t ∧
    t.ranges = [(4, 7)] ∧ t.names = ["\x7d".toList] ∧ Layout.EmptyBracesAt t.text 4 ∧
    (∃ r ∈ t.ranges, r.1 = byteLength "/{}/".toList) ∧
    ¬∃ r ∈ t.ranges, r.1 = byteLength "/".toList := by
  let t : Template := ⟨Layout.scan "/{}/{}\x7d".toList, by decide, by decide, by decide⟩
  obtain ⟨hnames, hstarts⟩ := closing_brace t
  have hbrace : Layout.EmptyBracesAt t.text 4 := by
    change List.Forall₂ _ [(4, 7)] ["\x7d".toList] at hnames
    exact (List.forall₂_cons.mp hnames).1.2.2.mp List.mem_cons_self
  have hstart : ∃ r ∈ t.ranges, r.1 = byteLength "/{}/".toList :=
    (hstarts _ "\x7d".toList rfl).mpr ⟨by decide, [], [], rfl, List.not_mem_nil⟩
  exact ⟨t, rfl, by decide, by decide, hbrace, hstart, by decide⟩

/-- Values that go by position are as many as there are placeholders. -/
def CountFits (t : Template) (source : Source) : Prop :=
  ∀ n, source.length? = some n → n = t.count

/-- A source has a certain value for each placeholder. -/
structure Supplied (t : Template) (source : Source) (values : List Text) : Prop where
  length_eq : values.length = t.count
  value_eq : ∀ i name, t.names[i]? = some name → source.value? i name = values[i]?

/-- Placeholder `i` has no value, and each one before it has a value. -/
structure FirstMissing (t : Template) (source : Source) (i : Nat) (name : Text) : Prop where
  name_eq : t.names[i]? = some name
  value_eq : source.value? i name = none
  exists_before : ∀ k < i, ∀ other, t.names[k]? = some other →
    ∃ value, source.value? k other = some value

/-- What an expansion comes to. -/
inductive Outcome (t : Template) (source : Source) : Except Error Uri → Prop where
  | countMismatch {n : Nat} (length_eq : source.length? = some n) (ne : n ≠ t.count) :
    Outcome t source (.error ⟨t.text, none, .countMismatch t.count n⟩)
  | noValue {i : Nat} {name : Text} {r : Nat × Nat} (fits : t.CountFits source)
    (first : t.FirstMissing source i name) (range : t.ranges[i]? = some r)
    (encloses : Layout.Encloses t.text r name) :
    Outcome t source (.error ⟨t.text, some r.1, .noValue name⟩)
  | read {values : List Text} (fits : t.CountFits source) (supplied : t.Supplied source values) :
    Outcome t source
      (Uri.parse (weave (t.layout.slots.map Slot.literal) values ++ t.layout.last))

variable {t : Template} {source : Source} {values : List Text} {i : Nat} {name : Text}

theorem values_eq_mapM (h : t.CountFits source) :
    t.values source = t.layout.slots.zipIdx.mapM fun p => t.lookup source p.1 p.2 := by
  unfold Template.values
  split
  next n hn => rw [if_pos (h n hn)]
  next => rfl

theorem getElem?_names_eq_some_iff :
    t.names[i]? = some name ↔ ∃ slot, t.layout.slots[i]? = some slot ∧ slot.name = name := by
  rw [names, Layout.names, List.getElem?_map, Option.map_eq_some_iff]

theorem values_eq_ok_iff_supplied :
    t.values source = .ok values ↔ t.CountFits source ∧ t.Supplied source values := by
  have hcount : t.layout.slots.zipIdx.length = t.count := List.length_zipIdx
  rw [values_eq_ok_iff, List.forall₂_iff_get]
  apply and_congr_right
  intro _
  constructor
  · rintro ⟨hl, hvalue⟩
    refine ⟨hl.symm.trans hcount, ?_⟩
    intro i name hname
    obtain ⟨slot, hslot, rfl⟩ := getElem?_names_eq_some_iff.mp hname
    obtain ⟨hi, rfl⟩ := List.getElem?_eq_some_iff.mp hslot
    rw [← List.length_zipIdx] at hi
    rw [List.getElem?_eq_getElem (hl ▸ hi)]
    simpa using hvalue i hi (hl ▸ hi)
  · rintro ⟨hl, hvalue⟩
    refine ⟨hcount.trans hl.symm, ?_⟩
    intro i hi hi'
    have hslot : i < t.layout.slots.length := by simpa using hi
    have hname := getElem?_names_eq_some_iff.mpr ⟨_, List.getElem?_eq_getElem hslot, rfl⟩
    simpa [List.getElem?_eq_getElem hi'] using hvalue i _ hname

private theorem mapM_lookup_of_missing {front back : List (Slot × Nat)} {p : Slot × Nat}
    (hfront : ∀ q ∈ front, ∃ value, source.value? q.2 q.1.name = some value)
    (hp : source.value? p.2 p.1.name = none) :
    (front ++ p :: back).mapM (fun q => t.lookup source q.1 q.2) =
      .error ⟨t.text, some (t.layout.position p.2), .noValue p.1.name⟩ := by
  induction front with
  | nil =>
    have hlookup : t.lookup source p.1 p.2 =
        .error ⟨t.text, some (t.layout.position p.2), .noValue p.1.name⟩ := by rw [lookup, hp]
    rw [List.nil_append, List.mapM_cons, hlookup]
    rfl
  | cons q front ih =>
    rw [List.forall_mem_cons] at hfront
    obtain ⟨⟨value, hvalue⟩, hfront⟩ := hfront
    have hlookup : t.lookup source q.1 q.2 = .ok value := by rw [lookup, hvalue]
    rw [List.cons_append, List.mapM_cons, hlookup, ih hfront]
    rfl

theorem FirstMissing.values_eq (h : t.FirstMissing source i name) (fits : t.CountFits source) :
    t.values source = .error ⟨t.text, some (t.layout.position i), .noValue name⟩ := by
  obtain ⟨slot, hslot, rfl⟩ := getElem?_names_eq_some_iff.mp h.name_eq
  obtain ⟨hi, rfl⟩ := List.getElem?_eq_some_iff.mp hslot
  have hsplit : t.layout.slots.zipIdx = (t.layout.slots.take i).zipIdx ++
      (t.layout.slots[i], i) :: (t.layout.slots.drop (i + 1)).zipIdx (i + 1) := by
    conv_lhs => rw [← List.take_append_drop i t.layout.slots, List.drop_eq_getElem_cons hi]
    rw [List.zipIdx_append, List.zipIdx_cons, List.length_take, Nat.min_eq_left (Nat.le_of_lt hi)]
    simp
  rw [values_eq_mapM fits, hsplit]
  refine mapM_lookup_of_missing ?_ h.value_eq
  rintro ⟨slot, k⟩ hk
  have hslot := List.mem_zipIdx_iff_getElem?.mp hk
  rw [List.getElem?_take, Option.ite_none_right_eq_some] at hslot
  exact h.exists_before k hslot.1 _ (getElem?_names_eq_some_iff.mpr ⟨slot, hslot.2, rfl⟩)

theorem exists_firstMissing (h : ∃ i name, t.names[i]? = some name ∧ source.value? i name = none) :
    ∃ i name, t.FirstMissing source i name := by
  classical
  obtain ⟨name, hname, hvalue⟩ := Nat.find_spec h
  refine ⟨Nat.find h, name, hname, hvalue, ?_⟩
  intro k hk other hother
  apply Option.ne_none_iff_exists'.mp
  intro hnone
  exact Nat.find_min h hk ⟨other, hother, hnone⟩

theorem exists_outcome (t : Template) (source : Source) : ∃ result, t.Outcome source result := by
  by_cases fits : t.CountFits source
  · by_cases hmissing : ∃ i name, t.names[i]? = some name ∧ source.value? i name = none
    · obtain ⟨i, name, hfirst⟩ := exists_firstMissing hmissing
      obtain ⟨r, hrange, -, hencloses⟩ := Layout.exists_range hfirst.name_eq
      exact ⟨_, .noValue fits hfirst hrange hencloses⟩
    · have hsupplies : source.Supplies t := by
        refine ⟨fits, ?_⟩
        intro i name hname
        apply Option.ne_none_iff_exists'.mp
        intro hnone
        exact hmissing ⟨i, name, hname, hnone⟩
      obtain ⟨values, hvalues⟩ := exists_values hsupplies
      exact ⟨_, .read fits (values_eq_ok_iff_supplied.mp hvalues).2⟩
  · simp only [CountFits, not_forall] at fits
    obtain ⟨n, hn, hne⟩ := fits
    exact ⟨_, .countMismatch hn hne⟩

theorem expand_of_values_error {e : Error} (h : t.values source = .error e) :
    t.expand source = .error e := by
  rw [expand, substitute, h]
  rfl

theorem expand_of_supplied (fits : t.CountFits source) (h : t.Supplied source values) :
    t.expand source =
      Uri.parse (weave (t.layout.slots.map Slot.literal) values ++ t.layout.last) := by
  rw [expand, substitute, values_eq_ok_iff_supplied.mpr ⟨fits, h⟩, ← Layout.substitute_eq]
  rfl

theorem Outcome.expand_eq {result : Except Error Uri} (h : t.Outcome source result) :
    t.expand source = result := by
  cases h with
  | countMismatch hn hne =>
    apply expand_of_values_error
    rw [Template.values, hn]
    exact if_neg hne
  | @noValue i name r fits hfirst hrange _ =>
    obtain ⟨r', hrange', hr', -⟩ := Layout.exists_range hfirst.name_eq
    obtain rfl : r = r' := Option.some.inj (hrange.symm.trans hrange')
    rw [hr']
    exact expand_of_values_error (hfirst.values_eq fits)
  | read fits hsupplied => exact expand_of_supplied fits hsupplied

theorem FirstMissing.not_mem_take {value? : Text → Option Text}
    (h : t.FirstMissing (.byName value?) i name) : name ∉ t.names.take i := by
  intro hm
  obtain ⟨k, hk⟩ := List.mem_iff_getElem?.mp hm
  rw [List.getElem?_take, Option.ite_none_right_eq_some] at hk
  obtain ⟨value, hvalue⟩ := h.exists_before k hk.1 name hk.2
  have hnone : value? name = none := h.value_eq
  have hsome : value? name = some value := hvalue
  rw [hnone] at hsome
  cases hsome

theorem supplied_positional {values : List Value} (h : values.length = t.count) :
    t.Supplied (Bindings.positional values).source (values.map Value.render) := by
  refine ⟨by rw [List.length_map, h], ?_⟩
  intro i name _
  exact (List.getElem?_map).symm

theorem supplied_byName {value? : Text → Option Text} (h : t.names.map value? = values.map some) :
    t.Supplied (.byName value?) values :=
  (values_eq_ok_iff_supplied.mp (values_byName_eq_ok_iff.mpr h)).2

theorem countFits_positional {values : List Value} (h : values.length = t.count) :
    t.CountFits (Bindings.positional values).source := by
  intro n hn
  rw [← Option.some.inj hn]
  exact h

theorem countFits_byName (t : Template) (value? : Text → Option Text) :
    t.CountFits (.byName value?) := by
  intro n hn
  cases hn

/-- An expansion comes to its outcome and to nothing else. If values go by name, the placeholder
that is reported is the first of its name. Values in order, as many as there are placeholders, are
never missing, and values by name come to the same if they are the same for each placeholder. -/
theorem expand_eq_iff_outcome (t : Template) :
    (∀ source result, t.expand source = result ↔ t.Outcome source result) ∧
    (∀ value? i name, t.FirstMissing (.byName value?) i name → name ∉ t.names.take i) ∧
    (∀ values, values.length = t.count → t.expand (Bindings.positional values).source =
      Uri.parse (weave (t.layout.slots.map Slot.literal) (values.map Value.render) ++
        t.layout.last)) ∧
    (∀ value? values, t.names.map value? = values.map (fun value => some value.render) →
      t.expand (.byName value?) = t.expand (Bindings.positional values).source) := by
  refine ⟨?_, fun _ _ _ => FirstMissing.not_mem_take, ?_, ?_⟩
  · intro source result
    obtain ⟨result', h'⟩ := t.exists_outcome source
    constructor
    · rintro rfl
      rwa [h'.expand_eq]
    · exact Outcome.expand_eq
  · intro values hl
    exact expand_of_supplied (countFits_positional hl) (supplied_positional hl)
  · intro value? values hvalues
    have hl : values.length = t.count := by
      have hlengths := congrArg List.length hvalues
      rw [List.length_map, List.length_map] at hlengths
      rw [← hlengths]
      exact List.length_map _
    have hrendered : t.names.map value? = (values.map Value.render).map some := by
      rw [hvalues, List.map_map]
      rfl
    rw [expand_of_supplied (t.countFits_byName value?) (supplied_byName hrendered),
      expand_of_supplied (countFits_positional hl) (supplied_positional hl)]

/-- The braces in the value of the first placeholder are no placeholder. -/
example : expand ⟨Layout.scan "/{a}é{b}/{b}".toList, by decide, by decide, by decide⟩
    (.byName fun name => if name = "a".toList then some "{b}".toList else none) =
      .error ⟨"/{a}é{b}/{b}".toList, some 6, .noValue "b".toList⟩ := rfl

end Template

end LinkTemplate
