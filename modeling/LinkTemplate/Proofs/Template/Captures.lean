import LinkTemplate.Proofs.Template.Matching

/-!
# What a template captures

A template captures the values of the first occurrence of its pattern, and there is only one that is
first. A name has the value of its last placeholder.
-/

namespace LinkTemplate

open Text (byteLength)

theorem Text.byteLength_le_of_findWord? {word s before rest before' rest' : Text}
    (h : findWord? word s = some (before, rest)) (h' : s = before' ++ (word ++ rest')) :
    byteLength before ≤ byteLength before' := by
  obtain ⟨found, rest'', hfound, hle⟩ := findWord?_append word before' rest'
  rw [← h', h, Option.some.injEq, Prod.mk.injEq] at hfound
  exact byteLength_le_of_length_le ((eq_append_of_findWord? h).symm.trans h') (hfound.1 ▸ hle)

/-- A capture from a text that stands after `n` bytes of another. -/
def Capture.shift (n : Nat) (c : Capture) : Capture := { c with start := n + c.start }

theorem Capture.shift_name (n : Nat) (c : Capture) : (c.shift n).name = c.name := rfl

namespace Template

/-- After what stands before an occurrence, the text goes on with the template's encoded literal
texts and the occurrence's values between them, none of which holds a line feed. -/
structure Decomposes (t : Template) (s : Text) (o : Occurrence) : Prop where
  length_eq : o.values.length = t.count
  inline : ∀ value ∈ o.values, '\n' ∉ value
  text : ∃ after, s = o.before ++ (t.fill o.values ++ after)

/-- An occurrence that starts as early as any, with lengths as great as those of any other that
starts there, compared in lexicographic order. -/
structure IsFirst (t : Template) (s : Text) (o : Occurrence) : Prop where
  decomposes : t.Decomposes s o
  before_le : ∀ o', t.Decomposes s o' → byteLength o.before ≤ byteLength o'.before
  lengths_le : ∀ o', t.Decomposes s o' → byteLength o'.before = byteLength o.before →
    o'.values.map byteLength ≤ o.values.map byteLength

variable {t : Template} {s : Text} {o o' : Occurrence}

theorem occurs_iff_decomposes : t.pattern.Occurs o s ↔ t.Decomposes s o := by
  constructor
  · intro ⟨hfits, htext⟩
    rw [fits_pattern_iff] at hfits
    rw [fill_pattern] at htext
    exact ⟨hfits.1, hfits.2, htext⟩
  · intro ⟨hl, hinline, htext⟩
    rw [← fill_pattern] at htext
    exact ⟨fits_pattern_iff.mpr ⟨hl, hinline⟩, htext⟩

theorem find?_eq_none_iff : t.find? s = none ↔ ∀ o, ¬t.Decomposes s o := by
  constructor
  · intro h o ho
    obtain ⟨found, hfound, -⟩ :=
      Pattern.find?_of_occurs t.inline_pattern (occurs_iff_decomposes.mpr ho)
    rw [find?, hfound] at h
    cases h
  · intro h
    cases hfound : t.find? s with
    | none => rfl
    | some found =>
      exact absurd (occurs_iff_decomposes.mp (Pattern.occurs_of_find? hfound)) (h found)

namespace Decomposes

theorem length_values (h : t.Decomposes s o) : o.values.length = t.stems.length := by
  rw [h.length_eq, stems, List.length_map]
  rfl

theorem eq_weave (h : t.Decomposes s o) :
    ∃ rest, s = o.before ++ (Pattern.weave t.stems o.values ++ rest) := by
  obtain ⟨after, htext⟩ := h.text
  exact ⟨t.ending ++ after, by rw [htext, fill, List.append_assoc]⟩

theorem before_eq (h : t.Decomposes s o) (h' : t.Decomposes s o')
    (hl : byteLength o.before = byteLength o'.before) : o.before = o'.before := by
  obtain ⟨rest, hrest⟩ := h.eq_weave
  obtain ⟨rest', hrest'⟩ := h'.eq_weave
  exact Text.eq_of_byteLength_eq (hrest.symm.trans hrest') hl

theorem weave_append_eq (h : t.Decomposes s o) (h' : t.Decomposes s o')
    (hb : byteLength o.before = byteLength o'.before) : ∃ rest rest',
      Pattern.weave t.stems o.values ++ rest = Pattern.weave t.stems o'.values ++ rest' := by
  obtain ⟨rest, hrest⟩ := h.eq_weave
  obtain ⟨rest', hrest'⟩ := h'.eq_weave
  rw [hrest', h.before_eq h' hb, List.append_cancel_left_eq] at hrest
  exact ⟨rest, rest', hrest.symm⟩

theorem eq_of_lengths_eq (h : t.Decomposes s o) (h' : t.Decomposes s o')
    (hb : byteLength o.before = byteLength o'.before)
    (hl : o.values.map byteLength = o'.values.map byteLength) : o = o' := by
  obtain ⟨rest, rest', hweave⟩ := h.weave_append_eq h' hb
  have hvalues : o.values = o'.values :=
    Pattern.eq_of_lengths_eq h.length_values h'.length_values hweave hl
  exact congrArg₂ Occurrence.mk (h.before_eq h' hb) hvalues

theorem lengths_le (h : t.Decomposes s o) (h' : t.Decomposes s o') (hp : o.Precedes o')
    (hb : byteLength o'.before = byteLength o.before) :
    o'.values.map byteLength ≤ o.values.map byteLength := by
  obtain ⟨rest, rest', hweave⟩ := h.weave_append_eq h' hb.symm
  have hdom : Pattern.Dominates o.values o'.values := by
    simpa [Occurrence.Precedes, h.before_eq h' hb.symm] using hp
  exact Pattern.lengths_le_of_dominates h.length_values h'.length_values hweave hdom

theorem before_le (h : t.Decomposes s o) (h' : t.Decomposes s o') (hp : o.Precedes o') :
    byteLength o.before ≤ byteLength o'.before := by
  obtain ⟨rest, hrest⟩ := h.eq_weave
  obtain ⟨rest', hrest'⟩ := h'.eq_weave
  apply Text.byteLength_le_of_length_le (hrest.symm.trans hrest')
  rcases hp with hlt | ⟨he, -⟩
  · exact Nat.le_of_lt hlt
  · exact Nat.le_of_eq he

end Decomposes

theorem isFirst_of_find? (h : t.find? s = some o) : t.IsFirst s o := by
  have hdec := occurs_iff_decomposes.mp (Pattern.occurs_of_find? h)
  have hprecedes : ∀ o', t.Decomposes s o' → o.Precedes o' := by
    intro o' ho'
    obtain ⟨found, hfound, hp⟩ :=
      Pattern.find?_of_occurs t.inline_pattern (occurs_iff_decomposes.mpr ho')
    rw [find?, hfound] at h
    exact Option.some.inj h ▸ hp
  refine ⟨hdec, ?_, ?_⟩
  · intro o' ho'
    exact hdec.before_le ho' (hprecedes o' ho')
  · intro o' ho' hb
    exact hdec.lengths_le ho' (hprecedes o' ho') hb

theorem IsFirst.unique (h : t.IsFirst s o) (h' : t.IsFirst s o') : o = o' := by
  have hb : byteLength o.before = byteLength o'.before :=
    Nat.le_antisymm (h.before_le o' h'.decomposes) (h'.before_le o h.decomposes)
  have hl : o.values.map byteLength = o'.values.map byteLength :=
    le_antisymm (h'.lengths_le o h.decomposes hb) (h.lengths_le o' h'.decomposes hb.symm)
  exact h.decomposes.eq_of_lengths_eq h'.decomposes hb hl

theorem find?_eq_some_iff : t.find? s = some o ↔ t.IsFirst s o := by
  constructor
  · exact isFirst_of_find?
  · intro h
    cases hfound : t.find? s with
    | none => exact absurd h.decomposes (find?_eq_none_iff.mp hfound o)
    | some found => rw [(isFirst_of_find? hfound).unique h]

/-- What stands in a text before value `k` of an occurrence. -/
def textBefore (t : Template) (o : Occurrence) (k : Nat) : Text :=
  o.before ++ Pattern.weaveBefore t.stems o.values k

theorem Decomposes.eq_textBefore_append {k : Nat} {value : Text} (h : t.Decomposes s o)
    (hk : o.values[k]? = some value) : ∃ after, s = t.textBefore o k ++ (value ++ after) := by
  obtain ⟨rest, hs⟩ := h.eq_weave
  obtain ⟨after, hweave⟩ := Pattern.weave_eq_weaveBefore_append h.length_values hk
  refine ⟨after ++ rest, ?_⟩
  rw [hs, hweave, textBefore]
  simp only [List.append_assoc]

theorem Decomposes.exists_getElem? {k : Nat} {name : Text} (h : t.Decomposes s o)
    (hname : t.names[k]? = some name) : ∃ value, o.values[k]? = some value := by
  have hl : o.values.length = t.names.length := by
    rw [h.length_eq, names, Layout.names, List.length_map]
    rfl
  obtain ⟨hk, -⟩ := List.getElem?_eq_some_iff.mp hname
  exact ⟨_, List.getElem?_eq_getElem (hl ▸ hk)⟩

theorem Decomposes.getElem?_capturesOf {k : Nat} {name value : Text} (h : t.Decomposes s o)
    (hname : t.names[k]? = some name) (hvalue : o.values[k]? = some value) :
    (t.capturesOf o)[k]? = some ⟨name, value, byteLength (t.textBefore o k)⟩ := by
  obtain ⟨hk, -⟩ := List.getElem?_eq_some_iff.mp hvalue
  rw [h.length_values] at hk
  have hstart : (t.pattern.starts o)[k]? = some (byteLength (t.textBefore o k)) := by
    rw [Pattern.starts, pattern_eq, Pattern.getElem?_startsFrom h.length_values hk, textBefore,
      Text.byteLength_append]
  have hzip : (t.names.zip (o.values.zip (t.pattern.starts o)))[k]? =
      some (name, value, byteLength (t.textBefore o k)) :=
    List.getElem?_zip_eq_some.mpr ⟨hname, List.getElem?_zip_eq_some.mpr ⟨hvalue, hstart⟩⟩
  rw [capturesOf, List.getElem?_map, hzip]
  rfl

theorem Decomposes.map_name_capturesOf (h : t.Decomposes s o) :
    (t.capturesOf o).map Capture.name = t.names := by
  apply Template.map_name_capturesOf
  rw [pattern_eq]
  exact h.length_values

theorem captures_of_isFirst (h : t.IsFirst s o) : t.captures s = .ofList (t.capturesOf o) := by
  rw [captures, find?_eq_some_iff.mpr h]

theorem map_name_captures (h : t.IsFirst s o) :
    (t.captures s).entries.map Capture.name = t.names.eraseDups := by
  rw [captures_of_isFirst h, Captures.map_name_ofList, h.decomposes.map_name_capturesOf]

theorem captures_isEmpty_iff (placeholders : t.layout.slots ≠ []) :
    (t.captures s).isEmpty = true ↔ ∀ o, ¬t.Decomposes s o := by
  rw [← find?_eq_none_iff]
  cases hfind : t.find? s with
  | none => simp [captures, hfind, Captures.isEmpty, Captures.empty]
  | some o =>
    have hnames := map_name_captures (isFirst_of_find? hfind)
    obtain ⟨slot, slots, hslots⟩ := List.exists_cons_of_ne_nil placeholders
    have hslot : slot.name ∈ t.names.eraseDups := by
      rw [List.mem_eraseDups, names, Layout.names, hslots]
      exact List.mem_cons_self
    have hne : (t.captures s).entries ≠ [] := by
      intro hnil
      rw [← hnames, hnil] at hslot
      exact List.not_mem_nil hslot
    simp [Captures.isEmpty, hne]

theorem find?_captures {k : Nat} {name value : Text} (h : t.IsFirst s o)
    (hname : t.names[k]? = some name) (last : name ∉ t.names.drop (k + 1))
    (hvalue : o.values[k]? = some value) :
    (t.captures s).find? name = some ⟨name, value, byteLength (t.textBefore o k)⟩ := by
  rw [captures_of_isFirst h]
  apply Captures.find?_ofList_of_last (h.decomposes.getElem?_capturesOf hname hvalue)
  rw [h.decomposes.map_name_capturesOf]
  exact last

/-- A template with a placeholder captures nothing from a text in which its encoded literal texts do
not stand with line-feed-free values between them. Otherwise there is one first such occurrence:
each name has an entry, with the value of its last placeholder, and that value stands in the text
from the start of the entry to its end. -/
theorem captures_iff_isFirst (placeholders : t.layout.slots ≠ []) (s : Text) :
    ((t.captures s).isEmpty = true ↔ ∀ o, ¬t.Decomposes s o) ∧
    ((∃ o, t.Decomposes s o) → ∃ o, t.IsFirst s o ∧ (∀ o', t.IsFirst s o' → o' = o) ∧
      (t.captures s).entries.map Capture.name = t.names.eraseDups ∧
      ∀ k name, t.names[k]? = some name → name ∉ t.names.drop (k + 1) →
        ∃ c after, (t.captures s).find? name = some c ∧ o.values[k]? = some c.value ∧
          s = t.textBefore o k ++ (c.value ++ after) ∧
          c.start = byteLength (t.textBefore o k) ∧
          c.stop = byteLength (t.textBefore o k ++ c.value)) := by
  refine ⟨captures_isEmpty_iff placeholders, ?_⟩
  intro ⟨o', ho'⟩
  cases hfind : t.find? s with
  | none => exact absurd ho' (find?_eq_none_iff.mp hfind o')
  | some o =>
    have hfirst := isFirst_of_find? hfind
    refine ⟨o, hfirst, fun o' h => h.unique hfirst, map_name_captures hfirst, ?_⟩
    intro k name hname last
    obtain ⟨value, hvalue⟩ := hfirst.decomposes.exists_getElem? hname
    obtain ⟨after, hs⟩ := hfirst.decomposes.eq_textBefore_append hvalue
    refine ⟨_, after, find?_captures hfirst hname last hvalue, hvalue, hs, rfl, ?_⟩
    rw [Capture.stop, Text.byteLength_append]

/-- The first line has no occurrence, and the second has more than one. -/
theorem captures_second_line : ∃ t, ofText "/{a}/{b}-{a}".toList = .ok t ∧ t.layout.slots ≠ [] ∧
    (t.captures "/é/\nx/1//é-2-3\n/4/5-6".toList).isEmpty = false ∧
      (t.captures "/é/\nx/1//é-2-3\n/4/5-6".toList).entries.map Capture.name =
        ["a".toList, "b".toList] ∧
      ∃ c, (t.captures "/é/\nx/1//é-2-3\n/4/5-6".toList).find? "a".toList = some c ∧
        c.value = "3".toList ∧ c.start = 15 ∧ c.stop = 16 := by
  refine ⟨⟨Layout.scan "/{a}/{b}-{a}".toList, by decide, by decide, by decide⟩, rfl, by decide, ?_⟩
  obtain ⟨hempty, hfirst⟩ := @captures_iff_isFirst
    ⟨Layout.scan "/{a}/{b}-{a}".toList, by decide, by decide, by decide⟩ (by decide)
    "/é/\nx/1//é-2-3\n/4/5-6".toList
  have hdec : Decomposes ⟨Layout.scan "/{a}/{b}-{a}".toList, by decide, by decide, by decide⟩
      "/é/\nx/1//é-2-3\n/4/5-6".toList
      ⟨"/é/\nx".toList, ["1".toList, "/é".toList, "2".toList]⟩ :=
    ⟨by decide, by decide, "-3\n/4/5-6".toList, by decide⟩
  obtain ⟨o, ho, -, hnames, hcaptured⟩ := hfirst ⟨_, hdec⟩
  obtain ⟨c, after, hc, -, -, -, -⟩ := hcaptured 2 "a".toList rfl (by decide)
  refine ⟨?_, hnames, c, hc, ?_⟩
  · rw [Bool.eq_false_iff]
    intro h
    exact hempty.mp h _ hdec
  · have hentry : some c = some ⟨"a".toList, "3".toList, 15⟩ := hc.symm.trans (by decide)
    cases hentry
    exact ⟨rfl, rfl, rfl⟩

theorem records_captures (found : t.find? s = some o) :
    Captures.Records (t.capturesOf o) (t.captures s) := by
  rw [captures_of_isFirst (isFirst_of_find? found)]
  exact Captures.records_ofList _

theorem indexOf?_eq_some_idxOf {name : Text} (h : name ∈ t.names) :
    t.indexOf? name = some (t.names.idxOf name) := by
  obtain ⟨i, hi⟩ := Option.isSome_iff_exists.mp (List.isSome_idxOf?.mpr h)
  rw [indexOf?, List.idxOf_eq_getD_idxOf?, hi, Option.getD_some]

theorem pairwise_indexOf?_captures (found : t.find? s = some o) :
    ((t.captures s).entries.map Capture.name).Pairwise fun a b =>
      ∃ i j, t.indexOf? a = some i ∧ t.indexOf? b = some j ∧ i < j := by
  have hrecords := records_captures found
  have hnames := (isFirst_of_find? found).decomposes.map_name_capturesOf
  refine hrecords.ordered.imp_of_mem fun {a b} ha hb hlt => ?_
  rw [hrecords.mem_iff, hnames] at ha hb
  rw [hnames] at hlt
  exact ⟨_, _, indexOf?_eq_some_idxOf ha, indexOf?_eq_some_idxOf hb, hlt⟩

/-- Captures have one entry for each name that was ever inserted, in the order in which the names
came first, with the last capture of the name. Their JSON form has the same entries. What a template
captures is inserted placeholder by placeholder, so that the entries have exactly the template's
names, with the positions of their first placeholders going up. -/
theorem captures_entries (t : Template) (s : Text) (inserted : List Capture) :
    (Captures.Records inserted (.ofList inserted) ∧
      ((Captures.ofList inserted).entries.map Capture.name).Nodup ∧
      (Captures.ofList inserted).size = (inserted.map Capture.name).toFinset.card ∧
      (∀ name, (Captures.ofList inserted).find? name = none ↔
        name ∉ inserted.map Capture.name) ∧
      Text.readObject? (Captures.ofList inserted).json =
        some ((Captures.ofList inserted).entries.map fun c => (c.name, c.value))) ∧
    ∀ o, t.find? s = some o → t.captures s = .ofList (t.capturesOf o) ∧
      (t.capturesOf o).map Capture.name = t.names ∧
      ((t.captures s).entries.map Capture.name).Pairwise (fun a b =>
        ∃ i j, t.indexOf? a = some i ∧ t.indexOf? b = some j ∧ i < j) ∧
      ∀ name, name ∈ (t.captures s).entries.map Capture.name ↔ name ∈ t.names := by
  have hrecords := Captures.records_ofList inserted
  refine ⟨⟨hrecords, hrecords.nodup, hrecords.size_eq, hrecords.find?_eq_none_iff,
    Text.readObject?_jsonObject _⟩, ?_⟩
  intro o found
  have hfirst := isFirst_of_find? found
  refine ⟨captures_of_isFirst hfirst, hfirst.decomposes.map_name_capturesOf,
    pairwise_indexOf?_captures found, fun name => ?_⟩
  rw [(records_captures found).mem_iff, hfirst.decomposes.map_name_capturesOf]

theorem captures_entries_repeated_name : ∃ t o, ofText "/{a}/{b}-{a}".toList = .ok t ∧
    t.find? "/1/2-3".toList = some o ∧ (t.captures "/1/2-3".toList).size = 2 ∧
    Text.readObject? (t.captures "/1/2-3".toList).json =
      some [("a".toList, "3".toList), ("b".toList, "2".toList)] ∧
    ∃ i j, t.indexOf? "a".toList = some i ∧ t.indexOf? "b".toList = some j ∧ i < j := by
  let t : Template := ⟨Layout.scan "/{a}/{b}-{a}".toList, by decide, by decide, by decide⟩
  have found : t.find? "/1/2-3".toList = some ⟨[], ["1".toList, "2".toList, "3".toList]⟩ := by
    decide
  obtain ⟨⟨-, -, hsize, -, hjson⟩, hcaptured⟩ := captures_entries t "/1/2-3".toList
    [⟨"a".toList, "1".toList, 1⟩, ⟨"b".toList, "2".toList, 3⟩, ⟨"a".toList, "3".toList, 5⟩]
  obtain ⟨hcaptures, -, hpairs, -⟩ := hcaptured _ found
  refine ⟨t, _, rfl, found, ?_, ?_, ?_⟩
  · exact hcaptures ▸ hsize
  · exact hcaptures ▸ hjson
  · exact (List.pairwise_cons.mp hpairs).1 _ (List.mem_singleton_self _)

variable {p : Text}

theorem capturesOf_append (t : Template) (p : Text) (o : Occurrence) :
    t.capturesOf ⟨p ++ o.before, o.values⟩ =
      (t.capturesOf o).map (Capture.shift (byteLength p)) := by
  rw [capturesOf, capturesOf, Pattern.starts, Pattern.starts, Text.byteLength_append,
    Pattern.startsFrom_add, List.zip_map_right, List.zip_map_right, List.map_map, List.map_map]
  rfl

theorem Decomposes.append (h : t.Decomposes s o) (p : Text) :
    t.Decomposes (p ++ s) ⟨p ++ o.before, o.values⟩ := by
  obtain ⟨after, htext⟩ := h.text
  exact ⟨h.length_eq, h.inline, after, by rw [htext, List.append_assoc]⟩

theorem Decomposes.of_append {before : Text} {values : List Text}
    (h : t.Decomposes (p ++ s) ⟨p ++ before, values⟩) : t.Decomposes s ⟨before, values⟩ := by
  obtain ⟨after, htext⟩ := h.text
  rw [List.append_assoc, List.append_cancel_left_eq] at htext
  exact ⟨h.length_eq, h.inline, after, htext⟩

theorem Decomposes.exists_stem {stem : Text} (h : t.Decomposes s o)
    (hstem : t.stems.head? = some stem) : ∃ after, s = o.before ++ (stem ++ after) := by
  obtain ⟨rest, hs⟩ := h.eq_weave
  obtain ⟨stems, hstems⟩ := List.head?_eq_some_iff.mp hstem
  have hl := h.length_values
  rw [hstems, List.length_cons] at hl
  rw [hstems, Pattern.weave_cons_eq_append hl, List.append_assoc] at hs
  exact ⟨_, hs⟩

/-- An occurrence that is first in a text is first after another text, unless the first stem occurs
there earlier. -/
theorem IsFirst.append {stem : Text} (h : t.IsFirst s o) (front : o.before = [])
    (hstem : t.stems.head? = some stem)
    (new : ∀ before after, p ++ s = before ++ (stem ++ after) →
      byteLength p ≤ byteLength before) : t.IsFirst (p ++ s) ⟨p ++ o.before, o.values⟩ := by
  rw [front, List.append_nil]
  have hdec := h.decomposes.append p
  rw [front, List.append_nil] at hdec
  refine ⟨hdec, ?_, ?_⟩
  · intro o' ho'
    obtain ⟨after, hs⟩ := ho'.exists_stem hstem
    exact new o'.before after hs
  · intro o' ho' hb
    obtain ⟨before', values'⟩ := o'
    obtain rfl : before' = p := ho'.before_eq hdec hb
    have hafter : t.Decomposes (before' ++ s) ⟨before' ++ [], values'⟩ := by rwa [List.append_nil]
    exact h.lengths_le ⟨[], values'⟩ hafter.of_append (by rw [front])

theorem captures_of_stems_nil (h : t.stems = []) (s : Text) : (t.captures s).entries = [] := by
  have hnames : t.names = [] := by
    rw [stems, List.map_eq_nil_iff] at h
    rw [names, Layout.names, h, List.map_nil]
  rw [captures]
  cases t.find? s with
  | none => rfl
  | some o => simp [capturesOf, hnames, Captures.ofList, Captures.empty]

/-- If the first occurrence of a template's pattern in a text stands at the start of the text, and
the first encoded literal text of the template does not occur in that text after another one at any
position inside the other, then the template captures from both texts the same values under the same
names in the same order, and all positions move by the size of the other text. -/
theorem captures_append {t : Template} {p s : Text} {o : Occurrence} (found : t.find? s = some o)
    (front : byteLength o.before = 0)
    (new : ∀ stem, t.stems.head? = some stem → ∀ before after,
      p ++ s = before ++ (stem ++ after) → byteLength p ≤ byteLength before) :
    List.Forall₂ (fun c d => d.name = c.name ∧ d.value = c.value ∧
        d.start = byteLength p + c.start ∧ d.stop = byteLength p + c.stop)
      (t.captures s).entries (t.captures (p ++ s)).entries := by
  have hentries : (t.captures (p ++ s)).entries =
      (t.captures s).entries.map (Capture.shift (byteLength p)) := by
    cases hstem : t.stems.head? with
    | none =>
      have hstems := List.head?_eq_none_iff.mp hstem
      rw [captures_of_stems_nil hstems, captures_of_stems_nil hstems, List.map_nil]
    | some stem =>
      have hfirst := isFirst_of_find? found
      have hfirst' := hfirst.append (Text.byteLength_eq_zero_iff.mp front) hstem (new stem hstem)
      rw [captures_of_isFirst hfirst, captures_of_isFirst hfirst', capturesOf_append]
      exact Captures.entries_ofList_map (Capture.shift_name _) _
  rw [hentries, List.forall₂_map_right_iff, List.forall₂_same]
  intro c _
  exact ⟨rfl, rfl, rfl, Nat.add_assoc _ _ _⟩

/-- Before the occurrence stand a later literal text, a line feed and a part of the first literal
text. -/
theorem captures_append_partial_stem : ∃ t o, ofText "//h/{a}-{b}".toList = .ok t ∧
    t.find? "//h/é-1-2\n/".toList = some o ∧ byteLength o.before = 0 ∧
    (∀ stem, t.stems.head? = some stem → ∀ before after,
      "é-2\n/".toList ++ "//h/é-1-2\n/".toList = before ++ (stem ++ after) →
        6 ≤ byteLength before) ∧
    ∃ c d, (t.captures ("é-2\n/".toList ++ "//h/é-1-2\n/".toList)).entries = [c, d] ∧
      c.value = "é-1".toList ∧ c.start = 10 ∧ c.stop = 14 ∧
      d.value = "2".toList ∧ d.start = 15 ∧ d.stop = 16 := by
  let t : Template := ⟨Layout.scan "//h/{a}-{b}".toList, by decide, by decide, by decide⟩
  have found : t.find? "//h/é-1-2\n/".toList = some ⟨[], ["é-1".toList, "2".toList]⟩ := by decide
  have new : ∀ stem, t.stems.head? = some stem → ∀ before after,
      "é-2\n/".toList ++ "//h/é-1-2\n/".toList = before ++ (stem ++ after) →
        byteLength "é-2\n/".toList ≤ byteLength before := by
    intro stem hstem before after h
    have hstems : t.stems.head? = some "//h/".toList := by decide
    obtain rfl := Option.some.inj (hstems.symm.trans hstem)
    have hword : Text.findWord? "//h/".toList ("é-2\n/".toList ++ "//h/é-1-2\n/".toList) =
        some ("é-2\n/".toList, "é-1-2\n/".toList) := by decide
    exact Text.byteLength_le_of_findWord? hword h
  have hentries : (t.captures "//h/é-1-2\n/".toList).entries =
      [⟨"a".toList, "é-1".toList, 4⟩, ⟨"b".toList, "2".toList, 9⟩] := by decide
  have hshift := captures_append found rfl new
  rw [hentries, List.forall₂_cons_left_iff] at hshift
  obtain ⟨c, rest, ⟨-, hvalue, hstart, hstop⟩, hrest, hc⟩ := hshift
  obtain ⟨d, rest, ⟨-, hvalue', hstart', hstop'⟩, hnil, rfl⟩ := List.forall₂_cons_left_iff.mp hrest
  cases hnil
  exact ⟨t, _, rfl, found, rfl, new, c, d, hc, hvalue, hstart, hstop, hvalue', hstart', hstop'⟩

end Template

end LinkTemplate
