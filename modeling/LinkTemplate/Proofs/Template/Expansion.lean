import LinkTemplate.Proofs.Pattern.Filling
import LinkTemplate.Template
import Mathlib.Data.List.Forall2

namespace LinkTemplate

open Pattern (weave)

/-- A source with a value for every placeholder, and with exactly as many values as there are
placeholders if they go by position. -/
structure Source.Supplies (source : Source) (t : Template) : Prop where
  length_eq : ∀ n, source.length? = some n → n = t.count
  exists_value : ∀ i name, t.names[i]? = some name → ∃ value, source.value? i name = some value

/-- The literal texts of a layout in order, the one at the end included. -/
def Layout.literals (l : Layout) : List Text := l.slots.map Slot.literal ++ [l.last]

theorem Layout.substitute_eq (l : Layout) (values : List Text) :
    l.substitute values = weave (l.slots.map Slot.literal) values ++ l.last := by
  rw [Layout.substitute, weave, List.zip_map_left, List.flatMap_map]
  rfl

namespace Uri.Written

theorem exists_weave {stems values : List Text} {u : Text} (hl : values.length = stems.length)
    (h : Written (weave stems values) u) :
    ∃ stems' values', u = weave stems' values' ∧ List.Forall₂ Written stems stems' ∧
      List.Forall₂ Written values values' := by
  induction stems generalizing values u with
  | nil =>
    obtain rfl := List.length_eq_zero_iff.mp hl
    exact ⟨[], [], h.eq_nil, .nil, .nil⟩
  | cons stem stems ih =>
    cases values with
    | nil => exact absurd hl.symm (Nat.succ_ne_zero _)
    | cons value values =>
      rw [Pattern.weave_cons] at h
      obtain ⟨stem', v, rfl, hstem, hv⟩ := h.exists_of_append
      obtain ⟨value', w, rfl, hvalue, hw⟩ := hv.exists_of_append
      obtain ⟨stems', values', rfl, hstems, hvalues⟩ := ih (by simpa using hl) hw
      exact ⟨stem' :: stems', value' :: values', (Pattern.weave_cons _ _ _ _).symm,
        .cons hstem hstems, .cons hvalue hvalues⟩

theorem weave {stems stems' values values' : List Text} (hs : List.Forall₂ Written stems stems')
    (hv : List.Forall₂ Written values values') (hl : values.length = stems.length) :
    Written (Pattern.weave stems values) (Pattern.weave stems' values') := by
  induction hs generalizing values values' with
  | nil => exact .nil
  | cons hstem _ ih =>
    cases hv with
    | nil => exact absurd hl.symm (Nat.succ_ne_zero _)
    | cons hvalue hvalues =>
      rw [Pattern.weave_cons, Pattern.weave_cons]
      exact hstem.append (hvalue.append (ih hvalues (by simpa using hl)))

theorem forall₂_encodeText (texts : List Text) :
    List.Forall₂ Written texts (texts.map encodeText) := by
  rw [List.forall₂_map_right_iff, List.forall₂_same]
  intro text _
  exact written_encodeText text

theorem eq_map_encodeText {stems stems' : List Text} (h : List.Forall₂ Written stems stems')
    (hs : ∀ stem ∈ stems, ∀ c ∈ stem, isMark c = false) : stems' = stems.map encodeText := by
  induction h with
  | nil => rfl
  | cons hstem _ ih =>
    have hplain := hs _ List.mem_cons_self
    rw [List.map_cons, encodeText_eq_encode hplain, ← hstem.eq_encode hplain,
      ih fun _ hm => hs _ (List.mem_cons_of_mem _ hm)]

end Uri.Written

namespace Template

variable {t : Template} {source : Source} {u : Uri} {values : List Text}

theorem expand_eq_ok_iff :
    t.expand source = .ok u ↔
      ∃ values, t.values source = .ok values ∧ Uri.parse (t.layout.substitute values) = .ok u := by
  rw [expand, substitute]
  cases t.values source with
  | error e =>
    constructor
    · intro h
      cases h
    · rintro ⟨values, h, -⟩
      cases h
  | ok values =>
    constructor
    · intro h
      exact ⟨values, rfl, h⟩
    · rintro ⟨values', h, hu⟩
      cases h
      exact hu

private theorem lookup_eq_ok_iff {slot : Slot} {i : Nat} {v : Text} :
    t.lookup source slot i = .ok v ↔ source.value? i slot.name = some v := by
  rw [lookup]
  cases source.value? i slot.name with
  | none => simp
  | some value => simp

private theorem mapM_lookup_eq_ok_iff {slots : List (Slot × Nat)} :
    slots.mapM (fun p => t.lookup source p.1 p.2) = .ok values ↔
      List.Forall₂ (fun p v => source.value? p.2 p.1.name = some v) slots values := by
  induction slots generalizing values with
  | nil =>
    rw [List.mapM_nil, List.forall₂_nil_left_iff]
    constructor
    · intro h
      cases h
      rfl
    · rintro rfl
      rfl
  | cons p slots ih =>
    rw [List.mapM_cons, List.forall₂_cons_left_iff]
    constructor
    · intro h
      cases hv : t.lookup source p.1 p.2 with
      | error e =>
        rw [hv] at h
        cases h
      | ok v =>
        cases hvs : slots.mapM (fun p => t.lookup source p.1 p.2) with
        | error e =>
          rw [hv, hvs] at h
          cases h
        | ok vs =>
          rw [hv, hvs] at h
          cases h
          exact ⟨v, vs, lookup_eq_ok_iff.mp hv, ih.mp hvs, rfl⟩
    · rintro ⟨v, vs, hv, hvs, rfl⟩
      rw [lookup_eq_ok_iff.mpr hv, ih.mpr hvs]
      rfl

theorem values_eq_ok_iff :
    t.values source = .ok values ↔ (∀ n, source.length? = some n → n = t.count) ∧
      List.Forall₂ (fun p v => source.value? p.2 p.1.name = some v)
        t.layout.slots.zipIdx values := by
  unfold Template.values
  split
  next n hn =>
    split
    next he =>
      rw [mapM_lookup_eq_ok_iff, hn]
      constructor
      · intro h
        refine ⟨?_, h⟩
        intro m hm
        rw [← Option.some.inj hm]
        exact he
      · intro h
        exact h.2
    next hne =>
      constructor
      · intro h
        cases h
      · rintro ⟨h, -⟩
        exact absurd (h n hn) hne
  next hn =>
    rw [mapM_lookup_eq_ok_iff, hn]
    constructor
    · intro h
      refine ⟨?_, h⟩
      intro m hm
      exact absurd hm.symm (Option.some_ne_none m)
    · intro h
      exact h.2

theorem length_values (h : t.values source = .ok values) :
    values.length = t.layout.slots.length := by
  rw [← (values_eq_ok_iff.mp h).2.length_eq, List.length_zipIdx]

private theorem exists_forall₂ {α β : Type} {r : α → β → Prop} {xs : List α}
    (h : ∀ x ∈ xs, ∃ y, r x y) : ∃ ys, List.Forall₂ r xs ys := by
  induction xs with
  | nil => exact ⟨[], .nil⟩
  | cons x xs ih =>
    obtain ⟨y, hy⟩ := h x List.mem_cons_self
    obtain ⟨ys, hys⟩ := ih fun z hz => h z (List.mem_cons_of_mem _ hz)
    exact ⟨y :: ys, .cons hy hys⟩

theorem exists_values (h : source.Supplies t) : ∃ values, t.values source = .ok values := by
  have hslots : ∀ p ∈ t.layout.slots.zipIdx, ∃ value, source.value? p.2 p.1.name = some value := by
    rintro ⟨slot, i⟩ hp
    have hname : t.names[i]? = some slot.name := by
      rw [names, Layout.names, List.getElem?_map, List.mem_zipIdx_iff_getElem?.mp hp]
      rfl
    exact h.exists_value i slot.name hname
  obtain ⟨values, hvalues⟩ := exists_forall₂ hslots
  exact ⟨values, values_eq_ok_iff.mpr ⟨h.length_eq, hvalues⟩⟩

theorem values_byName_eq_ok_iff {value? : Text → Option Text} :
    t.values (.byName value?) = .ok values ↔ t.names.map value? = values.map some := by
  have hnames : t.names = t.layout.slots.zipIdx.map fun p => p.1.name := by
    change t.layout.slots.map Slot.name = _
    rw [← List.zipIdx_map_fst 0 t.layout.slots, List.map_map, List.zipIdx_map_fst]
    rfl
  rw [values_eq_ok_iff, hnames, List.map_map, ← List.forall₂_eq_eq_eq, List.forall₂_map_left_iff,
    List.forall₂_map_right_iff]
  constructor
  · intro h
    exact h.2
  · intro h
    refine ⟨?_, h⟩
    intro n hn
    exact absurd hn.symm (Option.some_ne_none n)

theorem written_expand (h : t.expand source = .ok u) :
    ∃ values, t.values source = .ok values ∧ Uri.Written (t.layout.substitute values) u.text := by
  obtain ⟨values, hv, hu⟩ := expand_eq_ok_iff.mp h
  refine ⟨values, hv, ?_⟩
  rw [Uri.text_of_parse hu]
  exact Uri.written_encodeText _

/-- Without marks in its literal texts, the stems of a template's pattern stand between written
forms of its values. -/
theorem exists_weave_of_expand
    (plain : ∀ literal ∈ t.layout.literals, literal.any Uri.isMark = false)
    (h : t.expand source = .ok u) :
    ∃ values written, t.values source = .ok values ∧ List.Forall₂ Uri.Written values written ∧
      u.text = weave t.pattern.stems written ++ Uri.encodeText t.layout.last := by
  obtain ⟨values, hv, hu⟩ := written_expand h
  have hstems : ∀ stem ∈ t.layout.slots.map Slot.literal, ∀ c ∈ stem, Uri.isMark c = false :=
    fun stem hm => Uri.isMark_eq_false_of_any (plain stem (List.mem_append_left _ hm))
  have hlast : ∀ c ∈ t.layout.last, Uri.isMark c = false :=
    Uri.isMark_eq_false_of_any (plain _ (List.mem_append_right _ List.mem_cons_self))
  rw [Layout.substitute_eq] at hu
  obtain ⟨front, last, hsplit, hfront, hlast'⟩ := hu.exists_of_append
  obtain ⟨stems', written, rfl, hs, hw⟩ :=
    hfront.exists_weave (by rw [List.length_map, length_values hv])
  refine ⟨values, written, hv, hw, ?_⟩
  rw [hsplit, Uri.Written.eq_map_encodeText hs hstems, hlast'.eq_encode hlast,
    Uri.encodeText_eq_encode hlast, List.map_map]
  rfl

end Template

end LinkTemplate
