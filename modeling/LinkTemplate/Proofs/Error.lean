import LinkTemplate.Proofs.Percent.Runs
import LinkTemplate.Proofs.Template.Placeholders
import LinkTemplate.Proofs.Uri.Composition

/-!
# What errors display

An error could not be displayed if its position were beyond its input or inside of a character. No
such error is reported.
-/

namespace LinkTemplate

namespace Text

open Percent (ofUtf8? utf8)

/-- A byte position of a text, its end included, that is not inside of a character. -/
structure IsBoundary (s : Text) (n : Nat) : Prop where
  le_byteLength : n ≤ byteLength s
  isUTF8FirstByte : ∀ b, (utf8 s)[n]? = some b → b.IsUTF8FirstByte

/-- The text of the bytes before a position and the text of those from it on. There are none beyond
the end of a text or inside of a character. -/
def slices? (n : Nat) (s : Text) : Option (Text × Text) :=
  if n ≤ byteLength s then do
    let before ← ofUtf8? ((utf8 s).take n)
    let after ← ofUtf8? ((utf8 s).drop n)
    return (before, after)
  else none

variable {s before after : Text} {n : Nat}

private theorem slices?_eq_some_iff_utf8 : slices? n s = some (before, after) ↔
    n ≤ byteLength s ∧ (utf8 s).take n = utf8 before ∧ (utf8 s).drop n = utf8 after := by
  simp [slices?, Option.bind_eq_some_iff, Percent.ofUtf8?_eq_some_iff]

theorem slices?_eq_some_iff :
    slices? n s = some (before, after) ↔ s = before ++ after ∧ n = byteLength before := by
  rw [slices?_eq_some_iff_utf8]
  constructor
  · intro ⟨hn, hbefore, hafter⟩
    constructor
    · apply Percent.utf8_inj
      rw [Percent.utf8_append, ← hbefore, ← hafter, List.take_append_drop]
    · have hl := congrArg List.length hbefore
      simpa [hn] using hl
  · intro ⟨hs, hn⟩
    simp [hs, hn, ← Percent.length_utf8]

theorem isBoundary_append (before after : Text) :
    IsBoundary (before ++ after) (byteLength before) := by
  constructor
  · simp
  · intro b hb
    rw [Percent.utf8_append, List.getElem?_append_right (by simp)] at hb
    cases after with
    | nil => simp at hb
    | cons c after =>
      obtain ⟨e, es, hc⟩ := List.exists_cons_of_ne_nil (String.utf8EncodeChar_ne_nil (c := c))
      have hb : e = b := by simpa [hc] using hb
      rw [← hb]
      exact Percent.isUTF8FirstByte_of_eq_cons hc

theorem IsBoundary.eq_zero {c : Char} (h : IsBoundary (c :: s) n) (hn : n < c.utf8Size) :
    n = 0 := by
  have hl : n < (String.utf8EncodeChar c).length := by simpa using hn
  have hb : (utf8 (c :: s))[n]? = some (String.utf8EncodeChar c)[n] := by
    rw [Percent.utf8_cons, List.getElem?_append_left hl, List.getElem?_eq_getElem hl]
  exact UInt8.isUTF8FirstByte_getElem_utf8EncodeChar.mp (h.isUTF8FirstByte _ hb)

theorem IsBoundary.tail {c : Char} (h : IsBoundary (c :: s) n) (hn : c.utf8Size ≤ n) :
    IsBoundary s (n - c.utf8Size) := by
  have hle := h.le_byteLength
  rw [byteLength_cons] at hle
  constructor
  · omega
  · intro b hb
    apply h.isUTF8FirstByte
    rw [Percent.utf8_cons, List.getElem?_append_right (by simpa using hn)]
    simpa using hb

/-- A position is a boundary if a text falls in two there. -/
theorem isBoundary_iff :
    IsBoundary s n ↔ ∃ before after, s = before ++ after ∧ n = byteLength before := by
  constructor
  · intro h
    induction s generalizing n with
    | nil =>
      have hn := h.le_byteLength
      exact ⟨[], [], rfl, by simpa using hn⟩
    | cons c s ih =>
      by_cases hn : n < c.utf8Size
      · exact ⟨[], c :: s, rfl, by simpa using h.eq_zero hn⟩
      · obtain ⟨before, after, hs, hl⟩ := ih (h.tail (by omega))
        refine ⟨c :: before, after, by simp [hs], ?_⟩
        rw [byteLength_cons]
        omega
  · rintro ⟨before, after, rfl, rfl⟩
    exact isBoundary_append before after

theorem IsBoundary.slices?_eq (h : IsBoundary s n) : slices? n s = some (splitAtByte n s) := by
  obtain ⟨before, after, rfl, rfl⟩ := isBoundary_iff.mp h
  rw [splitAtByte_byteLength, slices?_eq_some_iff]
  exact ⟨rfl, rfl⟩

end Text

theorem Uri.HasFault.isBoundary {s : Text} {index : Nat} {fault : Fault}
    (h : HasFault s index fault) : Text.IsBoundary s index := by
  cases h with
  | emptyScheme rest => exact Text.isBoundary_append [] _
  | @badSchemeChar front c back rest =>
    rw [List.append_assoc]
    exact Text.isBoundary_append front _
  | @emptyPart scheme fragment? =>
    have h := Text.isBoundary_append (scheme ++ [':']) (Text.lead '#' fragment?)
    simpa using h
  | @emptyAuthority scheme =>
    have h := Text.isBoundary_append (scheme ++ "://".toList) []
    simpa using h

namespace Error

/-- What an error displays: its cause and its input, cut in two slices at its position if it has
one. There is nothing to display if there are no such slices. -/
inductive Displays (e : Error) : Text → Prop where
  | whole (position : e.index? = none) :
    Displays e (e.cause.message ++ " (\"".toList ++ e.input ++ "\")".toList)
  | cut {index : Nat} {before after : Text} (position : e.index? = some index)
    (slices : Text.slices? index e.input = some (before, after)) :
    Displays e (e.cause.message ++ " (\"".toList ++ (before ++ " >>>> ".toList ++ after) ++
      "\")".toList)

/-- The errors of the operations on templates, URIs and captured values. -/
inductive Reported (e : Error) : Prop where
  | template (s : Text) (h : Template.ofText s = .error e)
  | expansion (t : Template) (source : Source) (h : t.expand source = .error e)
  | uri (s : Text) (h : Uri.parse s = .error e)
  | value (c : Capture) (h : c.decoded = .error e)

/-- The position of an error, if it has one, is a boundary of its input. The error of a placeholder
without a value has one, and the placeholder stands there. -/
structure Located (e : Error) : Prop where
  isBoundary : ∀ index, e.index? = some index → Text.IsBoundary e.input index
  placeholder : ∀ name, e.cause = .noValue name → ∃ index before after, e.index? = some index ∧
    Text.slices? index e.input = some (before, Text.inBraces name ++ after)

variable {e : Error}

theorem Displays.eq_message {text : Text} (h : e.Displays text) : text = e.message := by
  cases h with
  | whole position => simp [message, context, position]
  | cut position slices =>
    obtain ⟨hs, hindex⟩ := Text.slices?_eq_some_iff.mp slices
    simp [message, context, position, hs, hindex, Text.splitAtByte_byteLength]

/-- An error can be displayed if and only if its position, should it have one, is a boundary. -/
theorem displays_message_iff :
    e.Displays e.message ↔ ∀ index, e.index? = some index → Text.IsBoundary e.input index := by
  constructor
  · intro h index hindex
    generalize e.message = text at h
    cases h with
    | whole position => simp [position] at hindex
    | @cut index' before after position slices =>
      have heq : index = index' := by simpa [hindex] using position
      rw [heq, Text.isBoundary_iff]
      exact ⟨before, after, Text.slices?_eq_some_iff.mp slices⟩
  · intro h
    cases position : e.index? with
    | none => simpa [message, context, position] using Displays.whole position
    | some index =>
      have hslices := (h index position).slices?_eq
      simpa [message, context, position] using Displays.cut position hslices

theorem located_of_whole (position : e.index? = none) (h : ∀ name, e.cause ≠ .noValue name) :
    e.Located := by
  constructor
  · simp [position]
  · intro name hname
    exact absurd hname (h name)

theorem located_of_ofText {s : Text} (h : Template.ofText s = .error e) : e.Located := by
  unfold Template.ofText at h
  split at h
  · cases h
    apply located_of_whole <;> simp
  · split at h
    · cases h
      apply located_of_whole <;> simp
    · cases h

theorem located_of_parse {s : Text} (h : Uri.parse s = .error e) : e.Located := by
  obtain ⟨index, fault, hfault, rfl⟩ := Uri.parse_eq_error_iff.mp h
  constructor
  · intro index' hindex
    cases hindex
    exact (Uri.fault?_eq_some_iff.mp hfault).isBoundary
  · simp

theorem located_of_encloses {s name : Text} {r : Nat × Nat} (h : Layout.Encloses s r name) :
    Located ⟨s, some r.1, .noValue name⟩ := by
  obtain ⟨before, after, rfl, rfl⟩ := h
  have hs : before ++ '{' :: name ++ '}' :: after = before ++ (Text.inBraces name ++ after) := by
    simp [Text.inBraces]
  constructor
  · intro index hindex
    cases hindex
    rw [hs]
    exact Text.isBoundary_append before _
  · intro name' hname
    cases hname
    exact ⟨_, before, after, rfl, Text.slices?_eq_some_iff.mpr ⟨hs, rfl⟩⟩

theorem located_of_expand {t : Template} {source : Source} (h : t.expand source = .error e) :
    e.Located := by
  obtain ⟨result, houtcome⟩ := t.exists_outcome source
  rw [houtcome.expand_eq] at h
  cases houtcome with
  | countMismatch =>
    cases h
    apply located_of_whole <;> simp
  | noValue _ _ _ encloses =>
    cases h
    exact located_of_encloses encloses
  | read => exact located_of_parse h

theorem located_of_decoded {c : Capture} (h : c.decoded = .error e) : e.Located := by
  unfold Capture.decoded at h
  split at h
  · cases h
  · cases h
    apply located_of_whole <;> simp

theorem Reported.located (h : e.Reported) : e.Located := by
  cases h with
  | template s h => exact located_of_ofText h
  | expansion t source h => exact located_of_expand h
  | uri s h => exact located_of_parse h
  | value c h => exact located_of_decoded h

/-- A reported error displays its message and nothing else. Its position, if it has one, is within
its input and inside of no character, and the two slices there make up the input. If a value is
missing, the second slice starts with the placeholder. -/
theorem displays_of_reported (h : e.Reported) :
    (∀ text, e.Displays text ↔ text = e.message) ∧
    (∀ index, e.index? = some index → index ≤ Text.byteLength e.input ∧
      Text.IsBoundary e.input index ∧ ∃ before after,
        Text.slices? index e.input = some (before, after) ∧ before ++ after = e.input) ∧
    ∀ name, e.cause = .noValue name → ∃ index before after, e.index? = some index ∧
      Text.slices? index e.input = some (before, Text.inBraces name ++ after) := by
  have hlocated := h.located
  refine ⟨?_, ?_, hlocated.placeholder⟩
  · intro text
    constructor
    · exact Displays.eq_message
    · rintro rfl
      exact displays_message_iff.mpr hlocated.isBoundary
  · intro index hindex
    have hboundary := hlocated.isBoundary index hindex
    exact ⟨hboundary.le_byteLength, hboundary, _, _, hboundary.slices?_eq,
      Text.splitAtByte_append index e.input⟩

/-- The second placeholder has no value, and a character of two bytes stands before it. -/
theorem displays_missing_value : ∃ t e, Template.ofText "é/{a}{b}".toList = .ok t ∧
    t.expand (Bindings.named [("a".toList, .text "{b}".toList)]).source = .error e ∧
    e.Displays "no value for variable 'b' (\"é/{a} >>>> {b}\")".toList ∧
    Text.IsBoundary e.input 6 ∧
    ∃ before after, Text.slices? 6 e.input = some (before, Text.inBraces "b".toList ++ after) := by
  let t : Template := ⟨Layout.scan "é/{a}{b}".toList, by decide, by decide, by decide⟩
  let e : Error := ⟨"é/{a}{b}".toList, some 6, .noValue "b".toList⟩
  have hexpand : t.expand (Bindings.named [("a".toList, .text "{b}".toList)]).source = .error e :=
    rfl
  have h := displays_of_reported (.expansion t _ hexpand)
  obtain ⟨index, before, after, hindex, hslices⟩ := h.2.2 "b".toList rfl
  cases hindex
  exact ⟨t, e, rfl, hexpand, (h.1 _).mpr rfl, (h.2.1 6 rfl).2.1, before, after, hslices⟩

end Error

end LinkTemplate
