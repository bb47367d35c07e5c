import LinkTemplate.Proofs.Percent.Encoding
import LinkTemplate.Proofs.Text
import LinkTemplate.Uri

/-!
# Written forms of a text

The number sign and the brackets are kept in some components and escaped in others. Every other
character is written in one way only, so the written forms of a text differ in these marks alone.
-/

namespace LinkTemplate.Uri

/-- The characters that are kept in some components and escaped in others. -/
def isMark (c : Char) : Bool := "#[]".toList.contains c

/-- The characters that are kept wherever they stand. -/
def isKeptChar (c : Char) : Bool := isPathChar c || c == '?'

@[simp] theorem isKeptChar_percent : isKeptChar '%' = false := by decide

theorem isKeptChar_iff {c : Char} :
    isKeptChar c = true ↔ c.isAlphanum = true ∨ c ∈ "-_.!~*'();:@&=+$,/?".toList := by
  have hmarks : "-_.!~*'();:@&=+$,/?".toList = "-_.!~*'();:@&=+$,/".toList ++ ['?'] := rfl
  rw [hmarks, List.mem_append, List.mem_singleton, isKeptChar, isPathChar, Bool.or_eq_true,
    Bool.or_eq_true, List.contains_iff_mem, beq_iff_eq, or_assoc]

theorem ne_percent_of_isMark {c : Char} (h : isMark c = true) : c ≠ '%' := by
  rintro rfl
  exact absurd h (by decide)

theorem isMark_iff {c : Char} : isMark c = true ↔ c = '#' ∨ c = '[' ∨ c = ']' := by
  rw [isMark, List.contains_iff_mem]
  change c ∈ ['#', '[', ']'] ↔ _
  simp only [List.mem_cons, List.not_mem_nil, or_false]

theorem isMark_eq_false_of_any {s : Text} (h : s.any isMark = false) :
    ∀ c ∈ s, isMark c = false := by
  intro c hc
  rw [List.any_eq_false] at h
  exact Bool.eq_false_iff.mpr (h c hc)

theorem isKeptChar_eq_false_of_isMark {c : Char} (h : isMark c = true) : isKeptChar c = false := by
  rcases isMark_iff.mp h with rfl | rfl | rfl <;> decide

theorem isUriChar_eq_of_not_isMark {c : Char} (h : isMark c = false) :
    isUriChar c = isKeptChar c := by
  have hc : ¬(c = '#' ∨ c = '[' ∨ c = ']') := by
    rw [← isMark_iff, h]
    exact Bool.false_ne_true
  have hm : "?[]".toList.contains c = (c == '?') := by
    rw [Bool.eq_iff_iff, List.contains_iff_mem, beq_iff_eq]
    change c ∈ ['?', '[', ']'] ↔ _
    simp only [not_or] at hc
    simp [hc.2.1, hc.2.2]
  rw [isUriChar, isKeptChar, hm]

/-- A written form of a text: marks are kept or escaped, other characters are encoded. -/
inductive Written : Text → Text → Prop where
  | nil : Written [] []
  | encoded (c : Char) {s u : Text} (rest : Written s u) :
    Written (c :: s) (Percent.encodeChar isKeptChar c ++ u)
  | mark {c : Char} (kept : isMark c = true) {s u : Text} (rest : Written s u) :
    Written (c :: s) (c :: u)

namespace Written

variable {s t u v : Text}

theorem cons_self {c : Char} (hc : isKeptChar c = true ∨ isMark c = true) (h : Written s u) :
    Written (c :: s) (c :: u) := by
  rcases hc with hc | hc
  · have he := encoded c h
    rw [Percent.encodeChar, if_pos hc] at he
    exact he
  · exact mark hc h

theorem append (h : Written s u) (h' : Written t v) : Written (s ++ t) (u ++ v) := by
  induction h with
  | nil => exact h'
  | encoded c _ ih =>
    rw [List.cons_append, List.append_assoc]
    exact encoded c ih
  | mark hc _ ih => exact mark hc ih

theorem exists_of_append (h : Written (s ++ t) u) :
    ∃ v w, u = v ++ w ∧ Written s v ∧ Written t w := by
  induction s generalizing u with
  | nil => exact ⟨[], u, rfl, nil, h⟩
  | cons c s ih =>
    cases h with
    | encoded _ h =>
      obtain ⟨v, w, rfl, hv, hw⟩ := ih h
      exact ⟨_, w, (List.append_assoc _ _ _).symm, encoded c hv, hw⟩
    | mark hc h =>
      obtain ⟨v, w, rfl, hv, hw⟩ := ih h
      exact ⟨c :: v, w, rfl, mark hc hv, hw⟩

theorem eq_nil (h : Written [] u) : u = [] := by
  cases h
  rfl

theorem eq_encode (h : Written s u) (hs : ∀ c ∈ s, isMark c = false) :
    u = Percent.encode isKeptChar s := by
  induction h with
  | nil => rfl
  | encoded c _ ih =>
    rw [Percent.encode_cons, ih fun d hd => hs d (List.mem_cons_of_mem _ hd)]
  | mark hc _ _ =>
    rw [hs _ List.mem_cons_self] at hc
    exact absurd hc Bool.false_ne_true

theorem bytes_append (h : Written s u) (v : Text) :
    Percent.bytes (u ++ v) = s.flatMap String.utf8EncodeChar ++ Percent.bytes v := by
  induction h with
  | nil => rfl
  | encoded c _ ih =>
    rw [List.append_assoc, Percent.bytes_encodeChar_append isKeptChar_percent, ih,
      List.flatMap_cons, List.append_assoc]
  | mark hc _ ih =>
    rw [List.cons_append, Percent.bytes_cons_of_ne (ne_percent_of_isMark hc), ih,
      List.flatMap_cons, List.append_assoc]

theorem decode (h : Written s u) : Percent.decode u = some s := by
  have hb := h.bytes_append []
  rw [List.append_nil, show Percent.bytes [] = [] from rfl, List.append_nil] at hb
  rw [Percent.decode, hb, Percent.ofUtf8?_flatMap]

theorem mem {d : Char} (h : Written s u) (hd : d ∈ u) :
    (d ∈ s ∧ (isKeptChar d = true ∨ isMark d = true)) ∨ d = '%' ∨
      Percent.isEscapeDigit d = true := by
  induction h with
  | nil => exact absurd hd List.not_mem_nil
  | encoded c _ ih =>
    rcases List.mem_append.mp hd with hd | hd
    · rcases Percent.mem_encodeChar hd with ⟨rfl, hk⟩ | hd
      · exact .inl ⟨List.mem_cons_self, .inl hk⟩
      · exact .inr hd
    · exact (ih hd).imp_left fun ⟨hm, hk⟩ => ⟨List.mem_cons_of_mem _ hm, hk⟩
  | mark hc _ ih =>
    rcases List.mem_cons.mp hd with rfl | hd
    · exact .inl ⟨List.mem_cons_self, .inr hc⟩
    · exact (ih hd).imp_left fun ⟨hm, hk⟩ => ⟨List.mem_cons_of_mem _ hm, hk⟩

theorem mem_of_mem {d : Char} (h : Written s u) (hd : d ∈ s) (hk : isKeptChar d = true) :
    d ∈ u := by
  induction h with
  | nil => exact absurd hd List.not_mem_nil
  | @encoded c _ _ _ ih =>
    rcases List.mem_cons.mp hd with rfl | hd
    · apply List.mem_append_left
      rw [Percent.encodeChar, if_pos hk]
      exact List.mem_singleton_self _
    · exact List.mem_append_right _ (ih hd)
  | mark _ _ ih =>
    rcases List.mem_cons.mp hd with rfl | hd
    · exact List.mem_cons_self
    · exact List.mem_cons_of_mem _ (ih hd)

theorem lineFeed_not_mem (h : Written s u) : '\n' ∉ u := by
  intro hd
  rcases h.mem hd with ⟨-, hk⟩ | hd
  · exact absurd hk (by decide)
  · exact absurd hd (by decide)

theorem slash_mem (h : Written s u) (hd : '/' ∈ u) : '/' ∈ s := by
  rcases h.mem hd with ⟨hm, -⟩ | hd
  · exact hm
  · exact absurd hd (by decide)

theorem getLast?_eq_slash (h : Written s u) (hu : u.getLast? = some '/') :
    s.getLast? = some '/' := by
  rcases s.eq_nil_or_concat with rfl | ⟨front, c, hs⟩
  · rw [h.eq_nil] at hu
    cases hu
  · rw [List.concat_eq_append] at hs
    subst hs
    obtain ⟨v, w, rfl, -, hw⟩ := h.exists_of_append
    cases hlast : w.getLast? with
    | none =>
      rw [List.getLast?_eq_none_iff.mp hlast] at hw
      have hd := hw.decode
      rw [Written.nil.decode] at hd
      cases hd
    | some d =>
      rw [List.getLast?_append, hlast, Option.some_or, Option.some.injEq] at hu
      have hc := hw.slash_mem (hu ▸ List.mem_of_getLast? hlast)
      rw [List.mem_singleton] at hc
      rw [List.getLast?_concat, hc]

theorem getLast?_of_slash (h : Written s u) (hs : s.getLast? = some '/') :
    u.getLast? = some '/' := by
  obtain ⟨front, rfl⟩ := List.getLast?_eq_some_iff.mp hs
  obtain ⟨v, w, rfl, -, hw⟩ := h.exists_of_append
  have hslash : w = ['/'] := hw.eq_encode (isMark_eq_false_of_any (by decide))
  rw [hslash, List.getLast?_concat]

end Written

open Percent (encode)

private theorem not_mem_of_cut_eq {c : Char} {s head : Text} (h : Text.cut c s = (head, none)) :
    c ∉ s := by
  intro hc
  obtain ⟨a, b, rfl, ha⟩ := List.eq_append_cons_of_mem hc
  rw [Text.cut_append_cons ha] at h
  cases h

namespace Components

private theorem path_ofPart {scheme part path : Text} {fragment? : Option Text}
    (h : (ofPart scheme part fragment?).path? = some path) : '?' ∉ path := by
  unfold ofPart at h
  split at h
  · simp only [Components.path?, Option.some.injEq] at h
    rw [← h]
    exact Text.not_mem_cut_fst _ _
  · simp only [Components.path?, Option.some.injEq] at h
    rw [← h]
    exact Text.not_mem_cut_fst _ _
  · cases h

theorem questionMark_not_mem_path {s path : Text} (h : (ofText s).path? = some path) :
    '?' ∉ path := by
  unfold ofText at h
  split at h
  · exact path_ofPart h
  · split at h
    next head rest hq =>
      simp only [Components.path?, Option.some.injEq] at h
      rw [← h, show head = (Text.cut '?' s).1 by rw [hq]]
      exact Text.not_mem_cut_fst _ _
    next hq =>
      simp only [Components.path?, Option.some.injEq] at h
      rw [← h]
      intro hm
      exact not_mem_of_cut_eq hq ((Text.cut_fst_prefix _ _).subset hm)

end Components

private theorem encodeChar_congr {keep keep' : Char → Bool} {c : Char} (h : keep c = keep' c) :
    Percent.encodeChar keep c = Percent.encodeChar keep' c := by
  rw [Percent.encodeChar, Percent.encodeChar, h]

private theorem written_of_alphabet {keep : Char → Bool} {s : Text}
    (h : ∀ c ∈ s, isMark c = false → keep c = isKeptChar c) : Written s (encode keep s) := by
  induction s with
  | nil => exact .nil
  | cons c s ih =>
    have hs := ih fun d hd => h d (List.mem_cons_of_mem _ hd)
    rw [Percent.encode_cons]
    cases hm : isMark c with
    | false =>
      rw [encodeChar_congr (h c List.mem_cons_self hm)]
      exact .encoded c hs
    | true =>
      cases hk : keep c with
      | false =>
        rw [encodeChar_congr (hk.trans (isKeptChar_eq_false_of_isMark hm).symm)]
        exact .encoded c hs
      | true =>
        rw [Percent.encodeChar, if_pos hk]
        exact .mark hm hs

private theorem written_path {s : Text} (h : '?' ∉ s) : Written s (encode isPathChar s) := by
  apply written_of_alphabet
  intro c hc _
  have hq : (c == '?') = false := beq_false_of_ne fun e => h (e ▸ hc)
  rw [isKeptChar, hq, Bool.or_false]

private theorem written_uric (s : Text) : Written s (encode isUriChar s) :=
  written_of_alphabet fun _ _ hm => isUriChar_eq_of_not_isMark hm

private theorem written_lead {c : Char} (hc : isKeptChar c = true ∨ isMark c = true)
    (s? : Option Text) : Written (Text.lead c s?) (Text.lead c (s?.map (encode isUriChar))) := by
  cases s? with
  | none => exact .nil
  | some s => exact .cons_self hc (written_uric s)

namespace Components

theorem written_encode {c : Components} (h : ∀ path, c.path? = some path → '?' ∉ path) :
    Written c.text c.encode.text := by
  have hcolon (scheme : Text) :
      Written (scheme ++ [':']) (Percent.encode isUriChar scheme ++ [':']) :=
    (written_uric scheme).append (Written.nil.cons_self (.inl (by decide)))
  have hquery := written_lead (c := '?') (.inl (by decide))
  have hfragment := written_lead (c := '#') (.inr (by decide))
  match c with
  | .unstructured scheme part fragment? =>
    exact ((hcolon scheme).append (written_uric part)).append (hfragment fragment?)
  | .hierarchical scheme none path query? fragment? =>
    have hpath := written_path (h path rfl)
    exact ((hcolon scheme).append (hpath.append (hquery query?))).append (hfragment fragment?)
  | .hierarchical scheme (some authority) path query? fragment? =>
    have hpath := written_path (h path rfl)
    have hauthority : Written ('/' :: '/' :: authority)
        ('/' :: '/' :: Percent.encode isUriChar authority) :=
      ((written_uric authority).cons_self (.inl (by decide))).cons_self (.inl (by decide))
    exact ((hcolon scheme).append ((hauthority.append hpath).append (hquery query?))).append
      (hfragment fragment?)
  | .relative path query? fragment? =>
    have hpath := written_path (h path rfl)
    exact (Written.nil.append (hpath.append (hquery query?))).append (hfragment fragment?)

end Components

theorem written_encodeText (s : Text) : Written s (encodeText s) := by
  have h := Components.written_encode (c := Components.ofText s) fun _ hp =>
    Components.questionMark_not_mem_path hp
  rwa [Components.text_ofText] at h

/-- A text without marks is encoded character by character, whatever its components are. -/
theorem encodeText_eq_encode {s : Text} (h : ∀ c ∈ s, isMark c = false) :
    encodeText s = encode isKeptChar s :=
  (written_encodeText s).eq_encode h

private theorem isMark_eq_false_of_not_mem {s : Text} (h : '#' ∉ s ∧ '[' ∉ s ∧ ']' ∉ s) :
    ∀ c ∈ s, isMark c = false := by
  intro c hc
  cases hm : isMark c with
  | false => rfl
  | true =>
    have hmark : c = '#' ∨ c = '[' ∨ c = ']' := isMark_iff.mp hm
    rcases hmark with rfl | rfl | rfl <;> simp [hc] at h

private theorem encodeChar_isKeptChar (c : Char) : Percent.encodeChar isKeptChar c =
    if c.isAlphanum = true ∨ c ∈ "-_.!~*'();:@&=+$,/?".toList then [c]
    else (String.utf8EncodeChar c).flatMap Percent.escapeByte := by
  simp only [Percent.encodeChar, isKeptChar_iff]

/-- Where a text is cut in two does not matter to its encoding if neither piece has a number sign or
a bracket, however the pieces and the whole fall into components. Such a piece is encoded character
by character: the ASCII letters and digits and the punctuation listed here are kept, and each byte
of any other character is escaped. -/
theorem encodeText_append {a b : Text} (ha : '#' ∉ a ∧ '[' ∉ a ∧ ']' ∉ a)
    (hb : '#' ∉ b ∧ '[' ∉ b ∧ ']' ∉ b) :
    encodeText (a ++ b) = encodeText a ++ encodeText b ∧
    encodeText a = a.flatMap fun c =>
      if c.isAlphanum = true ∨ c ∈ "-_.!~*'();:@&=+$,/?".toList then [c]
      else (String.utf8EncodeChar c).flatMap Percent.escapeByte := by
  have hencode {s : Text} (h : '#' ∉ s ∧ '[' ∉ s ∧ ']' ∉ s) : encodeText s = encode isKeptChar s :=
    encodeText_eq_encode (isMark_eq_false_of_not_mem h)
  have hab : '#' ∉ a ++ b ∧ '[' ∉ a ++ b ∧ ']' ∉ a ++ b := by simp [ha, hb]
  constructor
  · calc encodeText (a ++ b)
      _ = encode isKeptChar a ++ encode isKeptChar b := by
          rw [hencode hab, Percent.encode_append]
      _ = encodeText a ++ encodeText b := by rw [hencode ha, hencode hb]
  · rw [hencode ha, Percent.encode, funext encodeChar_isKeptChar]

/-- A piece that ends in the colon of a scheme, though the scheme is none, and one that opens an
authority after it and would be a path on its own. -/
theorem encodeText_append_colon :
    encodeText ("a?b é:".toList ++ "//c%d/".toList) = "a?b%20%C3%A9:".toList ++ "//c%25d/".toList ∧
    encodeText "a?b é:".toList = "a?b%20%C3%A9:".toList := by
  have h := encodeText_append (a := "a?b é:".toList) (b := "//c%d/".toList) (by decide) (by decide)
  exact ⟨h.1, h.2⟩

/-- A bracket is escaped on its own and kept in a query. -/
example :
    encodeText ("?".toList ++ "[".toList) ≠ encodeText "?".toList ++ encodeText "[".toList := by
  decide

theorem text_of_parse {s : Text} {u : Uri} (h : parse s = .ok u) : u.text = encodeText s := by
  unfold parse at h
  split at h
  · injection h with h
    subst h
    rfl
  · cases h

theorem exists_written_text (u : Uri) : ∃ s, Written s u.text := by
  obtain ⟨components, s, -, rfl⟩ := u
  exact ⟨s, written_encodeText s⟩

theorem lineFeed_not_mem_text (u : Uri) : '\n' ∉ u.text := by
  obtain ⟨s, hs⟩ := exists_written_text u
  exact hs.lineFeed_not_mem

end LinkTemplate.Uri
