import LinkTemplate.Proofs.Text
import LinkTemplate.Uri
import Mathlib.Data.List.Induction
import Mathlib.Data.List.TakeWhile

/-! # Faults and well-formed components -/

namespace LinkTemplate.Uri

open Percent (encode)

/-- A letter, and then letters, digits and the marks of a scheme. -/
def isScheme : Text → Bool
  | [] => false
  | c :: s => c.isAlpha && s.all isSchemeChar

theorem schemeFault?_eq_none_iff {s : Text} : schemeFault? s = none ↔ isScheme s = true := by
  cases s with
  | nil => simp [schemeFault?, isScheme]
  | cons c s =>
    have hrest : s.dropWhile isSchemeChar = [] ↔ s.all isSchemeChar = true := by
      rw [List.dropWhile_eq_nil_iff, List.all_eq_true]
    rw [schemeFault?, isScheme, Bool.and_eq_true, ← hrest]
    by_cases hc : c.isAlpha = true
    · rw [if_pos hc]
      cases s.dropWhile isSchemeChar <;> simp [hc]
    · simp [hc]

theorem isSchemeChar_of_mem {s : Text} {c : Char} (h : isScheme s = true) (hc : c ∈ s) :
    isSchemeChar c = true := by
  cases s with
  | nil => exact absurd hc List.not_mem_nil
  | cons d s =>
    simp only [isScheme, Bool.and_eq_true, List.all_eq_true] at h
    rcases List.mem_cons.mp hc with rfl | hc
    · simp [isSchemeChar, Char.isAlphanum, h.1]
    · exact h.2 c hc

theorem colon_not_mem_of_isScheme {s : Text} (h : isScheme s = true) : ':' ∉ s :=
  fun hc => absurd (isSchemeChar_of_mem h hc) (by decide)

theorem partFault?_eq_none_iff {part : Text} {fragment? : Option Text} (h : '#' ∉ part) :
    partFault? (part ++ Text.lead '#' fragment?) = none ↔
      part ≠ [] ∧ ¬(part = ['/', '/'] ∧ fragment? = none) := by
  rw [partFault?, Text.cut_append_lead_of_not_mem h]
  split <;> simp_all

/-- A text with a colon has no fault if a scheme stands before it, and after it a part that is not
empty and, without a fragment, not two slashes alone. -/
theorem fault?_eq_none_iff {scheme part : Text} {fragment? : Option Text} (hs : ':' ∉ scheme)
    (hp : '#' ∉ part) :
    fault? (scheme ++ ':' :: (part ++ Text.lead '#' fragment?)) = none ↔
      isScheme scheme = true ∧ part ≠ [] ∧ ¬(part = ['/', '/'] ∧ fragment? = none) := by
  rw [← schemeFault?_eq_none_iff, ← partFault?_eq_none_iff hp]
  simp only [fault?, Text.cut_append_cons hs]
  cases schemeFault? scheme <;> simp

theorem fault?_of_not_mem {s : Text} (h : ':' ∉ s) : fault? s = none := by
  rw [fault?, Text.cut_of_not_mem h]

/-- The first fault of a text, and its position. A fault of one kind comes first only where the text
has none of the kinds before it. -/
inductive HasFault : Text → Nat → Fault → Prop where
  /-- The first colon has no scheme before it. -/
  | emptyScheme (rest : Text) : HasFault (':' :: rest) 0 .emptyScheme
  /-- What stands before a character of the scheme is empty or a scheme, and with it is none. -/
  | badSchemeChar {front : Text} {c : Char} {back : Text} (rest : Text)
    (no_colon : ':' ∉ front ++ c :: back) (front_ok : front = [] ∨ isScheme front = true)
    (bad : isScheme (front ++ [c]) = false) :
    HasFault (front ++ c :: back ++ ':' :: rest) (Text.byteLength front) .badSchemeChar
  /-- The text ends after the colon of the scheme, or has a fragment there. -/
  | emptyPart {scheme : Text} (fragment? : Option Text) (scheme_ok : isScheme scheme = true) :
    HasFault (scheme ++ ':' :: Text.lead '#' fragment?) (Text.byteLength (scheme ++ [':']))
      .emptyPart
  /-- The text ends after two slashes, which open an authority. -/
  | emptyAuthority {scheme : Text} (scheme_ok : isScheme scheme = true) :
    HasFault (scheme ++ "://".toList) (Text.byteLength (scheme ++ "://".toList)) .emptyAuthority

variable {s : Text} {index : Nat} {fault : Fault} {e : Error}

private theorem schemeFault?_append_cons {front : Text} {c : Char}
    (hfront : front = [] ∨ isScheme front = true) (hbad : isScheme (front ++ [c]) = false)
    (back : Text) :
    schemeFault? (front ++ c :: back) = some (Text.byteLength front, .badSchemeChar) := by
  cases front with
  | nil =>
    have hc : c.isAlpha = false := by simpa [isScheme] using hbad
    simp [schemeFault?, hc]
  | cons a front =>
    have hok : a.isAlpha = true ∧ ∀ d ∈ front, isSchemeChar d = true := by
      simpa [isScheme] using hfront
    have hc : isSchemeChar c = false := by
      simpa [isScheme, hok.1, List.all_eq_true.mpr hok.2] using hbad
    simp [schemeFault?, hok.1, hc, List.takeWhile_append_of_pos hok.2,
      List.dropWhile_append_of_pos hok.2]

private theorem exists_bad_char (hne : s ≠ []) (hs : isScheme s = false) :
    ∃ front c back, s = front ++ c :: back ∧ (front = [] ∨ isScheme front = true) ∧
      isScheme (front ++ [c]) = false := by
  -- From the end: a fault of the text before the last character is one of the whole text.
  induction s using List.reverseRecOn with
  | nil => exact absurd rfl hne
  | append_singleton s d ih =>
    by_cases hok : s = [] ∨ isScheme s = true
    · exact ⟨s, d, [], rfl, hok, hs⟩
    · simp only [not_or, Bool.not_eq_true] at hok
      obtain ⟨front, c, back, rfl, hfront, hbad⟩ := ih hok.1 hok.2
      exact ⟨front, c, back ++ [d], by simp, hfront, hbad⟩

private theorem fault?_of_schemeFault? {scheme : Text} (hcolon : ':' ∉ scheme)
    (h : schemeFault? scheme = some (index, fault)) (rest : Text) :
    fault? (scheme ++ ':' :: rest) = some (index, fault) := by
  simp only [fault?, Text.cut_append_cons hcolon, h]

private theorem fault?_of_partFault? {scheme rest : Text} (hs : isScheme scheme = true)
    (h : partFault? rest = some (index, fault)) :
    fault? (scheme ++ ':' :: rest) = some (Text.byteLength (scheme ++ [':']) + index, fault) := by
  simp only [fault?, Text.cut_append_cons (colon_not_mem_of_isScheme hs),
    schemeFault?_eq_none_iff.mpr hs, h, Option.map_some, Text.byteLength_append]
  rfl

theorem HasFault.fault?_eq_some (h : HasFault s index fault) :
    fault? s = some (index, fault) := by
  cases h with
  | emptyScheme rest =>
    have hnone : schemeFault? [] = some (0, .emptyScheme) := rfl
    exact fault?_of_schemeFault? List.not_mem_nil hnone rest
  | badSchemeChar rest hcolon hfront hbad =>
    exact fault?_of_schemeFault? hcolon (schemeFault?_append_cons hfront hbad _) rest
  | emptyPart fragment? hs =>
    have hpart : partFault? (Text.lead '#' fragment?) = some (0, .emptyPart) := by
      have hcut := Text.cut_append_lead_of_not_mem (List.not_mem_nil (a := '#')) fragment?
      rw [List.nil_append] at hcut
      rw [partFault?, hcut]
    exact fault?_of_partFault? hs hpart
  | @emptyAuthority scheme hs =>
    have hpart : partFault? "//".toList = some (2, .emptyAuthority) := by decide
    have hlength :
        Text.byteLength (scheme ++ "://".toList) = Text.byteLength (scheme ++ [':']) + 2 := by
      simp only [Text.byteLength_append, Nat.add_assoc]
      rfl
    rw [hlength]
    exact fault?_of_partFault? hs hpart

private theorem exists_hasFault (h : fault? s ≠ none) : ∃ index fault, HasFault s index fault := by
  obtain ⟨scheme, rest?, rfl, hcolon⟩ := Text.exists_eq_append_lead ':' s
  cases rest? with
  | none => exact absurd (fault?_of_not_mem (by simpa using hcolon)) h
  | some rest =>
    obtain ⟨part, fragment?, rfl, hsign⟩ := Text.exists_eq_append_lead '#' rest
    rw [Text.lead_some, ne_eq, fault?_eq_none_iff hcolon hsign] at h
    by_cases hs : isScheme scheme = true
    · by_cases hpart : part = []
      · subst hpart
        exact ⟨_, _, .emptyPart fragment? hs⟩
      · have hslashes : part = ['/', '/'] ∧ fragment? = none := by simpa [hs, hpart] using h
        obtain ⟨rfl, rfl⟩ := hslashes
        exact ⟨_, _, .emptyAuthority hs⟩
    · by_cases hempty : scheme = []
      · subst hempty
        exact ⟨_, _, .emptyScheme _⟩
      · obtain ⟨front, c, back, rfl, hfront, hbad⟩ :=
          exists_bad_char hempty (Bool.not_eq_true _ ▸ hs)
        exact ⟨_, _, .badSchemeChar _ hcolon hfront hbad⟩

theorem fault?_eq_some_iff : fault? s = some (index, fault) ↔ HasFault s index fault := by
  constructor
  · intro h
    obtain ⟨index', fault', hfault⟩ := exists_hasFault (s := s) (by simp [h])
    have heq := hfault.fault?_eq_some
    rw [h, Option.some.injEq, Prod.mk.injEq] at heq
    rwa [heq.1, heq.2]
  · exact HasFault.fault?_eq_some

theorem parse_eq_error_iff :
    parse s = .error e ↔ ∃ index fault, fault? s = some (index, fault) ∧
      e = ⟨s, some index, .invalidUri fault⟩ := by
  unfold parse
  split
  next h => simp [h]
  next index fault h => simp [h, eq_comm]

/-- A text is a URI if and only if it has no colon, or a scheme stands before its first colon and
after it, up to the next number sign, a part that is not empty and not two slashes at the very end.
Any other text is refused, with itself as the input of the error, for its first fault and at the
position of that fault. -/
theorem parse_verdict (s : Text) :
    ((∃ u, parse s = .ok u) ↔ ':' ∉ s ∨ ∃ scheme part fragment?,
      s = scheme ++ ':' :: (part ++ Text.lead '#' fragment?) ∧ isScheme scheme = true ∧
        '#' ∉ part ∧ part ≠ [] ∧ ¬(part = "//".toList ∧ fragment? = none)) ∧
    ∀ e, parse s = .error e ↔ ∃ index fault, HasFault s index fault ∧
      e = ⟨s, some index, .invalidUri fault⟩ := by
  constructor
  · constructor
    · rintro ⟨u, h⟩
      obtain ⟨scheme, rest?, rfl, hcolon⟩ := Text.exists_eq_append_lead ':' s
      cases rest? with
      | none => exact .inl (by simpa using hcolon)
      | some rest =>
        obtain ⟨part, fragment?, rfl, hsign⟩ := Text.exists_eq_append_lead '#' rest
        have hok := (fault?_eq_none_iff hcolon hsign).mp (parse_eq_ok_iff.mp h).1
        exact .inr ⟨scheme, part, fragment?, rfl, hok.1, hsign, hok.2.1, hok.2.2⟩
    · rintro (hcolon | ⟨scheme, part, fragment?, rfl, hs, hsign, hpart⟩)
      · obtain ⟨u, h, -⟩ := exists_parse (fault?_of_not_mem hcolon)
        exact ⟨u, h⟩
      · obtain ⟨u, h, -⟩ := exists_parse
          ((fault?_eq_none_iff (colon_not_mem_of_isScheme hs) hsign).mpr ⟨hs, hpart⟩)
        exact ⟨u, h⟩
  · intro e
    simp only [parse_eq_error_iff, fault?_eq_some_iff]

/-- Components that can be told apart in the text that they make up. -/
inductive Components.WellFormed : Components → Prop where
  | unstructured {scheme part : Text} {fragment? : Option Text} (scheme_ok : isScheme scheme = true)
    (part_ne : part ≠ []) (part_head : part.head? ≠ some '/') (part_free : '#' ∉ part) :
    WellFormed (.unstructured scheme part fragment?)
  | withAuthority {scheme authority path : Text} {query? fragment? : Option Text}
    (scheme_ok : isScheme scheme = true)
    (authority_free : '/' ∉ authority ∧ '?' ∉ authority ∧ '#' ∉ authority)
    (path_head : path = [] ∨ path.head? = some '/') (path_free : '?' ∉ path ∧ '#' ∉ path)
    (query_free : ∀ query, query? = some query → '#' ∉ query)
    (some_part : ¬(authority = [] ∧ path = [] ∧ query? = none ∧ fragment? = none)) :
    WellFormed (.hierarchical scheme (some authority) path query? fragment?)
  | withoutAuthority {scheme path : Text} {query? fragment? : Option Text}
    (scheme_ok : isScheme scheme = true) (path_head : path.head? = some '/')
    (no_authority : ¬['/', '/'] <+: path) (path_free : '?' ∉ path ∧ '#' ∉ path)
    (query_free : ∀ query, query? = some query → '#' ∉ query) :
    WellFormed (.hierarchical scheme none path query? fragment?)
  | withQuery {path query : Text} {fragment? : Option Text}
    (no_colon : ':' ∉ (Components.relative path (some query) fragment?).text)
    (path_free : '?' ∉ path) (query_free : '#' ∉ query) :
    WellFormed (.relative path (some query) fragment?)
  | withoutQuery {path : Text} {fragment? : Option Text}
    (no_colon : ':' ∉ (Components.relative path none fragment?).text)
    (path_free : '?' ∉ path ∧ '#' ∉ path)
    (fragment_free : ∀ fragment, fragment? = some fragment → '?' ∉ fragment) :
    WellFormed (.relative path none fragment?)

namespace Components

variable {c : Components} {scheme part authority path : Text} {query? fragment? : Option Text}

theorem WellFormed.numberSign_not_mem (h : c.WellFormed) (hs : c.scheme? = some scheme) :
    '#' ∉ c.schemeSpecificPart := by
  cases h with
  | unstructured _ _ _ free => exact free
  | withAuthority _ ha _ hp hq _ =>
    simp [schemeSpecificPart, ha.2.2, hp.2, Text.not_mem_lead (show '#' ≠ '?' by decide) hq]
  | withoutAuthority _ _ _ hp hq =>
    simp [schemeSpecificPart, hp.2, Text.not_mem_lead (show '#' ≠ '?' by decide) hq]
  | withQuery => cases hs
  | withoutQuery => cases hs

theorem WellFormed.isScheme (h : c.WellFormed) (hs : c.scheme? = some scheme) :
    isScheme scheme = true := by
  cases h with
  | unstructured ok => exact Option.some.inj hs ▸ ok
  | withAuthority ok => exact Option.some.inj hs ▸ ok
  | withoutAuthority ok => exact Option.some.inj hs ▸ ok
  | withQuery => cases hs
  | withoutQuery => cases hs

theorem text_of_scheme (h : c.scheme? = some scheme) :
    c.text = scheme ++ ':' :: (c.schemeSpecificPart ++ Text.lead '#' c.fragment?) := by
  simp [text, h]

theorem ofText_of_scheme (h : c.WellFormed) (hs : c.scheme? = some scheme) :
    ofText c.text = ofPart scheme c.schemeSpecificPart c.fragment? := by
  have hcolon := colon_not_mem_of_isScheme (h.isScheme hs)
  rw [text_of_scheme hs]
  simp only [ofText, Text.cut_append_cons hcolon,
    Text.cut_append_lead_of_not_mem (h.numberSign_not_mem hs)]

theorem ofPart_unstructured (h : part.head? ≠ some '/') :
    ofPart scheme part fragment? = .unstructured scheme part fragment? := by
  unfold ofPart
  split <;> simp_all

theorem ofPart_withAuthority (slash : '/' ∉ authority) (mark : '?' ∉ authority)
    (head : path = [] ∨ path.head? = some '/') (free : '?' ∉ path) :
    ofPart scheme ('/' :: '/' :: authority ++ path ++ Text.lead '?' query?) fragment? =
      .hierarchical scheme (some authority) path query? fragment? := by
  have hinside : ∀ d ∈ authority, (d != '/' && d != '?') = true := by
    intro d hd
    have hslash : d ≠ '/' := fun e => slash (e ▸ hd)
    have hmark : d ≠ '?' := fun e => mark (e ▸ hd)
    simp [hslash, hmark]
  have hstop : ∀ d, (path ++ Text.lead '?' query?).head? = some d → d = '/' ∨ d = '?' := by
    intro d hd
    cases path with
    | nil =>
      cases query? with
      | none => cases hd
      | some query => exact .inr (Option.some.inj hd).symm
    | cons e path =>
      have he : e = '/' := by simpa using head
      exact .inl ((Option.some.inj hd).symm.trans he)
  have hcut := Text.cut_append_lead_of_not_mem free query?
  rw [List.append_assoc]
  generalize path ++ Text.lead '?' query? = rest at hstop hcut ⊢
  simp only [ofPart, List.cons_append]
  rw [List.takeWhile_append_of_pos hinside, List.dropWhile_append_of_pos hinside]
  cases rest with
  | nil => simp [hcut]
  | cons d rest => rcases hstop d rfl with rfl | rfl <;> simp [hcut]

theorem slashes_not_prefix_append (head : path.head? = some '/')
    (single : ¬['/', '/'] <+: path) : ¬['/', '/'] <+: path ++ Text.lead '?' query? := by
  cases path with
  | nil => cases head
  | cons d rest =>
    cases rest with
    | nil => cases query? <;> simp
    | cons e rest => simpa using single

theorem ofPart_of_single_slash (head : part.head? = some '/') (single : ¬['/', '/'] <+: part) :
    ofPart scheme part fragment? =
      .hierarchical scheme none (Text.cut '?' part).1 (Text.cut '?' part).2 fragment? := by
  unfold ofPart
  split
  next rest => exact absurd ⟨rest, rfl⟩ single
  next => rfl
  next hne =>
    cases part with
    | nil => cases head
    | cons d rest => exact absurd (congrArg (· :: rest) (Option.some.inj head)) (hne rest)

theorem ofPart_withoutAuthority (head : path.head? = some '/') (single : ¬['/', '/'] <+: path)
    (free : '?' ∉ path) :
    ofPart scheme (path ++ Text.lead '?' query?) fragment? =
      .hierarchical scheme none path query? fragment? := by
  have hhead : (path ++ Text.lead '?' query?).head? = some '/' := by simp [head]
  rw [ofPart_of_single_slash hhead (slashes_not_prefix_append head single),
    Text.cut_append_lead_of_not_mem free]

theorem ofText_withQuery {query : Text}
    (colon : ':' ∉ (Components.relative path (some query) fragment?).text) (mark : '?' ∉ path)
    (free : '#' ∉ query) :
    ofText (Components.relative path (some query) fragment?).text =
      .relative path (some query) fragment? := by
  have htext : (Components.relative path (some query) fragment?).text =
      path ++ '?' :: (query ++ Text.lead '#' fragment?) := by
    simp [text, scheme?, schemeSpecificPart, Components.fragment?]
  rw [htext] at colon ⊢
  simp only [ofText, Text.cut_of_not_mem colon, Text.cut_append_cons mark,
    Text.cut_append_lead_of_not_mem free]

theorem ofText_withoutQuery
    (colon : ':' ∉ (Components.relative path none fragment?).text) (mark : '?' ∉ path)
    (free : '#' ∉ path) (fragment_free : ∀ fragment, fragment? = some fragment → '?' ∉ fragment) :
    ofText (Components.relative path none fragment?).text = .relative path none fragment? := by
  have htext : (Components.relative path none fragment?).text =
      path ++ Text.lead '#' fragment? := by
    simp [text, scheme?, schemeSpecificPart, Components.fragment?]
  have hmark : '?' ∉ path ++ Text.lead '#' fragment? := by
    simp [mark, Text.not_mem_lead (show '?' ≠ '#' by decide) fragment_free]
  rw [htext] at colon ⊢
  simp only [ofText, Text.cut_of_not_mem colon, Text.cut_of_not_mem hmark,
    Text.cut_append_lead_of_not_mem free]

theorem ofText_text (h : c.WellFormed) : ofText c.text = c := by
  cases h with
  | unstructured hs hne hhead hfree =>
    rw [ofText_of_scheme (.unstructured hs hne hhead hfree) rfl]
    exact ofPart_unstructured hhead
  | withAuthority hs ha hhead hp hq hsome =>
    rw [ofText_of_scheme (.withAuthority hs ha hhead hp hq hsome) rfl]
    exact ofPart_withAuthority ha.1 ha.2.1 hhead hp.1
  | withoutAuthority hs hhead hsingle hp hq =>
    rw [ofText_of_scheme (.withoutAuthority hs hhead hsingle hp hq) rfl]
    exact ofPart_withoutAuthority hhead hsingle hp.1
  | withQuery hc hp hq => exact ofText_withQuery hc hp hq
  | withoutQuery hc hp hf => exact ofText_withoutQuery hc hp.1 hp.2 hf

theorem fault?_text (h : c.WellFormed) : fault? c.text = none := by
  cases hs : c.scheme? with
  | none =>
    cases h with
    | withQuery hc _ _ => exact fault?_of_not_mem hc
    | withoutQuery hc _ _ => exact fault?_of_not_mem hc
    | _ => cases hs
  | some scheme =>
    have hscheme := h.isScheme hs
    rw [text_of_scheme hs, fault?_eq_none_iff (colon_not_mem_of_isScheme hscheme)
      (h.numberSign_not_mem hs)]
    refine ⟨hscheme, ?_⟩
    cases h with
    | unstructured _ hne hhead _ =>
      refine ⟨hne, ?_⟩
      rintro ⟨rfl, -⟩
      exact hhead rfl
    | withAuthority _ _ _ _ _ hsome =>
      refine ⟨List.cons_ne_nil _ _, ?_⟩
      rintro ⟨hpart, hfragment⟩
      simp only [schemeSpecificPart, List.cons_append, List.cons.injEq, true_and,
        List.append_eq_nil_iff, Text.lead_eq_nil_iff] at hpart
      exact hsome ⟨hpart.1.1, hpart.1.2, hpart.2, hfragment⟩
    | withoutAuthority _ hhead hsingle _ _ =>
      constructor
      · intro hpart
        rw [(List.append_eq_nil_iff.mp hpart).1] at hhead
        cases hhead
      · rintro ⟨hpart, -⟩
        exact slashes_not_prefix_append hhead hsingle ⟨[], hpart.symm⟩
    | _ => cases hs

end Components

variable {c : Components}

/-- The text that well-formed components make up is a URI. Its parts are the encodings of those
components, the path over its own alphabet, and a part is absent where the component is. -/
theorem parse_text (h : c.WellFormed) :
    ∃ u, parse c.text = .ok u ∧
      u.scheme? = c.scheme?.map (encode isUriChar) ∧
      u.authority? = c.authority?.map (encode isUriChar) ∧
      u.path? = c.path?.map (encode isPathChar) ∧
      u.query? = c.query?.map (encode isUriChar) ∧
      u.fragment? = c.fragment?.map (encode isUriChar) ∧
      ∀ scheme part fragment?, c = .unstructured scheme part fragment? →
        u.schemeSpecificPart = encode isUriChar part := by
  obtain ⟨u, hparse, hu⟩ := exists_parse (Components.fault?_text h)
  rw [Components.ofText_text h] at hu
  refine ⟨u, hparse, ?_, ?_, ?_, ?_, ?_, ?_⟩
  · rw [scheme?, hu, Components.scheme?_encode]
  · rw [authority?, hu, Components.authority?_encode]
  · rw [path?, hu, Components.path?_encode]
  · rw [query?, hu, Components.query?_encode]
  · rw [fragment?, hu, Components.fragment?_encode]
  · intro scheme part fragment? hc
    rw [schemeSpecificPart, hu, hc]
    rfl

/-- Delimiters that stand where they delimit nothing. -/
theorem parse_inert_delimiters :
    (Components.hierarchical "a+b".toList (some "é:[@]".toList) "/x:y//[".toList
      (some "q?/:[é".toList) (some "#?".toList)).WellFormed ∧
    ∃ u, parse "a+b://é:[@]/x:y//[?q?/:[é##?".toList = .ok u ∧
      u.scheme? = some "a+b".toList ∧ u.authority? = some "%C3%A9:[@]".toList ∧
        u.path? = some "/x:y//%5B".toList ∧ u.query? = some "q?/:[%C3%A9".toList ∧
          u.fragment? = some "%23?".toList := by
  have h : (Components.hierarchical "a+b".toList (some "é:[@]".toList) "/x:y//[".toList
      (some "q?/:[é".toList) (some "#?".toList)).WellFormed := by
    apply Components.WellFormed.withAuthority
    · decide
    · decide
    · decide
    · decide
    · intro query hq
      cases hq
      decide
    · decide
  obtain ⟨u, hparse, hscheme, hauthority, hpath, hquery, hfragment, -⟩ := parse_text h
  exact ⟨h, u, hparse, hscheme, hauthority, hpath, hquery, hfragment⟩

end LinkTemplate.Uri
