import LinkTemplate.Proofs.Uri.Composition
import LinkTemplate.Proofs.Uri.Encoding

namespace LinkTemplate.Uri

open Percent (escapeSigns isEscapeDigit)

theorem isPathChar_of_isEscapeDigit {c : Char} (h : isEscapeDigit c = true) :
    isPathChar c = true := by
  have hc : c.isAlphanum = true := by
    simp only [isEscapeDigit, Bool.or_eq_true, Bool.and_eq_true, decide_eq_true_eq] at h
    rcases h with hdigit | ⟨hA, hF⟩
    · exact Bool.or_eq_true_iff.mpr (.inr hdigit)
    · have hZ : c ≤ 'Z' := Char.le_trans hF (by decide)
      have hupper : c.isUpper = true := decide_eq_true ⟨hA, hZ⟩
      have halpha : c.isAlpha = true := Bool.or_eq_true_iff.mpr (.inl hupper)
      exact Bool.or_eq_true_iff.mpr (.inl halpha)
  simp [isPathChar, hc]

theorem isUriChar_of_isEscapeDigit {c : Char} (h : isEscapeDigit c = true) : isUriChar c = true :=
  isUriChar_of_isPathChar (isPathChar_of_isEscapeDigit h)

theorem isUriChar_of_isSchemeChar {c : Char} (h : isSchemeChar c = true) : isUriChar c = true := by
  apply isUriChar_of_isPathChar
  simp only [isSchemeChar, Bool.or_eq_true] at h
  rcases h with halnum | hmark
  · simp [isPathChar, halnum]
  · have hc : c = '+' ∨ c = '-' ∨ c = '.' := by simpa using hmark
    rcases hc with rfl | rfl | rfl <;> decide

theorem encode_scheme {scheme : Text} (h : isScheme scheme = true) :
    Percent.encode isUriChar scheme = scheme :=
  Percent.encode_eq_self fun _ hc => isUriChar_of_isSchemeChar (isSchemeChar_of_mem h hc)

theorem numberSign_not_mem_encode (s : Text) : '#' ∉ Percent.encode isUriChar s :=
  Percent.not_mem_encode_of_not_kept (by decide) (by decide) (by decide)

theorem encode_path_free (path : Text) :
    '?' ∉ Percent.encode isPathChar path ∧ '#' ∉ Percent.encode isPathChar path :=
  ⟨Percent.not_mem_encode_of_not_kept (by decide) (by decide) (by decide),
    Percent.not_mem_encode_of_not_kept (by decide) (by decide) (by decide)⟩

theorem numberSign_not_mem_map_encode {part? : Option Text} :
    ∀ part, part?.map (Percent.encode isUriChar) = some part → '#' ∉ part := by
  intro part hpart
  obtain ⟨s, -, rfl⟩ := Option.map_eq_some_iff.mp hpart
  exact numberSign_not_mem_encode s

namespace Components

variable {c : Components} {s : Text}

private theorem exists_authority (rest : Text) : ∃ authority path query?,
    rest = authority ++ path ++ Text.lead '?' query? ∧ ('/' ∉ authority ∧ '?' ∉ authority) ∧
      (path = [] ∨ path.head? = some '/') ∧ '?' ∉ path := by
  let inside := fun d : Char => d != '/' && d != '?'
  have hrest : rest.takeWhile inside ++ rest.dropWhile inside = rest :=
    List.takeWhile_append_dropWhile
  have hinside : ∀ d ∈ rest.takeWhile inside, d ≠ '/' ∧ d ≠ '?' := by
    intro d hd
    simpa [inside] using List.mem_takeWhile_imp hd
  obtain ⟨path, query?, hpath, hfree⟩ := Text.exists_eq_append_lead '?' (rest.dropWhile inside)
  refine ⟨rest.takeWhile inside, path, query?, ?_, ?_, ?_, hfree⟩
  · rw [List.append_assoc, ← hpath, hrest]
  · exact ⟨fun h => (hinside _ h).1 rfl, fun h => (hinside _ h).2 rfl⟩
  · cases path with
    | nil => exact .inl rfl
    | cons d path =>
      have hstop := List.head?_dropWhile_not inside rest
      rw [hpath] at hstop
      have hd : d ≠ '?' := fun h => hfree (by simp [h])
      simpa [inside, hd] using hstop

private theorem exists_withAuthority {scheme rest : Text} {fragment? : Option Text}
    (hs : isScheme scheme = true) (hp : '#' ∉ rest) (hsome : ¬(rest = [] ∧ fragment? = none)) :
    ∃ c : Components, c.WellFormed ∧
      c.text = scheme ++ ':' :: '/' :: '/' :: (rest ++ Text.lead '#' fragment?) := by
  obtain ⟨authority, path, query?, rfl, hauthority, hpath, hfree⟩ := exists_authority rest
  obtain ⟨hfront, hquery⟩ := Text.not_mem_of_not_mem_append_lead hp
  simp only [List.mem_append, not_or] at hfront
  refine ⟨.hierarchical scheme (some authority) path query? fragment?, ?_, ?_⟩
  · apply WellFormed.withAuthority hs ⟨hauthority.1, hauthority.2, hfront.1⟩ hpath
      ⟨hfree, hfront.2⟩ hquery
    rintro ⟨rfl, rfl, rfl, hfragment⟩
    exact hsome ⟨rfl, hfragment⟩
  · simp [text, scheme?, schemeSpecificPart, Components.fragment?]

private theorem exists_withoutAuthority {scheme part : Text} {fragment? : Option Text}
    (hs : isScheme scheme = true) (hp : '#' ∉ part) (hhead : part.head? = some '/')
    (hsingle : ¬['/', '/'] <+: part) :
    ∃ c : Components, c.WellFormed ∧
      c.text = scheme ++ ':' :: (part ++ Text.lead '#' fragment?) := by
  obtain ⟨path, query?, rfl, hfree⟩ := Text.exists_eq_append_lead '?' part
  obtain ⟨hfront, hquery⟩ := Text.not_mem_of_not_mem_append_lead hp
  have hpath : path.head? = some '/' := by
    cases path with
    | nil => cases query? <;> simp at hhead
    | cons d path => simpa using hhead
  refine ⟨.hierarchical scheme none path query? fragment?, ?_, ?_⟩
  · apply WellFormed.withoutAuthority hs hpath _ ⟨hfree, hfront⟩ hquery
    exact fun h => hsingle (h.trans (List.prefix_append _ _))
  · simp [text, scheme?, schemeSpecificPart, Components.fragment?]

private theorem exists_withScheme {scheme part : Text} {fragment? : Option Text}
    (hs : isScheme scheme = true) (hp : '#' ∉ part) (hne : part ≠ [])
    (hsome : ¬(part = ['/', '/'] ∧ fragment? = none)) :
    ∃ c : Components, c.WellFormed ∧
      c.text = scheme ++ ':' :: (part ++ Text.lead '#' fragment?) := by
  by_cases hhead : part.head? = some '/'
  · by_cases hslashes : ['/', '/'] <+: part
    · obtain ⟨rest, rfl⟩ := hslashes
      exact exists_withAuthority hs (by simpa using hp) (by simpa using hsome)
    · exact exists_withoutAuthority hs hp hhead hslashes
  · refine ⟨.unstructured scheme part fragment?, .unstructured hs hne hhead hp, ?_⟩
    simp [text, scheme?, schemeSpecificPart, Components.fragment?]

private theorem exists_relative (h : ':' ∉ s) : ∃ c : Components, c.WellFormed ∧ c.text = s := by
  obtain ⟨path, rest?, hs, hpath⟩ := Text.exists_eq_append_lead '?' s
  cases rest? with
  | none =>
    obtain ⟨front, fragment?, rfl, hfront⟩ := Text.exists_eq_append_lead '#' path
    obtain ⟨hmark, hfragment⟩ := Text.not_mem_of_not_mem_append_lead hpath
    have htext : (Components.relative front none fragment?).text = s := by
      simp [text, scheme?, schemeSpecificPart, Components.fragment?, hs]
    exact ⟨_, .withoutQuery (htext ▸ h) ⟨hmark, hfront⟩ hfragment, htext⟩
  | some rest =>
    obtain ⟨query, fragment?, rfl, hquery⟩ := Text.exists_eq_append_lead '#' rest
    have htext : (Components.relative path (some query) fragment?).text = s := by
      simp [text, scheme?, schemeSpecificPart, Components.fragment?, hs]
    exact ⟨_, .withQuery (htext ▸ h) hpath hquery, htext⟩

theorem fault?_eq_none_iff_exists :
    fault? s = none ↔ ∃ c : Components, c.WellFormed ∧ c.text = s := by
  constructor
  · intro h
    obtain ⟨scheme, rest?, rfl, hscheme⟩ := Text.exists_eq_append_lead ':' s
    cases rest? with
    | none => exact exists_relative (by simpa using hscheme)
    | some rest =>
      obtain ⟨part, fragment?, rfl, hpart⟩ := Text.exists_eq_append_lead '#' rest
      rw [Text.lead_some, fault?_eq_none_iff hscheme hpart] at h
      exact exists_withScheme h.1 hpart h.2.1 h.2.2
  · rintro ⟨c, hc, rfl⟩
    exact fault?_text hc

theorem wellFormed_ofText (h : fault? s = none) : (ofText s).WellFormed := by
  obtain ⟨c, hc, rfl⟩ := fault?_eq_none_iff_exists.mp h
  rwa [ofText_text hc]

private theorem slashes_prefix_cons_iff {s : Text} :
    ['/', '/'] <+: '/' :: s ↔ s.head? = some '/' := by
  cases s <;> simp [List.cons_prefix_cons, eq_comm]

private theorem colon_not_mem_encode (h : c.WellFormed) (hs : c.scheme? = none)
    (hc : ':' ∉ c.text) : ':' ∉ c.encode.text := by
  have hpath : ∀ path, c.path? = some path → '?' ∉ path := by
    cases h with
    | withQuery _ hp _ => exact fun _ h => Option.some.inj h ▸ hp
    | withoutQuery _ hp _ => exact fun _ h => Option.some.inj h ▸ hp.1
    | _ => cases hs
  intro hm
  rcases (written_encode hpath).mem hm with ⟨hm, -⟩ | hescape
  · exact hc hm
  · exact absurd hescape (by decide)

/-- Encoded components can be told apart where the raw ones can. -/
theorem WellFormed.encode (h : c.WellFormed) : c.encode.WellFormed := by
  have hslash {keep : Char → Bool} (hk : keep '/' = true) (s : Text) :
      (Percent.encode keep s).head? = some '/' ↔ s.head? = some '/' :=
    Percent.head?_encode_eq_some_iff hk (by decide)
  cases h with
  | unstructured hs hne hhead _ =>
    apply WellFormed.unstructured
    · rwa [encode_scheme hs]
    · simpa using hne
    · rwa [ne_eq, hslash (by decide)]
    · exact numberSign_not_mem_encode _
  | @withAuthority _ authority path query? fragment? hs ha hhead _ _ hsome =>
    apply WellFormed.withAuthority
    · rwa [encode_scheme hs]
    · exact ⟨Percent.not_mem_encode_of_not_mem (by decide) (by decide) ha.1,
        Percent.not_mem_encode_of_not_mem (by decide) (by decide) ha.2.1,
        numberSign_not_mem_encode _⟩
    · rwa [Percent.encode_eq_nil_iff, hslash (by decide)]
    · exact encode_path_free _
    · exact numberSign_not_mem_map_encode
    · simpa using hsome
  | @withoutAuthority _ path _ _ hs hhead hsingle _ _ =>
    apply WellFormed.withoutAuthority
    · rwa [encode_scheme hs]
    · rwa [hslash (by decide)]
    · cases path with
      | nil => cases hhead
      | cons d path =>
        obtain rfl : d = '/' := Option.some.inj hhead
        rw [slashes_prefix_cons_iff] at hsingle
        change ¬['/', '/'] <+: '/' :: Percent.encode isPathChar path
        rwa [slashes_prefix_cons_iff, hslash (by decide)]
    · exact encode_path_free _
    · exact numberSign_not_mem_map_encode
  | withQuery hc hp hq =>
    apply WellFormed.withQuery
    · exact colon_not_mem_encode (.withQuery hc hp hq) rfl hc
    · exact (encode_path_free _).1
    · exact numberSign_not_mem_encode _
  | withoutQuery hc hp hf =>
    apply WellFormed.withoutQuery
    · exact colon_not_mem_encode (.withoutQuery hc hp hf) rfl hc
    · exact encode_path_free _
    · intro fragment hfragment
      obtain ⟨s, hs, rfl⟩ := Option.map_eq_some_iff.mp hfragment
      exact Percent.not_mem_encode_of_not_mem (by decide) (by decide) (hf s hs)

end Components

variable {s : Text} {u v : Uri}

theorem wellFormed_components (u : Uri) : u.components.WellFormed := by
  obtain ⟨components, s, hs, rfl⟩ := u
  exact (Components.wellFormed_ofText hs).encode

theorem fault?_text_eq_none (u : Uri) : fault? u.text = none :=
  Components.fault?_text u.wellFormed_components

theorem ofText_text (u : Uri) : Components.ofText u.text = u.components :=
  Components.ofText_text u.wellFormed_components

theorem eq_of_text_eq (h : u.text = v.text) : u = v := by
  apply ext_components
  rw [← ofText_text u, ← ofText_text v, h]

namespace Components

/-- The components with every part changed in the same way. -/
def mapParts (f : Text → Text) : Components → Components
  | .unstructured scheme part fragment? => .unstructured (f scheme) (f part) (fragment?.map f)
  | .hierarchical scheme authority? path query? fragment? =>
    .hierarchical (f scheme) (authority?.map f) (f path) (query?.map f) (fragment?.map f)
  | .relative path query? fragment? => .relative (f path) (query?.map f) (fragment?.map f)

variable (f : Text → Text) (c : Components)

@[simp] theorem scheme?_mapParts : (c.mapParts f).scheme? = c.scheme?.map f := by
  cases c <;> rfl

@[simp] theorem authority?_mapParts : (c.mapParts f).authority? = c.authority?.map f := by
  cases c <;> rfl

@[simp] theorem path?_mapParts : (c.mapParts f).path? = c.path?.map f := by
  cases c <;> rfl

@[simp] theorem query?_mapParts : (c.mapParts f).query? = c.query?.map f := by
  cases c <;> rfl

@[simp] theorem fragment?_mapParts : (c.mapParts f).fragment? = c.fragment?.map f := by
  cases c <;> rfl

private theorem escapeSigns_lead {d : Char} (hd : d ≠ '%') (part? : Option Text) :
    escapeSigns (Text.lead d part?) = Text.lead d (part?.map escapeSigns) := by
  cases part? <;> simp [hd]

theorem schemeSpecificPart_mapParts_escapeSigns :
    (c.mapParts escapeSigns).schemeSpecificPart = escapeSigns c.schemeSpecificPart := by
  have hquery := escapeSigns_lead (d := '?') (by decide)
  match c with
  | .unstructured _ _ _ => rfl
  | .hierarchical _ none _ query? _ => simp [mapParts, schemeSpecificPart, hquery]
  | .hierarchical _ (some _) _ query? _ => simp [mapParts, schemeSpecificPart, hquery]
  | .relative _ query? _ => simp [mapParts, schemeSpecificPart, hquery]

theorem text_mapParts_escapeSigns : (c.mapParts escapeSigns).text = escapeSigns c.text := by
  have hfragment := escapeSigns_lead (d := '#') (by decide) c.fragment?
  cases hs : c.scheme? <;>
    simp [text, hs, schemeSpecificPart_mapParts_escapeSigns, hfragment]

theorem encode_encode : c.encode.encode = c.encode.mapParts escapeSigns := by
  have hpath (s : Text) : Percent.encode isPathChar (Percent.encode isPathChar s) =
      escapeSigns (Percent.encode isPathChar s) :=
    Percent.encode_encode (by decide) (fun _ => isPathChar_of_isEscapeDigit) s
  have huri (s : Text) : Percent.encode isUriChar (Percent.encode isUriChar s) =
      escapeSigns (Percent.encode isUriChar s) :=
    Percent.encode_encode (by decide) (fun _ => isUriChar_of_isEscapeDigit) s
  have hpart (part? : Option Text) :
      (part?.map (Percent.encode isUriChar)).map (Percent.encode isUriChar) =
        (part?.map (Percent.encode isUriChar)).map escapeSigns := by
    cases part? <;> simp [huri]
  cases c <;> simp only [encode, mapParts, hpath, huri, hpart]

end Components

/-- The text of a URI is a URI again. A component is there if it was before, with its percent signs
escaped once more, and so are those of the text and of the part between scheme and fragment. Without
percent signs it is the same URI. -/
theorem parse_text_of_parse (h : parse s = .ok u) :
    ∃ v, parse u.text = .ok v ∧
      v.scheme? = u.scheme?.map escapeSigns ∧
      v.authority? = u.authority?.map escapeSigns ∧
      v.path? = u.path?.map escapeSigns ∧
      v.query? = u.query?.map escapeSigns ∧
      v.fragment? = u.fragment?.map escapeSigns ∧
      v.schemeSpecificPart = escapeSigns u.schemeSpecificPart ∧
      v.text = escapeSigns u.text ∧ ('%' ∉ u.text → v = u) := by
  obtain ⟨v, hparse, hv⟩ := exists_parse u.fault?_text_eq_none
  have hcomponents : v.components = u.components.mapParts escapeSigns := by
    rw [hv, ofText_text, (parse_eq_ok_iff.mp h).2, Components.encode_encode]
  have htext : v.text = escapeSigns u.text := by
    rw [text, hcomponents, Components.text_mapParts_escapeSigns]
    rfl
  refine ⟨v, hparse, ?_, ?_, ?_, ?_, ?_, ?_, htext, ?_⟩
  · rw [scheme?, hcomponents, Components.scheme?_mapParts, scheme?]
  · rw [authority?, hcomponents, Components.authority?_mapParts, authority?]
  · rw [path?, hcomponents, Components.path?_mapParts, path?]
  · rw [query?, hcomponents, Components.query?_mapParts, query?]
  · rw [fragment?, hcomponents, Components.fragment?_mapParts, fragment?]
  · rw [schemeSpecificPart, hcomponents, Components.schemeSpecificPart_mapParts_escapeSigns,
      schemeSpecificPart]
  · intro hsign
    apply eq_of_text_eq
    rw [htext, Percent.escapeSigns_eq_self hsign]

/-- A number sign before the question mark is escaped first, and then its escape is. -/
theorem parse_text_number_sign : ∃ u v, parse "/a#é?[%#".toList = .ok u ∧
    parse u.text = .ok v ∧ u.text = "/a%23%C3%A9?[%25#".toList ∧
      v.text = "/a%2523%25C3%25A9?[%2525#".toList ∧ v.path? = some "/a%2523%25C3%25A9".toList ∧
        v.query? = some "[%2525".toList ∧ v.fragment? = some [] := by
  obtain ⟨v, hparse, -, -, hpath, hquery, hfragment, -, htext, -⟩ := @parse_text_of_parse
    "/a#é?[%#".toList ⟨(Components.ofText "/a#é?[%#".toList).encode, _, by decide, rfl⟩ rfl
  exact ⟨_, v, rfl, hparse, rfl, htext, hpath, hquery, hfragment⟩

end LinkTemplate.Uri
