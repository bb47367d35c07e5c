import LinkTemplate.Proofs.Uri.Reading

/-! # What the text of a URI keeps -/

namespace LinkTemplate

namespace Percent

/-- A part decoded and put between its delimiters; nothing for an absent part. -/
def decodePart? (front back : Text) : Option Text → Option Text
  | none => some []
  | some part => (decode part).map fun s => front ++ (s ++ back)

theorem decodePart?_map_encode {keep : Char → Bool} (hk : keep '%' = false) (front back : Text)
    (part? : Option Text) :
    decodePart? front back (part?.map (encode keep)) =
      some ((part?.map fun s => front ++ (s ++ back)).getD []) := by
  cases part? with
  | none => rfl
  | some part => simp [decodePart?, decode_encode hk]

/-- Every percent sign of a text is followed by two upper-case hexadecimal digits. -/
def WholeEscapes (s : Text) : Prop :=
  ∀ rest, '%' :: rest <:+ s → ∃ high low back, rest = high :: low :: back ∧
    isEscapeDigit high = true ∧ isEscapeDigit low = true

theorem WholeEscapes.cons {c : Char} {s : Text} (h : WholeEscapes s) (hc : c ≠ '%') :
    WholeEscapes (c :: s) := by
  intro rest hrest
  rcases List.suffix_cons_iff.mp hrest with heq | hrest
  · exact absurd (List.cons.inj heq).1.symm hc
  · exact h rest hrest

theorem WholeEscapes.escapeByte_append {s : Text} (h : WholeEscapes s) (b : UInt8) :
    WholeEscapes (escapeByte b ++ s) := by
  have hne {c : Char} (hc : isEscapeDigit c = true) : c ≠ '%' := by
    rintro rfl
    exact absurd hc (by decide)
  have hdigits := (h.cons (hne (isEscapeDigit_low b))).cons (hne (isEscapeDigit_high b))
  intro rest hrest
  rcases List.suffix_cons_iff.mp hrest with heq | hrest
  · exact ⟨_, _, s, (List.cons.inj heq).2, isEscapeDigit_high b, isEscapeDigit_low b⟩
  · exact hdigits rest hrest

theorem WholeEscapes.encodeChar_append {keep : Char → Bool} {s : Text} (h : WholeEscapes s)
    (hk : keep '%' = false) (c : Char) : WholeEscapes (encodeChar keep c ++ s) := by
  unfold encodeChar
  split
  next hc =>
    apply h.cons
    rintro rfl
    simp [hk] at hc
  next =>
    induction String.utf8EncodeChar c with
    | nil => exact h
    | cons b bs ih =>
      rw [List.flatMap_cons, List.append_assoc]
      exact ih.escapeByte_append b

end Percent

namespace Uri

open Percent (WholeEscapes decode encode decodePart? decodePart?_map_encode)

/-- The part between scheme and fragment, decoded: as a whole if the URI is opaque, and otherwise
authority, path and query each on their own, with their delimiters. -/
def decodedPart? (u : Uri) : Option Text :=
  if u.isOpaque then decode u.schemeSpecificPart
  else do
    let authority ← decodePart? "//".toList [] u.authority?
    let path ← decodePart? [] [] u.path?
    let query ← decodePart? "?".toList [] u.query?
    return authority ++ (path ++ query)

/-- The parts of a URI, each of them decoded, with their delimiters. -/
def decodedText? (u : Uri) : Option Text := do
  let scheme ← decodePart? [] ":".toList u.scheme?
  let part ← u.decodedPart?
  let fragment ← decodePart? "#".toList [] u.fragment?
  return scheme ++ (part ++ fragment)

@[simp] theorem isPathChar_percent : isPathChar '%' = false := by decide

@[simp] theorem isUriChar_percent : isUriChar '%' = false := by decide

variable {u v : Uri} {s t : Text}

theorem decodedPart?_of_components {c : Components} (h : u.components = c.encode) :
    u.decodedPart? = some c.schemeSpecificPart := by
  have ho : u.isOpaque = (c.scheme?.isSome && c.path?.isNone) := by
    simp [isOpaque, isAbsolute, scheme?, path?, h]
  rw [decodedPart?, ho, schemeSpecificPart, authority?, path?, query?, h,
    Components.authority?_encode, Components.path?_encode, Components.query?_encode,
    decodePart?_map_encode isUriChar_percent, decodePart?_map_encode isPathChar_percent,
    decodePart?_map_encode isUriChar_percent]
  cases c with
  | unstructured scheme part fragment => exact Percent.decode_encode isUriChar_percent part
  | hierarchical scheme authority path query fragment =>
    cases authority <;>
      simp [Components.schemeSpecificPart, Components.path?, Components.query?,
        Components.authority?]
  | relative path query fragment =>
    simp [Components.schemeSpecificPart, Components.scheme?, Components.path?, Components.query?,
      Components.authority?]

theorem decodedText?_of_components {c : Components} (h : u.components = c.encode) :
    u.decodedText? = some c.text := by
  rw [decodedText?, decodedPart?_of_components h, scheme?, fragment?, h,
    Components.scheme?_encode, Components.fragment?_encode,
    decodePart?_map_encode isUriChar_percent, decodePart?_map_encode isUriChar_percent]
  cases hs : c.scheme? <;> simp [Components.text, hs]

theorem components_of_parse (h : parse s = .ok u) : u.components = (Components.ofText s).encode :=
  (parse_eq_ok_iff.mp h).2

theorem decode_text_of_parse (h : parse s = .ok u) : decode u.text = some s := by
  rw [text_of_parse h]
  exact (written_encodeText s).decode

theorem text_eq_iff_of_parse (hu : parse s = .ok u) (hv : parse t = .ok v) :
    u.text = v.text ↔ s = t := by
  constructor
  · intro h
    have hd := decode_text_of_parse hu
    rw [h, decode_text_of_parse hv] at hd
    exact (Option.some.inj hd).symm
  · intro h
    rw [text_of_parse hu, text_of_parse hv, h]

theorem eq_iff_of_parse (hu : parse s = .ok u) (hv : parse t = .ok v) : u = v ↔ s = t := by
  constructor
  · intro h
    exact (text_eq_iff_of_parse hu hv).mp (congrArg text h)
  · intro h
    rw [h, hv] at hu
    exact (Except.ok.inj hu).symm

/-- The text of a URI decodes to the text it was read from, and so do its parts, put together with
their delimiters. So two URIs have the same parts only if they were read from the same text, and
already if their texts are the same. Any text, with or without fault, can be decoded from its
encoded form. -/
theorem parse_lossless (hu : parse s = .ok u) (hv : parse t = .ok v) :
    decode u.text = some s ∧ u.decodedText? = some s ∧
      ((u.text = v.text ∧ u.scheme? = v.scheme? ∧ u.schemeSpecificPart = v.schemeSpecificPart ∧
        u.authority? = v.authority? ∧ u.path? = v.path? ∧ u.query? = v.query? ∧
          u.fragment? = v.fragment?) ↔ s = t) ∧
      (u.text = v.text ↔ s = t) ∧ (u = v ↔ s = t) ∧
        ∀ r, decode (encodeText r) = some r := by
  refine ⟨decode_text_of_parse hu, ?_, ?_, text_eq_iff_of_parse hu hv, eq_iff_of_parse hu hv, ?_⟩
  · rw [decodedText?_of_components (components_of_parse hu), Components.text_ofText]
  · constructor
    · intro h
      exact (text_eq_iff_of_parse hu hv).mp h.1
    · intro h
      rw [(eq_iff_of_parse hu hv).mpr h]
      simp
  · intro r
    exact (written_encodeText r).decode

/-- A fragment that is there and empty is not the same as none. -/
theorem parse_empty_fragment : ∃ u v, parse "s://é?%41".toList = .ok u ∧
    parse "s://é?%41#".toList = .ok v ∧ decode u.text = some "s://é?%41".toList ∧
      u.decodedText? = some "s://é?%41".toList ∧ u ≠ v := by
  refine ⟨⟨(Components.ofText "s://é?%41".toList).encode, _, by decide, rfl⟩,
    ⟨(Components.ofText "s://é?%41#".toList).encode, _, by decide, rfl⟩, rfl, rfl, ?_⟩
  obtain ⟨htext, hparts, -, -, heq, -⟩ := @parse_lossless
    ⟨(Components.ofText "s://é?%41".toList).encode, _, by decide, rfl⟩
    ⟨(Components.ofText "s://é?%41#".toList).encode, _, by decide, rfl⟩
    "s://é?%41".toList "s://é?%41#".toList rfl rfl
  exact ⟨htext, hparts, fun h => absurd (heq.mp h) (by decide)⟩

theorem Written.wholeEscapes {s u : Text} (h : Written s u) : WholeEscapes u := by
  induction h with
  | nil =>
    intro rest hrest
    simp at hrest
  | encoded c _ ih => exact ih.encodeChar_append isKeptChar_percent c
  | mark hc _ ih => exact ih.cons (ne_percent_of_isMark hc)

/-- The characters of URIs besides letters and digits. -/
def punctuation : Text := "-_.!~*'();:@&=+$,/?[]#%".toList

private theorem toNat_of_isAlphanum {c : Char} (h : c.isAlphanum = true) :
    48 ≤ c.toNat ∧ c.toNat ≤ 122 := by
  have bounds {low high : UInt32} (hlow : low ≤ c.val) (hhigh : c.val ≤ high) :
      low.toNat ≤ c.toNat ∧ c.toNat ≤ high.toNat :=
    ⟨UInt32.le_iff_toNat_le.mp hlow, UInt32.le_iff_toNat_le.mp hhigh⟩
  rcases Bool.or_eq_true_iff.mp h with halpha | hdigit
  · rcases Bool.or_eq_true_iff.mp halpha with hupper | hlower
    · obtain ⟨hA, hZ⟩ := of_decide_eq_true hupper
      have hc : 65 ≤ c.toNat ∧ c.toNat ≤ 90 := bounds hA hZ
      omega
    · obtain ⟨ha, hz⟩ := Bool.and_eq_true_iff.mp hlower
      have hc : 97 ≤ c.toNat ∧ c.toNat ≤ 122 :=
        bounds (of_decide_eq_true ha) (of_decide_eq_true hz)
      omega
  · obtain ⟨h0, h9⟩ := Bool.and_eq_true_iff.mp hdigit
    have hc : 48 ≤ c.toNat ∧ c.toNat ≤ 57 :=
      bounds (of_decide_eq_true h0) (of_decide_eq_true h9)
    omega

private theorem of_mem_punctuation {p : Char → Bool} (h : punctuation.all p = true) {c : Char}
    (hc : c ∈ punctuation) : p c = true :=
  List.all_eq_true.mp h c hc

private theorem toNat_lt {c : Char} (h : c.isAlphanum = true ∨ c ∈ punctuation) :
    c.toNat < 128 := by
  rcases h with h | h
  · have hc := toNat_of_isAlphanum h
    omega
  · simpa using of_mem_punctuation (p := fun c => c.toNat < 128) (by decide) h

private theorem jsonChar_eq {c : Char} (h : c.isAlphanum = true ∨ c ∈ punctuation) :
    Text.jsonChar c = [c] := by
  rcases h with h | h
  · have hc := toNat_of_isAlphanum h
    have hne {d : Char} (hd : d.toNat < 48 ∨ 122 < d.toNat ∨ d.isAlphanum = false) : c ≠ d := by
      rintro rfl
      simp [h] at hd
      omega
    have hcontrol : ¬c.toNat < 32 := by omega
    simp [Text.jsonChar, hne, hcontrol]
  · simpa using of_mem_punctuation (p := fun c => Text.jsonChar c == [c]) (by decide) h

private theorem alphabet_of_isPathChar {c : Char} (h : isPathChar c = true) :
    c.isAlphanum = true ∨ c ∈ punctuation := by
  rw [isPathChar, Bool.or_eq_true, List.contains_iff_mem] at h
  exact h.imp_right (List.mem_append_left "?[]#%".toList)

private theorem alphabet_of_written {s u : Text} (h : Written s u) :
    ∀ c ∈ u, c.isAlphanum = true ∨ c ∈ punctuation := by
  intro c hc
  rcases h.mem hc with ⟨-, hkept | hmark⟩ | rfl | hdigit
  · rw [isKeptChar, Bool.or_eq_true, beq_iff_eq] at hkept
    rcases hkept with hpath | rfl
    · exact alphabet_of_isPathChar hpath
    · exact .inr (by decide)
  · rcases isMark_iff.mp hmark with rfl | rfl | rfl <;> exact .inr (by decide)
  · exact .inr (by decide)
  · exact alphabet_of_isPathChar (isPathChar_of_isEscapeDigit hdigit)

namespace Components

variable (c : Components)

private theorem numberSign_not_mem_schemeSpecificPart :
    '#' ∉ c.encode.schemeSpecificPart := by
  have hquery (query? : Option Text) :
      '#' ∉ Text.lead '?' (query?.map (Percent.encode isUriChar)) :=
    Text.not_mem_lead (by decide) numberSign_not_mem_map_encode
  match c with
  | .unstructured _ _ _ => exact numberSign_not_mem_encode _
  | .hierarchical _ none _ _ _ => simp [encode, schemeSpecificPart, hquery, encode_path_free]
  | .hierarchical _ (some _) _ _ _ =>
    simp [encode, schemeSpecificPart, hquery, encode_path_free, numberSign_not_mem_encode]
  | .relative _ _ _ => simp [encode, schemeSpecificPart, hquery, encode_path_free]

theorem text_eq : c.text = (c.scheme?.elim [] fun scheme => scheme ++ [':']) ++
    c.schemeSpecificPart ++ Text.lead '#' c.fragment? := by
  cases c <;> rfl

private theorem count_numberSign_encode :
    c.encode.text.count '#' = if c.encode.fragment?.isSome then 1 else 0 := by
  have hpart := List.count_eq_zero.mpr (numberSign_not_mem_schemeSpecificPart c)
  have hscheme : (c.encode.scheme?.elim [] fun scheme => scheme ++ [':']).count '#' = 0 := by
    rw [List.count_eq_zero, scheme?_encode]
    cases c.scheme? <;> simp [numberSign_not_mem_encode]
  have hfragment : (Text.lead '#' c.encode.fragment?).count '#' =
      if c.encode.fragment?.isSome then 1 else 0 := by
    rw [fragment?_encode]
    cases c.fragment? <;> simp [List.count_eq_zero.mpr (numberSign_not_mem_encode _)]
  rw [text_eq, List.count_append, List.count_append, hpart, hscheme, hfragment, Nat.zero_add]

private theorem path_free_encode {path : Text} (h : c.encode.path? = some path) :
    '?' ∉ path ∧ '[' ∉ path ∧ ']' ∉ path := by
  rw [path?_encode] at h
  obtain ⟨raw, -, rfl⟩ := Option.map_eq_some_iff.mp h
  exact ⟨(encode_path_free raw).1,
    Percent.not_mem_encode_of_not_kept (by decide) (by decide) (by decide),
    Percent.not_mem_encode_of_not_kept (by decide) (by decide) (by decide)⟩

private theorem part_eq {path : Text} (h : c.path? = some path) : c.schemeSpecificPart =
    (c.authority?.elim [] fun authority => "//".toList ++ authority) ++ path ++
      Text.lead '?' c.query? := by
  match c with
  | .unstructured _ _ _ => cases h
  | .hierarchical _ none _ _ _ => cases h; rfl
  | .hierarchical _ (some _) _ _ _ => cases h; rfl
  | .relative _ _ _ => cases h; rfl

variable {c}

private theorem WellFormed.authority_free (h : c.WellFormed) {authority : Text}
    (ha : c.authority? = some authority) : '/' ∉ authority ∧ '?' ∉ authority := by
  cases h with
  | withAuthority _ hfree =>
    cases ha
    exact ⟨hfree.1, hfree.2.1⟩
  | _ => cases ha

private theorem WellFormed.path?_eq_none_iff (h : c.WellFormed) :
    (c.scheme?.isSome = true ∧ c.path? = none) ↔
      c.scheme?.isSome = true ∧ c.schemeSpecificPart.head? ≠ some '/' := by
  cases h with
  | unstructured _ _ hhead => simpa [scheme?, path?, schemeSpecificPart] using hhead
  | withAuthority => simp [path?, schemeSpecificPart]
  | withoutAuthority _ hhead => simp [path?, schemeSpecificPart, hhead]
  | withQuery => simp [scheme?]
  | withoutQuery => simp [scheme?]

private theorem WellFormed.authority_iff (h : c.WellFormed) : c.authority?.isSome = true ↔
    c.scheme?.isSome = true ∧ ['/', '/'] <+: c.schemeSpecificPart := by
  cases h with
  | @unstructured _ part _ _ _ hhead =>
    have hslashes : ¬['/', '/'] <+: part := by
      rintro ⟨rest, rfl⟩
      exact hhead rfl
    simp [authority?, schemeSpecificPart, hslashes]
  | withAuthority => simp [authority?, scheme?, schemeSpecificPart]
  | withoutAuthority _ hhead hsingle =>
    simp [authority?, schemeSpecificPart, slashes_not_prefix_append hhead hsingle]
  | withQuery => simp [authority?, scheme?]
  | withoutQuery => simp [authority?, scheme?]

private theorem absent_of_path?_eq_none (h : c.path? = none) :
    c.authority? = none ∧ c.query? = none := by
  cases c with
  | unstructured => exact ⟨rfl, rfl⟩
  | hierarchical => cases h
  | relative => cases h

end Components

/-- What every URI has in common. -/
structure IsRegular (u : Uri) : Prop where
  ascii : ∀ c ∈ u.text, c.toNat < 128
  alphabet : ∀ c ∈ u.text, c.isAlphanum = true ∨ c ∈ punctuation
  escapes : WholeEscapes u.text
  /-- A number sign stands only before the fragment. -/
  count_numberSign : u.text.count '#' = if u.fragment?.isSome then 1 else 0
  /-- A path holds no question mark, which would end it, and no brackets. -/
  path_free : ∀ path, u.path? = some path → '?' ∉ path ∧ '[' ∉ path ∧ ']' ∉ path
  authority_free : ∀ authority, u.authority? = some authority → '/' ∉ authority ∧ '?' ∉ authority
  /-- The text is the scheme and its colon, what follows them, and the fragment. -/
  text_eq : u.text = (u.scheme?.elim [] fun scheme => scheme ++ [':']) ++ u.schemeSpecificPart ++
    Text.lead '#' u.fragment?
  /-- Where there is a path, authority, path and query make up what follows the scheme. -/
  part_eq : ∀ path, u.path? = some path → u.schemeSpecificPart =
    (u.authority?.elim [] fun authority => "//".toList ++ authority) ++ path ++
      Text.lead '?' u.query?
  isOpaque_iff : u.isOpaque = true ↔
    u.scheme?.isSome = true ∧ u.schemeSpecificPart.head? ≠ some '/'
  absent_of_isOpaque : u.isOpaque = true → u.authority? = none ∧ u.path? = none ∧ u.query? = none
  authority_iff : u.authority?.isSome = true ↔
    u.scheme?.isSome = true ∧ "//".toList <+: u.schemeSpecificPart

theorem isOpaque_eq_true_iff :
    u.isOpaque = true ↔ u.scheme?.isSome = true ∧ u.path? = none := by
  simp [isOpaque, isAbsolute]

theorem json_eq_enquote {s : Text} (h : ∀ c ∈ s, c.isAlphanum = true ∨ c ∈ punctuation) :
    Text.json s = Text.enquote s := by
  have hchars : s.flatMap Text.jsonChar = s := by
    induction s with
    | nil => rfl
    | cons c s ih =>
      rw [List.flatMap_cons, jsonChar_eq (h c List.mem_cons_self),
        ih fun d hd => h d (List.mem_cons_of_mem _ hd), List.singleton_append]
  rw [Text.json, hchars]

/-- A URI that was read from a text is regular, so its JSON form escapes nothing. -/
theorem isRegular_of_parse {s : Text} {u : Uri} (h : parse s = .ok u) :
    u.IsRegular ∧ Text.json u.text = Text.enquote u.text := by
  have hu := (parse_eq_ok_iff.mp h).2
  have hw : Written s u.text := text_of_parse h ▸ written_encodeText s
  have hwell := u.wellFormed_components
  have halphabet := alphabet_of_written hw
  refine ⟨?_, json_eq_enquote halphabet⟩
  constructor
  case ascii => exact fun c hc => toNat_lt (halphabet c hc)
  case alphabet => exact halphabet
  case escapes => exact hw.wholeEscapes
  case count_numberSign =>
    rw [text, fragment?, hu]
    exact Components.count_numberSign_encode _
  case path_free =>
    intro path hpath
    rw [path?, hu] at hpath
    exact Components.path_free_encode _ hpath
  case authority_free => exact fun authority ha => hwell.authority_free ha
  case text_eq => exact u.components.text_eq
  case part_eq => exact fun path hpath => u.components.part_eq hpath
  case isOpaque_iff => exact isOpaque_eq_true_iff.trans hwell.path?_eq_none_iff
  case absent_of_isOpaque =>
    intro ho
    have hpath := (isOpaque_eq_true_iff.mp ho).2
    have habsent := Components.absent_of_path?_eq_none hpath
    exact ⟨habsent.1, hpath, habsent.2⟩
  case authority_iff => exact hwell.authority_iff

theorem isRegular_brackets : ∃ u, parse "s://[é]/a[?]#%#".toList = .ok u ∧
    u.text = "s://[%C3%A9]/a%5B?]#%25%23".toList ∧ u.IsRegular ∧
      Text.json u.text = Text.enquote u.text := by
  obtain ⟨hregular, hjson⟩ := @isRegular_of_parse "s://[é]/a[?]#%#".toList
    ⟨(Components.ofText "s://[é]/a[?]#%#".toList).encode, _, by decide, rfl⟩ rfl
  exact ⟨_, rfl, rfl, hregular, hjson⟩

end Uri

end LinkTemplate
