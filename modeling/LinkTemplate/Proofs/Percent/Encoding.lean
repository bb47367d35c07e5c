import LinkTemplate.Percent

/-! # Escapes in encoded text -/

namespace LinkTemplate.Percent

/-- The digits that escapes are written with. -/
def isEscapeDigit (c : Char) : Bool := c.isDigit || ('A' ≤ c && c ≤ 'F')

theorem isEscapeDigit_hexDigit : ∀ n, n < 16 → isEscapeDigit (hexDigit n) = true := by decide

theorem isEscapeDigit_high (b : UInt8) : isEscapeDigit (hexDigit (b.toNat / 16)) = true := by
  have hb := b.toNat_lt
  exact isEscapeDigit_hexDigit _ (by omega)

theorem isEscapeDigit_low (b : UInt8) : isEscapeDigit (hexDigit (b.toNat % 16)) = true :=
  isEscapeDigit_hexDigit _ (Nat.mod_lt _ (by decide))

theorem eq_of_escapeByte_append {a b : UInt8} {s t : Text}
    (h : escapeByte a ++ s = escapeByte b ++ t) : a = b := by
  have ht := congrArg tokens h
  rw [tokens_escapeByte_append, tokens_escapeByte_append] at ht
  simp only [List.cons.injEq, Token.escape.injEq] at ht
  exact ht.1

theorem mem_escapes {bs : List UInt8} {c : Char} (h : c ∈ bs.flatMap escapeByte) :
    c = '%' ∨ isEscapeDigit c = true := by
  obtain ⟨b, -, hc⟩ := List.mem_flatMap.mp h
  simp only [escapeByte, List.mem_cons, List.not_mem_nil, or_false] at hc
  rcases hc with rfl | rfl | rfl
  · exact .inl rfl
  · exact .inr (isEscapeDigit_high b)
  · exact .inr (isEscapeDigit_low b)

theorem mem_encodeChar {keep : Char → Bool} {c d : Char} (h : d ∈ encodeChar keep c) :
    (d = c ∧ keep c = true) ∨ d = '%' ∨ isEscapeDigit d = true := by
  unfold encodeChar at h
  split at h
  next hk => exact .inl ⟨List.mem_singleton.mp h, hk⟩
  next => exact .inr (mem_escapes h)

theorem encodeChar_ne_nil (keep : Char → Bool) (c : Char) : encodeChar keep c ≠ [] := by
  unfold encodeChar
  split
  · exact List.cons_ne_nil _ _
  · intro h
    have hne := String.utf8EncodeChar_ne_nil (c := c)
    cases hb : String.utf8EncodeChar c with
    | nil => exact hne hb
    | cons b bs => simp [hb, escapeByte] at h

theorem bytes_cons_of_ne {c : Char} (h : c ≠ '%') (s : Text) :
    bytes (c :: s) = String.utf8EncodeChar c ++ bytes s := by
  rw [bytes, tokens_cons_of_ne h, List.flatMap_cons]
  rfl

theorem bytes_escapes_append (bs : List UInt8) (s : Text) :
    bytes (bs.flatMap escapeByte ++ s) = bs ++ bytes s := by
  induction bs with
  | nil => rfl
  | cons b bs ih =>
    rw [List.flatMap_cons, List.append_assoc, bytes, tokens_escapeByte_append, List.flatMap_cons,
      ← bytes, ih]
    rfl

theorem bytes_encodeChar_append {keep : Char → Bool} (hk : keep '%' = false) (c : Char) (s : Text) :
    bytes (encodeChar keep c ++ s) = String.utf8EncodeChar c ++ bytes s := by
  unfold encodeChar
  split
  next h =>
    have hc : c ≠ '%' := by
      rintro rfl
      rw [hk] at h
      exact Bool.false_ne_true h
    exact bytes_cons_of_ne hc s
  next => exact bytes_escapes_append _ s

theorem bytes_encode_append {keep : Char → Bool} (hk : keep '%' = false) (s t : Text) :
    bytes (encode keep s ++ t) = s.flatMap String.utf8EncodeChar ++ bytes t := by
  induction s with
  | nil => rfl
  | cons c s ih =>
    rw [encode_cons, List.append_assoc, bytes_encodeChar_append hk, ih, List.flatMap_cons,
      List.append_assoc]

theorem decode_encode {keep : Char → Bool} (hk : keep '%' = false) (s : Text) :
    decode (encode keep s) = some s := by
  have hb := bytes_encode_append hk s []
  rw [List.append_nil, show bytes [] = [] from rfl, List.append_nil] at hb
  rw [decode, hb, ofUtf8?_flatMap]

theorem eq_of_utf8EncodeChar_append {c d : Char} {xs ys : List UInt8}
    (h : String.utf8EncodeChar c ++ xs = String.utf8EncodeChar d ++ ys) : c = d := by
  have hb := congrArg (fun bs : List UInt8 => bs.toByteArray.utf8DecodeChar? 0) h
  simp only [List.toByteArray_append, ByteArray.utf8DecodeChar?_utf8EncodeChar_append,
    Option.some.injEq] at hb
  exact hb

/-- Of the bytes of a character only the first one can start a character. -/
theorem isUTF8FirstByte_iff {c : Char} {xs ys : List UInt8} {b : UInt8}
    (h : String.utf8EncodeChar c = xs ++ b :: ys) : b.IsUTF8FirstByte ↔ xs = [] := by
  have hlt : xs.length < (String.utf8EncodeChar c).length := by simp [h]
  have hb : (String.utf8EncodeChar c)[xs.length] = b := by simp [h]
  rw [← hb, UInt8.isUTF8FirstByte_getElem_utf8EncodeChar, List.length_eq_zero_iff]

theorem isUTF8FirstByte_of_eq_cons {c : Char} {b : UInt8} {bs : List UInt8}
    (h : String.utf8EncodeChar c = b :: bs) : b.IsUTF8FirstByte := by
  rw [isUTF8FirstByte_iff (h.trans (List.nil_append _).symm)]

/-- A text that can stand after a cut inside of an encoded character: it starts with a digit of an
escape, or with the escape of a byte that starts no character. -/
def IsInner (s : Text) : Prop :=
  (∃ d t, s = d :: t ∧ isEscapeDigit d = true) ∨
    ∃ b t, s = escapeByte b ++ t ∧ ¬b.IsUTF8FirstByte

private theorem cut_escapes {bs : List UInt8} {s a b : Text}
    (h : bs.flatMap escapeByte ++ s = a ++ b) (hl : a.length < (bs.flatMap escapeByte).length) :
    (∃ d t, b = d :: t ∧ isEscapeDigit d = true) ∨
      ∃ done c rest, bs = done ++ c :: rest ∧ a = done.flatMap escapeByte ∧
        b = escapeByte c ++ (rest.flatMap escapeByte ++ s) := by
  induction bs generalizing a with
  | nil => simp at hl
  | cons c bs ih =>
    rw [List.flatMap_cons, List.append_assoc] at h
    match a with
    | [] => exact .inr ⟨[], c, bs, rfl, rfl, h.symm⟩
    | [x] =>
      left
      simp only [escapeByte, List.cons_append, List.nil_append, List.cons.injEq] at h
      exact ⟨_, _, h.2.symm, isEscapeDigit_high c⟩
    | [x, y] =>
      left
      simp only [escapeByte, List.cons_append, List.nil_append, List.cons.injEq] at h
      exact ⟨_, _, h.2.2.symm, isEscapeDigit_low c⟩
    | x :: y :: z :: a =>
      simp only [escapeByte, List.cons_append, List.nil_append, List.cons.injEq] at h
      obtain ⟨rfl, rfl, rfl, h⟩ := h
      have hl' : a.length < (bs.flatMap escapeByte).length := by
        simp only [List.flatMap_cons, escapeByte, List.length_append, List.length_cons,
          List.length_nil] at hl
        omega
      rcases ih h hl' with hd | ⟨done, e, rest, rfl, rfl, hb⟩
      · exact .inl hd
      · exact .inr ⟨c :: done, e, rest, rfl, rfl, hb⟩

theorem isInner_of_encodeChar {keep : Char → Bool} {c : Char} {s a b : Text}
    (h : encodeChar keep c ++ s = a ++ b) (ha : a ≠ [])
    (hl : a.length < (encodeChar keep c).length) : IsInner b := by
  unfold encodeChar at h hl
  split at h
  next hk =>
    have := List.length_pos_iff.mpr ha
    simp only [hk, if_true, List.length_singleton] at hl
    omega
  next hk =>
    rw [if_neg hk] at hl
    rcases cut_escapes h hl with hd | ⟨done, e, rest, hbs, rfl, hb⟩
    · exact .inl hd
    · refine .inr ⟨e, _, hb, ?_⟩
      rw [isUTF8FirstByte_iff hbs]
      rintro rfl
      exact ha rfl

theorem not_isInner_nil : ¬IsInner [] := by
  rintro (⟨d, t, h, -⟩ | ⟨b, t, h, -⟩)
  · exact List.cons_ne_nil _ _ h.symm
  · simp [escapeByte] at h

theorem not_isInner_encodeChar_append {keep : Char → Bool} {c : Char} (hk : keep '%' = false)
    (hc : isEscapeDigit c = false) (s : Text) : ¬IsInner (encodeChar keep c ++ s) := by
  unfold encodeChar
  split
  next h =>
    rintro (⟨d, t, ht, hd⟩ | ⟨b, t, ht, -⟩)
    · simp only [List.cons_append, List.nil_append, List.cons.injEq] at ht
      rw [ht.1, hd] at hc
      exact Bool.false_ne_true hc.symm
    · simp only [escapeByte, List.cons_append, List.nil_append, List.cons.injEq] at ht
      rw [ht.1, hk] at h
      exact Bool.false_ne_true h
  next =>
    cases hbs : String.utf8EncodeChar c with
    | nil => exact absurd hbs String.utf8EncodeChar_ne_nil
    | cons e es =>
      rw [List.flatMap_cons, List.append_assoc]
      rintro (⟨d, t, ht, hd⟩ | ⟨b, t, ht, hb⟩)
      · simp only [escapeByte, List.cons_append, List.cons.injEq] at ht
        rw [← ht.1] at hd
        exact absurd hd (by decide)
      · rw [← eq_of_escapeByte_append ht] at hb
        exact hb (isUTF8FirstByte_of_eq_cons hbs)

variable {keep : Char → Bool} {d : Char} {s t : Text}

theorem mem_encode (h : d ∈ encode keep s) :
    (d ∈ s ∧ keep d = true) ∨ d = '%' ∨ isEscapeDigit d = true := by
  obtain ⟨c, hc, hd⟩ := List.mem_flatMap.mp h
  apply (mem_encodeChar hd).imp_left
  rintro ⟨rfl, hk⟩
  exact ⟨hc, hk⟩

theorem kept_of_mem_encode (hp : d ≠ '%') (hd : isEscapeDigit d = false) (h : d ∈ encode keep s) :
    d ∈ s ∧ keep d = true := by
  simpa [hp, hd] using mem_encode h

theorem not_mem_encode_of_not_mem (hp : d ≠ '%') (hd : isEscapeDigit d = false) (h : d ∉ s) :
    d ∉ encode keep s :=
  fun hm => h (kept_of_mem_encode hp hd hm).1

theorem not_mem_encode_of_not_kept (hp : d ≠ '%') (hd : isEscapeDigit d = false)
    (h : keep d = false) : d ∉ encode keep s := by
  intro hm
  simp [(kept_of_mem_encode hp hd hm).2] at h

@[simp] theorem encode_eq_nil_iff : encode keep s = [] ↔ s = [] := by
  cases s with
  | nil => simp
  | cons c s => simp [encodeChar_ne_nil]

theorem head?_encode (keep : Char → Bool) (s : Text) :
    (encode keep s).head? = s.head?.map fun c => if keep c then c else '%' := by
  cases s with
  | nil => rfl
  | cons c s =>
    cases hb : String.utf8EncodeChar c with
    | nil => exact absurd hb String.utf8EncodeChar_ne_nil
    | cons b bs => cases hk : keep c <;> simp [encodeChar, hk, hb, escapeByte]

theorem head?_encode_eq_some_iff (hk : keep d = true) (hp : d ≠ '%') :
    (encode keep s).head? = some d ↔ s.head? = some d := by
  rw [head?_encode]
  cases s with
  | nil => simp
  | cons c s =>
    by_cases hc : keep c = true
    · simp [hc]
    · have hne : c ≠ d := by
        rintro rfl
        exact hc hk
      simp [hc, hne, hp.symm]

theorem encode_eq_self (h : ∀ c ∈ s, keep c = true) : encode keep s = s := by
  induction s with
  | nil => rfl
  | cons c s ih =>
    have hs := ih fun d hd => h d (List.mem_cons_of_mem _ hd)
    simp [encodeChar, h c List.mem_cons_self, hs]

/-- A text with each percent sign written as its escape. -/
def escapeSigns (s : Text) : Text := s.flatMap fun c => if c = '%' then "%25".toList else [c]

@[simp] theorem escapeSigns_nil : escapeSigns [] = [] := rfl

@[simp] theorem escapeSigns_cons (c : Char) (s : Text) :
    escapeSigns (c :: s) = (if c = '%' then "%25".toList else [c]) ++ escapeSigns s := rfl

@[simp] theorem escapeSigns_append (s t : Text) :
    escapeSigns (s ++ t) = escapeSigns s ++ escapeSigns t := List.flatMap_append

theorem escapeSigns_eq_self (h : '%' ∉ s) : escapeSigns s = s := by
  induction s with
  | nil => rfl
  | cons c s ih =>
    simp only [List.mem_cons, not_or] at h
    simp [Ne.symm h.1, ih h.2]

theorem encode_eq_escapeSigns (hk : keep '%' = false)
    (h : ∀ c ∈ s, c = '%' ∨ keep c = true) : encode keep s = escapeSigns s := by
  have hsign : encodeChar keep '%' = "%25".toList := by
    rw [encodeChar, hk]
    decide
  induction s with
  | nil => rfl
  | cons c s ih =>
    have hs := ih fun d hd => h d (List.mem_cons_of_mem _ hd)
    rw [encode_cons, escapeSigns_cons, hs]
    by_cases hc : c = '%'
    · rw [hc, hsign, if_pos rfl]
    · have hkept : keep c = true := (h c List.mem_cons_self).resolve_left hc
      rw [encodeChar, if_pos hkept, if_neg hc]

theorem encode_encode (hk : keep '%' = false)
    (digits : ∀ c, isEscapeDigit c = true → keep c = true) (s : Text) :
    encode keep (encode keep s) = escapeSigns (encode keep s) := by
  apply encode_eq_escapeSigns hk
  intro c hc
  rcases mem_encode hc with ⟨-, hkept⟩ | hsign | hdigit
  · exact .inr hkept
  · exact .inl hsign
  · exact .inr (digits c hdigit)

end LinkTemplate.Percent
