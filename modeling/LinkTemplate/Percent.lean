import LinkTemplate.Text

/-!
# Percent encoding

An encoded text is read as escapes and plain characters, and decodes if their bytes together are
UTF-8. A percent sign without two hexadecimal digits after it is a plain character.
-/

namespace LinkTemplate.Percent

/-- The upper-case hexadecimal digit of a number below sixteen. -/
def hexDigit (n : Nat) : Char :=
  if n < 10 then Char.ofNat (0x30 + n) else Char.ofNat (0x41 + (n - 10))

def escapeByte (b : UInt8) : Text := ['%', hexDigit (b.toNat / 16), hexDigit (b.toNat % 16)]

def encodeChar (keep : Char → Bool) (c : Char) : Text :=
  if keep c then [c] else (String.utf8EncodeChar c).flatMap escapeByte

/-- The written form of a text over the alphabet `keep`. -/
def encode (keep : Char → Bool) (s : Text) : Text := s.flatMap (encodeChar keep)

@[simp] theorem encode_nil (keep : Char → Bool) : encode keep [] = [] := rfl

@[simp] theorem encode_cons (keep : Char → Bool) (c : Char) (s : Text) :
    encode keep (c :: s) = encodeChar keep c ++ encode keep s := rfl

@[simp] theorem encode_append (keep : Char → Bool) (s t : Text) :
    encode keep (s ++ t) = encode keep s ++ encode keep t := List.flatMap_append

/-- The value of a hexadecimal digit in either case. -/
def hexValue? (c : Char) : Option Nat :=
  if '0' ≤ c ∧ c ≤ '9' then some (c.toNat - 0x30)
  else if 'A' ≤ c ∧ c ≤ 'F' then some (c.toNat - 0x41 + 10)
  else if 'a' ≤ c ∧ c ≤ 'f' then some (c.toNat - 0x61 + 10)
  else none

def byte? (high low : Char) : Option UInt8 :=
  match hexValue? high, hexValue? low with
  | some m, some n => some (UInt8.ofNat (16 * m + n))
  | _, _ => none

private theorem toNat_lt_of_hexValue? {c : Char} {n : Nat} (h : hexValue? c = some n) :
    c.toNat < 0x67 := by
  have hle {d : Char} (hd : c ≤ d) : c.toNat ≤ d.toNat := UInt32.le_iff_toNat_le.mp hd
  unfold hexValue? at h
  split at h
  next hc => exact Nat.lt_of_le_of_lt (hle hc.2) (by decide)
  next =>
    split at h
    next hc => exact Nat.lt_of_le_of_lt (hle hc.2) (by decide)
    next =>
      split at h
      next hc => exact Nat.lt_succ_of_le (hle hc.2)
      next => cases h

/-- The value of a hexadecimal digit is its place among the digits of its case. -/
theorem hexValue?_eq_some_iff {c : Char} {n : Nat} : hexValue? c = some n ↔
    "0123456789ABCDEF".toList[n]? = some c ∨ "0123456789abcdef".toList[n]? = some c := by
  constructor
  · intro h
    have hplace : ∀ k, k < 0x67 → ∀ n ∈ hexValue? (Char.ofNat k),
        "0123456789ABCDEF".toList[n]? = some (Char.ofNat k) ∨
          "0123456789abcdef".toList[n]? = some (Char.ofNat k) := by decide
    have hc := hplace c.toNat (toNat_lt_of_hexValue? h) n
    rw [Char.ofNat_toNat] at hc
    exact hc h
  · have hupper : ∀ n (hn : n < "0123456789ABCDEF".toList.length),
        hexValue? "0123456789ABCDEF".toList[n] = some n := by decide
    have hlower : ∀ n (hn : n < "0123456789abcdef".toList.length),
        hexValue? "0123456789abcdef".toList[n] = some n := by decide
    rintro (h | h)
    · obtain ⟨hn, rfl⟩ := List.getElem?_eq_some_iff.mp h
      exact hupper n hn
    · obtain ⟨hn, rfl⟩ := List.getElem?_eq_some_iff.mp h
      exact hlower n hn

theorem hexValue?_lt {c : Char} {n : Nat} (h : hexValue? c = some n) : n < 16 := by
  rcases hexValue?_eq_some_iff.mp h with h | h
  · exact (List.getElem?_eq_some_iff.mp h).1
  · exact (List.getElem?_eq_some_iff.mp h).1

theorem hexValue?_hexDigit : ∀ n, n < 16 → hexValue? (hexDigit n) = some n := by decide

/-- Two hexadecimal digits stand for a byte, the first of them for its sixteens. -/
theorem byte?_eq_some_iff {high low : Char} {b : UInt8} : byte? high low = some b ↔
    ∃ m n, hexValue? high = some m ∧ hexValue? low = some n ∧ b.toNat = 16 * m + n := by
  rw [byte?]
  cases hm : hexValue? high with
  | none => simp
  | some m =>
    cases hn : hexValue? low with
    | none => simp
    | some n =>
      have hlt : 16 * m + n < 256 := by
        have hm := hexValue?_lt hm
        have hn := hexValue?_lt hn
        omega
      simp [← UInt8.toNat_inj, Nat.mod_eq_of_lt hlt, eq_comm]

theorem byte?_hexDigit (b : UInt8) :
    byte? (hexDigit (b.toNat / 16)) (hexDigit (b.toNat % 16)) = some b := by
  have hb := b.toNat_lt
  rw [byte?_eq_some_iff]
  exact ⟨_, _, hexValue?_hexDigit _ (by omega), hexValue?_hexDigit _ (by omega),
    (Nat.div_add_mod b.toNat 16).symm⟩

/-- The byte of an escape, or a character that is not part of an escape. -/
inductive Token where
  | escape (b : UInt8)
  | plain (c : Char)
deriving DecidableEq, Repr

def Token.bytes : Token → List UInt8
  | .escape b => [b]
  | .plain c => String.utf8EncodeChar c

def tokens : Text → List Token
  | '%' :: high :: low :: s =>
    match byte? high low with
    | some b => .escape b :: tokens s
    | none => .plain '%' :: tokens (high :: low :: s)
  | c :: s => .plain c :: tokens s
  | [] => []

theorem tokens_escapeByte_append (b : UInt8) (s : Text) :
    tokens (escapeByte b ++ s) = .escape b :: tokens s := by
  simp [escapeByte, tokens, byte?_hexDigit]

theorem tokens_cons_of_ne {c : Char} (h : c ≠ '%') (s : Text) :
    tokens (c :: s) = .plain c :: tokens s := by
  rw [tokens]
  rintro high low t rfl
  exact absurd rfl h

def bytes (s : Text) : List UInt8 := (tokens s).flatMap Token.bytes

/-- The text whose UTF-8 form a list of bytes is. -/
def ofUtf8? (bs : List UInt8) : Option Text := bs.toByteArray.utf8Decode?.map Array.toList

theorem ofUtf8?_flatMap (s : Text) : ofUtf8? (s.flatMap String.utf8EncodeChar) = some s := by
  have h := List.utf8Decode?_utf8Encode (l := s)
  simp only [List.utf8Encode] at h
  simp [ofUtf8?, h]

/-- The text that a percent-encoded text stands for, if its bytes are UTF-8. -/
def decode (s : Text) : Option Text := ofUtf8? (bytes s)

end LinkTemplate.Percent
