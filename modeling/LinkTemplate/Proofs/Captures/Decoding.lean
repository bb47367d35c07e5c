import LinkTemplate.Proofs.Percent.Runs
import LinkTemplate.Proofs.Uri.Representation
import LinkTemplate.Template

namespace LinkTemplate

namespace Percent

/-- A text with each run of escapes replaced by the text whose UTF-8 form the run spells. -/
inductive Unescapes : Text → Text → Prop where
  | plain {r : Text} : Plain r → Unescapes r r
  | run {r before run after text s : Text} :
    Plain before → IsRun r before run after (utf8 text) → Unescapes after s →
      Unescapes r (before ++ (text ++ s))

variable {keep : Char → Bool} {r s : Text}

theorem decode_eq_some_iff : decode r = some s ↔ bytes r = utf8 s := ofUtf8?_eq_some_iff

theorem Unescapes.bytes_eq (h : Unescapes r s) : bytes r = utf8 s := by
  induction h with
  | plain hr => exact hr.bytes_eq
  | run hbefore hrun _ ih => rw [hrun.bytes_eq, hbefore.bytes_eq, ih, utf8_append, utf8_append]

theorem unescapes_of_bytes_eq (h : bytes r = utf8 s) : Unescapes r s := by
  induction r using runs_induction generalizing s with
  | plain r hr =>
    obtain rfl := utf8_inj (hr.bytes_eq.symm.trans h)
    exact .plain hr
  | run r before run after bs hbefore hrun ih =>
    obtain ⟨front, text, back, rfl, hfront, rfl, hback⟩ := hrun.exists_of_bytes_eq h
    obtain rfl := utf8_inj (hbefore.bytes_eq.symm.trans hfront)
    exact .run hbefore hrun (ih hback)

theorem decode_eq_some_iff_unescapes : decode r = some s ↔ Unescapes r s := by
  rw [decode_eq_some_iff]
  exact ⟨unescapes_of_bytes_eq, Unescapes.bytes_eq⟩

theorem exists_unescapes_iff : (∃ s, Unescapes r s) ↔
    ∀ before run after bs, IsRun r before run after bs → ∃ text, bs = utf8 text := by
  constructor
  · rintro ⟨s, hs⟩ before run after bs hrun
    obtain ⟨-, text, -, -, -, hbs, -⟩ := hrun.exists_of_bytes_eq hs.bytes_eq
    exact ⟨text, hbs⟩
  · intro h
    induction r using runs_induction with
    | plain r hr => exact ⟨r, .plain hr⟩
    | run r before run after bs hbefore hrun ih =>
      obtain ⟨text, rfl⟩ := h before run after bs hrun
      obtain ⟨s, hs⟩ := ih fun before' run' after' bs' hrun' =>
        h _ run' after' bs' (hrun.trans hrun')
      exact ⟨_, .run hbefore hrun hs⟩

theorem decode_encode_append (hk : keep '%' = false) (s t : Text) :
    decode (encode keep s ++ t) = (decode t).map (s ++ ·) := by
  rw [decode, bytes_encode_append hk]
  exact ofUtf8?_utf8_append s (bytes t)

theorem encode_injective (hk : keep '%' = false) : Function.Injective (encode keep) := by
  intro s t h
  have hdecode := congrArg decode h
  simpa [decode_encode hk] using hdecode

end Percent

namespace Capture

variable {c : Capture} {s : Text}

theorem decoded_eq_ok_iff : c.decoded = .ok s ↔ Percent.decode c.value = some s := by
  rw [decoded]
  cases Percent.decode c.value <;> simp

/-- A captured value decodes if and only if the bytes of each of its runs of escapes are the UTF-8
form of some text. Then it decodes to the value with each run replaced by its text and all else as
it is. Otherwise the error is about the value as a whole and has no position. -/
theorem decoded_runs (c : Capture) :
    ((∃ s, c.decoded = .ok s) ↔ ∀ before run after bs,
      Percent.IsRun c.value before run after bs → ∃ text, bs = Percent.utf8 text) ∧
    (∀ s, c.decoded = .ok s ↔ Percent.Unescapes c.value s) ∧
    ((¬∃ s, c.decoded = .ok s) → c.decoded = .error ⟨c.value, none, .invalidUtf8⟩) := by
  have hok (s : Text) : c.decoded = .ok s ↔ Percent.Unescapes c.value s := by
    rw [decoded_eq_ok_iff, Percent.decode_eq_some_iff_unescapes]
  refine ⟨?_, hok, ?_⟩
  · rw [← Percent.exists_unescapes_iff]
    exact exists_congr hok
  · intro h
    cases hdecode : Percent.decode c.value with
    | some s => exact absurd ⟨s, decoded_eq_ok_iff.mpr hdecode⟩ h
    | none => rw [decoded, hdecode]

example : decoded ⟨[], "%c3%A9%2541%é%zz".toList, 0⟩ = .ok "é%41%é%zz".toList := rfl

example : decoded ⟨[], "é%C3©".toList, 0⟩ = .error ⟨"é%C3©".toList, none, .invalidUtf8⟩ := rfl

end Capture

namespace Uri

/-- The alphabets that the parts of a URI are encoded over. -/
inductive IsAlphabet : (Char → Bool) → Prop where
  | path : IsAlphabet isPathChar
  | uri : IsAlphabet isUriChar

namespace IsAlphabet

variable {keep : Char → Bool}

theorem percent (h : IsAlphabet keep) : keep '%' = false := by
  cases h <;> simp

theorem of_isEscapeDigit (h : IsAlphabet keep) {c : Char} (hc : Percent.isEscapeDigit c = true) :
    keep c = true := by
  cases h with
  | path => exact isPathChar_of_isEscapeDigit hc
  | uri => exact isUriChar_of_isEscapeDigit hc

/-- An encoded text with any text after it is read as the encoded text and then the text after it,
byte by byte and therefore as a text. A captured value that was encoded decodes to what was encoded,
and different texts have different encodings. Encoding an encoded text once more escapes its percent
signs and nothing else. -/
theorem encode_delimits (h : IsAlphabet keep) :
    (∀ s t, Percent.bytes (Percent.encode keep s ++ t) = Percent.utf8 s ++ Percent.bytes t) ∧
    (∀ s t, Percent.decode (Percent.encode keep s ++ t) = (Percent.decode t).map (s ++ ·)) ∧
    (∀ (c : Capture) s, c.value = Percent.encode keep s → c.decoded = .ok s) ∧
    Function.Injective (Percent.encode keep) ∧
    ∀ s, Percent.encode keep (Percent.encode keep s) =
      Percent.escapeSigns (Percent.encode keep s) := by
  refine ⟨?_, ?_, ?_, ?_, ?_⟩
  · exact Percent.bytes_encode_append h.percent
  · exact Percent.decode_encode_append h.percent
  · intro c s hvalue
    rw [Capture.decoded_eq_ok_iff, hvalue, Percent.decode_encode h.percent]
  · exact Percent.encode_injective h.percent
  · exact Percent.encode_encode h.percent fun c hc => h.of_isEscapeDigit hc

/-- Digits and stray percent signs after an encoded percent sign. -/
theorem encode_delimits_digits :
    Percent.encode isPathChar "é[%".toList = "%C3%A9%5B%25".toList ∧
    Percent.decode ("%C3%A9%5B%25".toList ++ "41%4%zz".toList) = some "é[%41%4%zz".toList ∧
    Capture.decoded ⟨[], "%C3%A9%5B%25".toList, 0⟩ = .ok "é[%".toList ∧
    Percent.encode isPathChar "%C3%A9%5B%25".toList = "%25C3%25A9%255B%2525".toList := by
  obtain ⟨-, hdecode, hvalue, -, htwice⟩ := IsAlphabet.path.encode_delimits
  exact ⟨rfl, hdecode "é[%".toList "41%4%zz".toList, hvalue _ "é[%".toList rfl,
    htwice "é[%".toList⟩

end IsAlphabet

end Uri

end LinkTemplate
