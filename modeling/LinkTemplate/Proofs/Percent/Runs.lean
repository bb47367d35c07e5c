import LinkTemplate.Proofs.Percent.Encoding

/-!
# Runs of escapes

A text's escapes come in runs, with plain text before, between and after them. A run's bytes are
read on their own: neither an escape nor a character goes across the ends of a run.
-/

namespace LinkTemplate.Percent

/-- The UTF-8 form of a text. -/
def utf8 (s : Text) : List UInt8 := s.flatMap String.utf8EncodeChar

@[simp] theorem utf8_nil : utf8 [] = [] := rfl

@[simp] theorem utf8_cons (c : Char) (s : Text) :
    utf8 (c :: s) = String.utf8EncodeChar c ++ utf8 s := rfl

@[simp] theorem utf8_append (s t : Text) : utf8 (s ++ t) = utf8 s ++ utf8 t := List.flatMap_append

@[simp] theorem length_utf8 (s : Text) : (utf8 s).length = Text.byteLength s := by
  induction s with
  | nil => rfl
  | cons c s ih => simp [ih]

theorem ofUtf8?_eq_some_iff {bs : List UInt8} {s : Text} : ofUtf8? bs = some s ↔ bs = utf8 s := by
  constructor
  · intro h
    obtain ⟨cs, hcs, rfl⟩ := Option.map_eq_some_iff.mp h
    have hsome : bs.toByteArray.utf8Decode?.isSome = true := by rw [hcs]; rfl
    have hbytes := ByteArray.utf8Encode_get_utf8Decode? (h := hsome)
    simp only [hcs, Option.get_some, List.utf8Encode] at hbytes
    exact (List.toByteArray_inj.mp hbytes).symm
  · rintro rfl
    exact ofUtf8?_flatMap s

theorem utf8_inj {s t : Text} (h : utf8 s = utf8 t) : s = t := by
  have ht := ofUtf8?_eq_some_iff.mpr h
  rw [ofUtf8?_eq_some_iff.mpr rfl] at ht
  exact Option.some.inj ht

variable {xs ys bs : List UInt8} {c : Char} {s : Text}

theorem exists_of_utf8_append {t : Text} (h : utf8 t ++ bs = utf8 s) :
    ∃ rest, s = t ++ rest ∧ bs = utf8 rest := by
  induction t generalizing s with
  | nil => exact ⟨s, rfl, h⟩
  | cons c t ih =>
    cases s with
    | nil => simp [String.utf8EncodeChar_ne_nil] at h
    | cons d s =>
      rw [utf8_cons, utf8_cons, List.append_assoc] at h
      have hc : c = d := eq_of_utf8EncodeChar_append h
      rw [hc, List.append_cancel_left_eq] at h
      obtain ⟨rest, hs, hbs⟩ := ih h
      exact ⟨rest, by simp [hc, hs], hbs⟩

theorem ofUtf8?_utf8_append (s : Text) (bs : List UInt8) :
    ofUtf8? (utf8 s ++ bs) = (ofUtf8? bs).map (s ++ ·) := by
  apply Option.ext
  intro t
  rw [ofUtf8?_eq_some_iff, Option.map_eq_some_iff]
  constructor
  · intro h
    obtain ⟨rest, ht, hbs⟩ := exists_of_utf8_append h
    exact ⟨rest, ofUtf8?_eq_some_iff.mpr hbs, ht.symm⟩
  · rintro ⟨rest, hbs, rfl⟩
    rw [ofUtf8?_eq_some_iff.mp hbs, utf8_append]

private theorem eq_nil_of_utf8EncodeChar_eq_append {d : Char} {zs : List UInt8}
    (h : String.utf8EncodeChar d = xs ++ zs) (hz : zs ≠ [])
    (hfirst : zs ++ ys = String.utf8EncodeChar c ++ bs) : xs = [] := by
  obtain ⟨e, zs, rfl⟩ := List.exists_cons_of_ne_nil hz
  obtain ⟨f, fs, hc⟩ := List.exists_cons_of_ne_nil (String.utf8EncodeChar_ne_nil (c := c))
  rw [hc, List.cons_append, List.cons_append, List.cons.injEq] at hfirst
  rw [← isUTF8FirstByte_iff h, hfirst.1]
  exact isUTF8FirstByte_of_eq_cons hc

/-- Where the form of a character stands in the form of a text, the text has the character. -/
theorem exists_of_append_utf8EncodeChar (h : xs ++ (String.utf8EncodeChar c ++ ys) = utf8 s) :
    ∃ front back, s = front ++ c :: back ∧ xs = utf8 front ∧ ys = utf8 back := by
  induction s generalizing xs with
  | nil => simp [String.utf8EncodeChar_ne_nil] at h
  | cons d s ih =>
    rw [utf8_cons] at h
    rcases List.append_eq_append_iff.mp h with ⟨zs, hd, hrest⟩ | ⟨zs, rfl, hrest⟩
    · by_cases hz : zs = []
      · rw [hz, List.nil_append, ← List.nil_append (_ ++ _)] at hrest
        obtain ⟨front, back, rfl, hfront, hback⟩ := ih hrest
        refine ⟨d :: front, back, rfl, ?_, hback⟩
        rw [utf8_cons, ← hfront, hd, hz, List.append_nil, List.append_nil]
      · obtain rfl := eq_nil_of_utf8EncodeChar_eq_append hd hz hrest.symm
        rw [List.nil_append] at h
        obtain rfl := eq_of_utf8EncodeChar_append h
        exact ⟨[], s, rfl, rfl, List.append_cancel_left h⟩
    · obtain ⟨front, back, rfl, hfront, hback⟩ := ih hrest.symm
      exact ⟨d :: front, back, rfl, by rw [utf8_cons, hfront], hback⟩

/-- Bytes that stand in the form of a text after a whole character or at its start, and before a
character or at its end, are the form of a part of the text. -/
theorem exists_of_append_utf8 (h : xs ++ (bs ++ ys) = utf8 s)
    (before : xs = [] ∨ ∃ zs c, xs = zs ++ String.utf8EncodeChar c)
    (after : ys = [] ∨ ∃ c zs, ys = String.utf8EncodeChar c ++ zs) :
    ∃ front part back, s = front ++ (part ++ back) ∧ xs = utf8 front ∧ bs = utf8 part ∧
      ys = utf8 back := by
  have hfront : ∃ front rest, s = front ++ rest ∧ xs = utf8 front ∧ bs ++ ys = utf8 rest := by
    rcases before with rfl | ⟨zs, c, rfl⟩
    · exact ⟨[], s, rfl, rfl, h⟩
    · rw [List.append_assoc] at h
      obtain ⟨front, rest, rfl, rfl, hrest⟩ := exists_of_append_utf8EncodeChar h
      exact ⟨front ++ [c], rest, by simp, by simp, hrest⟩
  obtain ⟨front, rest, rfl, hxs, hrest⟩ := hfront
  rcases after with rfl | ⟨c, zs, rfl⟩
  · exact ⟨front, rest, [], by simp, hxs, by simpa using hrest, rfl⟩
  · obtain ⟨part, back, rfl, hbs, hzs⟩ := exists_of_append_utf8EncodeChar hrest
    exact ⟨front, part, c :: back, rfl, hxs, hbs, by rw [utf8_cons, hzs]⟩

/-- A percent sign and two hexadecimal digits in either case, and the byte that they stand for. -/
def IsEscape (x : Text) (b : UInt8) : Prop :=
  ∃ high low, x = ['%', high, low] ∧ byte? high low = some b

/-- Escapes one after the other, and their bytes. -/
inductive Escapes : Text → List UInt8 → Prop where
  | nil : Escapes [] []
  | cons {x s : Text} {b : UInt8} {bs : List UInt8} :
    IsEscape x b → Escapes s bs → Escapes (x ++ s) (b :: bs)

def StartsEscape (s : Text) : Prop := ∃ x b rest, IsEscape x b ∧ s = x ++ rest

def EndsEscape (s : Text) : Prop := ∃ front x b, IsEscape x b ∧ s = front ++ x

/-- No escape stands anywhere in a text. -/
def Plain (s : Text) : Prop := ∀ front back, s = front ++ back → ¬StartsEscape back

/-- Escapes that stand in a text with no escape directly before or after them. -/
structure IsRun (s before run after : Text) (bs : List UInt8) : Prop where
  text : s = before ++ (run ++ after)
  escapes : Escapes run bs
  ne_nil : run ≠ []
  not_before : ¬EndsEscape before
  not_after : ¬StartsEscape after

variable {t x before run after : Text} {b : UInt8}

theorem hexValue?_percent : hexValue? '%' = none := by decide

theorem IsEscape.ne_nil (h : IsEscape x b) : x ≠ [] := by
  obtain ⟨high, low, rfl, -⟩ := h
  exact List.cons_ne_nil _ _

theorem IsEscape.tokens_append (h : IsEscape x b) (s : Text) :
    tokens (x ++ s) = .escape b :: tokens s := by
  obtain ⟨high, low, rfl, hb⟩ := h
  simp only [List.cons_append, List.nil_append, tokens, hb]

theorem tokens_cons_of_not_startsEscape (h : ¬StartsEscape (c :: s)) :
    tokens (c :: s) = .plain c :: tokens s := by
  by_cases hc : c = '%'
  · subst hc
    match s with
    | [] => rfl
    | [_] => rfl
    | high :: low :: s =>
      have hb : byte? high low = none := by
        rw [Option.eq_none_iff_forall_ne_some]
        intro b hb
        exact h ⟨['%', high, low], b, s, ⟨high, low, rfl, hb⟩, rfl⟩
      rw [tokens, hb]
  · exact tokens_cons_of_ne hc s

/-- A text is read escape by escape and, where no escape starts, character by character. -/
theorem tokens_induction {motive : Text → Prop} (nil : motive [])
    (escape : ∀ x b s, IsEscape x b → motive s → motive (x ++ s))
    (plain : ∀ c s, ¬StartsEscape (c :: s) → motive s → motive (c :: s)) (s : Text) :
    motive s := by
  generalize hn : s.length = n
  induction n using Nat.strongRecOn generalizing s with
  | ind n ih =>
    cases s with
    | nil => exact nil
    | cons c s =>
      by_cases h : StartsEscape (c :: s)
      · obtain ⟨x, b, rest, hx, hs⟩ := h
        have hpos := List.length_pos_iff.mpr hx.ne_nil
        rw [hs, List.length_append] at hn
        rw [hs]
        exact escape x b rest hx (ih rest.length (by omega) rest rfl)
      · exact plain c s h (ih s.length (by rw [← hn]; exact Nat.lt_succ_self _) s rfl)

/-- An escape that starts in a text does not go on in the escape after the text. -/
theorem not_startsEscape_append (h : ¬StartsEscape (c :: s)) (hx : IsEscape x b) (t : Text) :
    ¬StartsEscape (c :: (s ++ (x ++ t))) := by
  rintro ⟨y, d, rest, ⟨high, low, rfl, hd⟩, heq⟩
  obtain ⟨high', low', rfl, -⟩ := hx
  obtain ⟨m, n, hhigh, hlow, -⟩ := byte?_eq_some_iff.mp hd
  match s with
  | [] =>
    simp only [List.cons_append, List.nil_append, List.cons.injEq] at heq
    rw [← heq.2.1, hexValue?_percent] at hhigh
    cases hhigh
  | [e] =>
    simp only [List.cons_append, List.nil_append, List.cons.injEq] at heq
    rw [← heq.2.2.1, hexValue?_percent] at hlow
    cases hlow
  | e :: f :: s =>
    simp only [List.cons_append, List.nil_append, List.cons.injEq] at heq
    obtain ⟨rfl, rfl, rfl, -⟩ := heq
    exact h ⟨_, d, s, ⟨_, _, rfl, hd⟩, rfl⟩

theorem tokens_append_escape (s : Text) (hx : IsEscape x b) (t : Text) :
    tokens (s ++ (x ++ t)) = tokens s ++ .escape b :: tokens t := by
  induction s using tokens_induction with
  | nil => exact hx.tokens_append t
  | escape y d s hy ih =>
    rw [List.append_assoc, hy.tokens_append, hy.tokens_append, ih, List.cons_append]
  | plain c s hc ih =>
    rw [List.cons_append, tokens_cons_of_not_startsEscape (not_startsEscape_append hc hx t),
      tokens_cons_of_not_startsEscape hc, ih, List.cons_append]

theorem Escapes.tokens_append (h : Escapes run bs) (t : Text) :
    tokens (run ++ t) = bs.map .escape ++ tokens t := by
  induction h with
  | nil => rfl
  | cons hx _ ih =>
    rw [List.append_assoc, hx.tokens_append, ih, List.map_cons, List.cons_append]

theorem tokens_append_escapes (s : Text) (h : Escapes run bs) (hne : run ≠ []) (t : Text) :
    tokens (s ++ (run ++ t)) = tokens s ++ (bs.map .escape ++ tokens t) := by
  cases h with
  | nil => exact absurd rfl hne
  | cons hx h =>
    rw [List.append_assoc, tokens_append_escape s hx, h.tokens_append, List.map_cons,
      List.cons_append]

theorem tokens_eq_nil_iff : tokens s = [] ↔ s = [] := by
  induction s using tokens_induction with
  | nil => simp [tokens]
  | escape x b s hx ih => simp [hx.tokens_append, hx.ne_nil]
  | plain c s hc ih => simp [tokens_cons_of_not_startsEscape hc]

theorem startsEscape_iff : StartsEscape s ↔ ∃ b ts, tokens s = .escape b :: ts := by
  constructor
  · rintro ⟨x, b, rest, hx, rfl⟩
    exact ⟨b, tokens rest, hx.tokens_append rest⟩
  · rintro ⟨b, ts, h⟩
    apply Classical.byContradiction
    intro hs
    cases s with
    | nil => cases h
    | cons c s =>
      rw [tokens_cons_of_not_startsEscape hs] at h
      cases h

theorem endsEscape_iff : EndsEscape s ↔ ∃ ts b, tokens s = ts ++ [.escape b] := by
  constructor
  · rintro ⟨front, x, b, hx, rfl⟩
    refine ⟨tokens front, b, ?_⟩
    rw [← List.append_nil x, tokens_append_escape front hx]
    rfl
  · rintro ⟨ts, b, h⟩
    induction s using tokens_induction generalizing ts with
    | nil => exact absurd h.symm (by simp [tokens])
    | escape x d s hx ih =>
      rw [hx.tokens_append] at h
      cases ts with
      | nil =>
        rw [List.nil_append, List.cons.injEq] at h
        rw [tokens_eq_nil_iff.mp h.2, List.append_nil]
        exact ⟨[], x, d, hx, rfl⟩
      | cons e ts =>
        rw [List.cons_append, List.cons.injEq] at h
        obtain ⟨front, y, f, hy, rfl⟩ := ih ts h.2
        exact ⟨x ++ front, y, f, hy, (List.append_assoc x front y).symm⟩
    | plain c s hc ih =>
      rw [tokens_cons_of_not_startsEscape hc] at h
      cases ts with
      | nil => cases h
      | cons e ts =>
        rw [List.cons_append, List.cons.injEq] at h
        obtain ⟨front, y, f, hy, rfl⟩ := ih ts h.2
        exact ⟨c :: front, y, f, hy, rfl⟩

theorem EndsEscape.of_tokens_append {ts : List Token} (h : EndsEscape s) (ht : t ≠ [])
    (htokens : tokens s = ts ++ tokens t) : EndsEscape t := by
  obtain ⟨us, b, hs⟩ := endsEscape_iff.mp h
  rcases List.append_eq_append_iff.mp (htokens.symm.trans hs) with ⟨vs, -, htail⟩ | ⟨vs, -, htail⟩
  · exact endsEscape_iff.mpr ⟨vs, b, htail⟩
  · cases vs with
    | nil => exact endsEscape_iff.mpr ⟨[], b, htail.symm⟩
    | cons v vs =>
      rw [List.cons_append, List.cons.injEq] at htail
      exact absurd (tokens_eq_nil_iff.mp (List.append_eq_nil_iff.mp htail.2.symm).2) ht

theorem not_startsEscape_nil : ¬StartsEscape [] := by
  rw [startsEscape_iff]
  rintro ⟨b, ts, h⟩
  cases h

theorem not_endsEscape_nil : ¬EndsEscape [] := by
  rw [endsEscape_iff]
  rintro ⟨ts, b, h⟩
  simp [tokens] at h

theorem plain_nil : Plain [] := by
  intro front back h
  rw [(List.append_eq_nil_iff.mp h.symm).2]
  exact not_startsEscape_nil

theorem plain_cons_iff : Plain (c :: s) ↔ ¬StartsEscape (c :: s) ∧ Plain s := by
  constructor
  · intro h
    exact ⟨h [] (c :: s) rfl, fun front back hs => h (c :: front) back (by rw [hs]; rfl)⟩
  · intro ⟨hc, hs⟩ front back h
    cases front with
    | nil =>
      rw [List.nil_append] at h
      rwa [← h]
    | cons d front =>
      rw [List.cons_append, List.cons.injEq] at h
      exact hs front back h.2

theorem Plain.tokens_eq (h : Plain s) : tokens s = s.map .plain := by
  induction s with
  | nil => rfl
  | cons c s ih =>
    rw [plain_cons_iff] at h
    rw [tokens_cons_of_not_startsEscape h.1, ih h.2, List.map_cons]

theorem Plain.bytes_eq (h : Plain s) : bytes s = utf8 s := by
  rw [bytes, h.tokens_eq, List.flatMap_map]
  rfl

theorem Plain.not_endsEscape (h : Plain s) : ¬EndsEscape s := by
  rintro ⟨front, x, b, hx, hs⟩
  exact h front x hs ⟨x, b, [], hx, (List.append_nil x).symm⟩

theorem bytes_of_not_endsEscape (h : ¬EndsEscape s) :
    bytes s = [] ∨ ∃ zs c, bytes s = zs ++ String.utf8EncodeChar c := by
  rcases (tokens s).eq_nil_or_concat with hs | ⟨ts, token, hs⟩
  · exact .inl (by rw [bytes, hs]; rfl)
  · rw [List.concat_eq_append] at hs
    cases token with
    | escape b => exact absurd (endsEscape_iff.mpr ⟨ts, b, hs⟩) h
    | plain c =>
      refine .inr ⟨ts.flatMap Token.bytes, c, ?_⟩
      rw [bytes, hs, List.flatMap_append, List.flatMap_singleton]
      rfl

theorem bytes_of_not_startsEscape (h : ¬StartsEscape s) :
    bytes s = [] ∨ ∃ c zs, bytes s = String.utf8EncodeChar c ++ zs := by
  cases s with
  | nil => exact .inl rfl
  | cons c s =>
    refine .inr ⟨c, bytes s, ?_⟩
    rw [bytes, tokens_cons_of_not_startsEscape h]
    rfl

theorem IsEscape.isRun (hx : IsEscape x b) (hs : ¬StartsEscape s) : IsRun (x ++ s) [] x s [b] := by
  refine ⟨rfl, ?_, hx.ne_nil, not_endsEscape_nil, hs⟩
  rw [← List.append_nil x]
  exact .cons hx .nil

theorem IsRun.cons (h : IsRun s [] run after bs) (hx : IsEscape x b) :
    IsRun (x ++ s) [] (x ++ run) after (b :: bs) := by
  refine ⟨?_, .cons hx h.escapes, ?_, not_endsEscape_nil, h.not_after⟩
  · rw [h.text, List.append_assoc]
    rfl
  · exact List.append_ne_nil_of_left_ne_nil hx.ne_nil run

/-- A text holds no escape, or it has a first run. -/
theorem plain_or_exists_isRun (s : Text) :
    Plain s ∨ ∃ before run after bs, Plain before ∧ IsRun s before run after bs := by
  induction s using tokens_induction with
  | nil => exact .inl plain_nil
  | escape x b s hx ih =>
    right
    rcases ih with hs | ⟨before, run, after, bs, hplain, hrun⟩
    · exact ⟨[], x, s, [b], plain_nil, hx.isRun (hs [] s rfl)⟩
    · cases before with
      | nil => exact ⟨[], x ++ run, after, b :: bs, plain_nil, hrun.cons hx⟩
      | cons c before =>
        refine ⟨[], x, s, [b], plain_nil, hx.isRun ?_⟩
        rw [startsEscape_iff, hrun.text, tokens_append_escapes _ hrun.escapes hrun.ne_nil,
          hplain.tokens_eq]
        rintro ⟨d, ts, h⟩
        cases h
  | plain c s hc ih =>
    rcases ih with hs | ⟨before, run, after, bs, hplain, hrun⟩
    · exact .inl (plain_cons_iff.mpr ⟨hc, hs⟩)
    · have hstart : ¬StartsEscape (c :: before) := by
        rintro ⟨x, b, rest, hx, h⟩
        refine hc ⟨x, b, rest ++ (run ++ after), hx, ?_⟩
        rw [hrun.text, ← List.append_assoc x, ← h, List.cons_append]
      have hcplain : Plain (c :: before) := plain_cons_iff.mpr ⟨hstart, hplain⟩
      refine .inr ⟨c :: before, run, after, bs, hcplain, ?_, hrun.escapes, hrun.ne_nil,
        hcplain.not_endsEscape, hrun.not_after⟩
      rw [hrun.text, List.cons_append]

namespace IsRun

theorem bytes_eq (h : IsRun s before run after bs) :
    bytes s = bytes before ++ (bs ++ bytes after) := by
  rw [bytes, h.text, tokens_append_escapes before h.escapes h.ne_nil, List.flatMap_append,
    List.flatMap_append, List.flatMap_map, ← bytes, ← bytes]
  simp [Token.bytes]

theorem length_lt (h : IsRun s before run after bs) : after.length < s.length := by
  have hpos := List.length_pos_iff.mpr h.ne_nil
  rw [h.text, List.length_append, List.length_append]
  omega

/-- A later run is a run of the whole text. -/
theorem trans {before' run' after' : Text} {bs' : List UInt8}
    (h : IsRun s before run after bs) (h' : IsRun after before' run' after' bs') :
    IsRun s (before ++ (run ++ before')) run' after' bs' := by
  refine ⟨?_, h'.escapes, h'.ne_nil, ?_, h'.not_after⟩
  · rw [h.text, h'.text]
    simp only [List.append_assoc]
  · have hne : before' ≠ [] := by
      rintro rfl
      refine h.not_after (startsEscape_iff.mpr ?_)
      rw [h'.text, List.nil_append, h'.escapes.tokens_append]
      cases h'.escapes with
      | nil => exact absurd rfl h'.ne_nil
      | cons hx _ => exact ⟨_, _, rfl⟩
    have htokens : tokens (before ++ (run ++ before')) =
        (tokens before ++ bs.map .escape) ++ tokens before' := by
      rw [tokens_append_escapes before h.escapes h.ne_nil, List.append_assoc]
    exact fun hends => h'.not_before (hends.of_tokens_append hne htokens)

/-- The bytes of a run make up whole characters if those of the text do. -/
theorem exists_of_bytes_eq {r : Text} (h : IsRun r before run after bs)
    (hbytes : bytes r = utf8 s) : ∃ front part back, s = front ++ (part ++ back) ∧
      bytes before = utf8 front ∧ bs = utf8 part ∧ bytes after = utf8 back := by
  rw [h.bytes_eq] at hbytes
  exact exists_of_append_utf8 hbytes (bytes_of_not_endsEscape h.not_before)
    (bytes_of_not_startsEscape h.not_after)

end IsRun

theorem runs_induction {motive : Text → Prop} (plain : ∀ s, Plain s → motive s)
    (run : ∀ s before run after bs, Plain before → IsRun s before run after bs → motive after →
      motive s) (s : Text) : motive s := by
  generalize hn : s.length = n
  induction n using Nat.strongRecOn generalizing s with
  | ind n ih =>
    rcases plain_or_exists_isRun s with hs | ⟨before, x, after, bs, hplain, hrun⟩
    · exact plain s hs
    · exact run s before x after bs hplain hrun (ih _ (hn ▸ hrun.length_lt) after rfl)

end LinkTemplate.Percent
