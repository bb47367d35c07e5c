/-!
# Text

A text is the list of its characters. A position in it is the number of UTF-8 bytes before it.
-/

namespace LinkTemplate

/-- A text, character by character. -/
abbrev Text := List Char

namespace Text

/-- The number of UTF-8 bytes of a text. -/
def byteLength (s : Text) : Nat := s.foldr (fun c n => c.utf8Size + n) 0

@[simp] theorem byteLength_nil : byteLength [] = 0 := rfl

@[simp] theorem byteLength_cons (c : Char) (s : Text) :
    byteLength (c :: s) = c.utf8Size + byteLength s := rfl

@[simp] theorem byteLength_append (s t : Text) :
    byteLength (s ++ t) = byteLength s + byteLength t := by
  induction s with
  | nil => simp
  | cons c s ih => simp [ih, Nat.add_assoc]

@[simp] theorem byteLength_eq_zero_iff {s : Text} : byteLength s = 0 ↔ s = [] := by
  cases s with
  | nil => simp
  | cons c s =>
    have hc := c.utf8Size_pos
    simp only [byteLength_cons, reduceCtorEq, iff_false]
    omega

/-- The decimal digits of a number. -/
def decimal (n : Nat) : Text := Nat.toDigits 10 n

/-- Splits a text at a byte position; a position inside a character stands for its start. -/
def splitAtByte : Nat → Text → Text × Text
  | _, [] => ([], [])
  | n, c :: s =>
    if c.utf8Size ≤ n then
      let parts := splitAtByte (n - c.utf8Size) s
      (c :: parts.1, parts.2)
    else
      ([], c :: s)

theorem splitAtByte_append (n : Nat) (s : Text) :
    (splitAtByte n s).1 ++ (splitAtByte n s).2 = s := by
  induction s generalizing n with
  | nil => rfl
  | cons c s ih =>
    rw [splitAtByte]
    split
    · simp [ih]
    · rfl

theorem splitAtByte_byteLength (s t : Text) : splitAtByte (byteLength s) (s ++ t) = (s, t) := by
  induction s with
  | nil =>
    cases t with
    | nil => rfl
    | cons c t =>
      have hc := c.utf8Size_pos
      rw [List.nil_append, byteLength_nil, splitAtByte, if_neg (by omega)]
  | cons c s ih => simp [splitAtByte, ih]

/-- A position settles the text before it. -/
theorem eq_of_byteLength_eq {a b s t : Text} (h : a ++ s = b ++ t)
    (hl : byteLength a = byteLength b) : a = b := by
  have ha := splitAtByte_byteLength a s
  rw [h, hl, splitAtByte_byteLength] at ha
  exact (congrArg Prod.fst ha).symm

/-- An optional part of a text, led in by its delimiter. -/
def lead (c : Char) : Option Text → Text
  | none => []
  | some s => c :: s

@[simp] theorem lead_none (c : Char) : lead c none = [] := rfl

@[simp] theorem lead_some (c : Char) (s : Text) : lead c (some s) = c :: s := rfl

@[simp] theorem lead_eq_nil_iff {c : Char} {s? : Option Text} : lead c s? = [] ↔ s? = none := by
  cases s? <;> simp

@[simp] theorem getD_map_cons (c : Char) (s? : Option Text) :
    (s?.map fun s => c :: s).getD [] = lead c s? := by
  cases s? <;> rfl

/-- The text before the first `c`, and the text after it if there is a `c`. -/
def cut (c : Char) (s : Text) : Text × Option Text :=
  (s.takeWhile (· != c), (s.dropWhile (· != c)).tail?)

private theorem bne_of_not_mem {c : Char} {s : Text} (h : c ∉ s) :
    ∀ d ∈ s, (d != c) = true := by
  intro d hd
  simp only [bne_iff_ne]
  exact fun e => h (e ▸ hd)

theorem cut_of_not_mem {c : Char} {s : Text} (h : c ∉ s) : cut c s = (s, none) := by
  have ht : s.takeWhile (· != c) = s := by
    simpa using @List.takeWhile_append_of_pos _ _ s [] (bne_of_not_mem h)
  have hd : s.dropWhile (· != c) = [] := by
    simpa using @List.dropWhile_append_of_pos _ _ s [] (bne_of_not_mem h)
  simp [cut, ht, hd]

theorem cut_append_cons {c : Char} {s : Text} (h : c ∉ s) (t : Text) :
    cut c (s ++ c :: t) = (s, some t) := by
  simp [cut, List.takeWhile_append_of_pos (bne_of_not_mem h),
    List.dropWhile_append_of_pos (bne_of_not_mem h)]

theorem cut_append_lead_of_not_mem {c : Char} {s : Text} (h : c ∉ s) (t? : Option Text) :
    cut c (s ++ lead c t?) = (s, t?) := by
  cases t? with
  | none => simp [cut_of_not_mem h]
  | some t => exact cut_append_cons h t

@[simp] theorem cut_append_lead (c : Char) (s : Text) : (cut c s).1 ++ lead c (cut c s).2 = s := by
  by_cases h : c ∈ s
  · obtain ⟨a, b, rfl, ha⟩ := List.eq_append_cons_of_mem h
    simp [cut_append_cons ha]
  · simp [cut_of_not_mem h]

/-- First and last code point of each range of characters with Unicode's property `White_Space`. -/
def whiteSpaceRanges : List (Nat × Nat) :=
  [(0x09, 0x0D), (0x20, 0x20), (0x85, 0x85), (0xA0, 0xA0), (0x1680, 0x1680), (0x2000, 0x200A),
    (0x2028, 0x2029), (0x202F, 0x202F), (0x205F, 0x205F), (0x3000, 0x3000)]

def isWhiteSpace (c : Char) : Bool :=
  whiteSpaceRanges.any fun r => r.1 ≤ c.toNat && c.toNat ≤ r.2

/-- A text is blank if it holds white space only; the empty text is blank. -/
def isBlank (s : Text) : Bool := s.all isWhiteSpace

/-- What follows a word at the front of a text. -/
def after? (word s : Text) : Option Text :=
  if word.isPrefixOf s then some (s.drop word.length) else none

theorem after?_eq_some_iff {word s rest : Text} :
    after? word s = some rest ↔ s = word ++ rest := by
  simp only [after?, List.isPrefixOf_iff_prefix, Option.ite_none_right_eq_some, Option.some.injEq]
  constructor
  · rintro ⟨h, rfl⟩
    exact List.prefix_iff_eq_append.mp h |>.symm
  · rintro rfl
    simp

/-- Moves characters to `passed`, which is kept backwards, until the word is at the front. -/
def findFrom (word passed : Text) : Text → Option (Text × Text)
  | [] => (after? word []).map (passed.reverse, ·)
  | c :: s =>
    match after? word (c :: s) with
    | some rest => some (passed.reverse, rest)
    | none => findFrom word (c :: passed) s

/-- The text before the first occurrence of a word, and the text after it. -/
def findWord? (word s : Text) : Option (Text × Text) := findFrom word [] s

private theorem findFrom_eq_some {word passed s before rest : Text}
    (h : findFrom word passed s = some (before, rest)) :
    passed.reverse ++ s = before ++ (word ++ rest) := by
  induction s generalizing passed with
  | nil =>
    simp only [findFrom, Option.map_eq_some_iff, after?_eq_some_iff, Prod.mk.injEq] at h
    obtain ⟨r, hr, rfl, rfl⟩ := h
    simp [← hr]
  | cons c s ih =>
    rw [findFrom] at h
    split at h
    next r hr =>
      simp only [Option.some.injEq, Prod.mk.injEq] at h
      rw [after?_eq_some_iff.mp hr, h.1, h.2]
    next => simpa using ih h

theorem eq_append_of_findWord? {word s before rest : Text}
    (h : findWord? word s = some (before, rest)) : s = before ++ (word ++ rest) := by
  simpa using findFrom_eq_some h

/-- The lines of a text: the texts between its line feeds. -/
def lines : Text → List Text
  | [] => [[]]
  | c :: s =>
    if c = '\n' then [] :: lines s
    else
      match lines s with
      | [] => [[c]]
      | line :: rest => (c :: line) :: rest

/-- A text between quotation marks, in which nothing is escaped. -/
def enquote (s : Text) : Text := '"' :: s ++ ['"']

/-- A character inside a JSON string. Quotation mark, backslash and control characters are escaped,
the latter by a letter where JSON has one and by two lower-case hexadecimal digits otherwise. -/
def jsonChar (c : Char) : Text :=
  if c = '"' then ['\\', '"']
  else if c = '\\' then ['\\', '\\']
  else if c = '\x08' then ['\\', 'b']
  else if c = '\x0c' then ['\\', 'f']
  else if c = '\n' then ['\\', 'n']
  else if c = '\r' then ['\\', 'r']
  else if c = '\t' then ['\\', 't']
  else if c.toNat < 0x20 then
    ['\\', 'u', '0', '0', Nat.digitChar (c.toNat / 16), Nat.digitChar (c.toNat % 16)]
  else [c]

def json (s : Text) : Text := enquote (s.flatMap jsonChar)

/-- Named texts as a JSON object, in their order. -/
def jsonObject (members : List (Text × Text)) : Text :=
  '{' :: [','].intercalate (members.map fun m => json m.1 ++ ':' :: json m.2) ++ ['}']

end Text

end LinkTemplate
