import LinkTemplate.Proofs.Template.Matching

/-!
# Patterns as regular expressions

A regular expression is searched for by trying: every hole takes as much text as it can and gives
back one character after the other until the rest can be read. The search of a pattern needs no such
trials and finds the same. The pattern can be read back from its expression.
-/

namespace LinkTemplate

namespace Pattern

/-- The longest value without a line feed after which `next` can read on, and what it reads. -/
def readHole (next : Text → Option (List Text)) : Text → Option (Text × List Text)
  | [] => (next []).map ([], ·)
  | c :: s =>
    if c = '\n' then (next (c :: s)).map ([], ·)
    else
      match readHole next s with
      | some (value, values) => some (c :: value, values)
      | none => (next (c :: s)).map ([], ·)

/-- The values of holes that are read from the front of a text, the first of them first. The literal
text at the end has to be followed by one that `atEnd` admits. -/
def read (atEnd : Text → Bool) (last : Text) : List Text → Text → Option (List Text)
  | [], s => ((Text.after? last s).filter atEnd).map fun _ => []
  | stem :: stems, s =>
    match Text.after? stem s with
    | none => none
    | some rest => (readHole (read atEnd last stems) rest).map fun r => r.1 :: r.2

/-- What can be read at the earliest place of a text. -/
def readAnywhere (p : Pattern) : Text → Option Occurrence
  | [] => (read (fun _ => true) p.last p.stems []).map (⟨[], ·⟩)
  | c :: s =>
    match read (fun _ => true) p.last p.stems (c :: s) with
    | some values => some ⟨[], values⟩
    | none => (readAnywhere p s).map fun o => ⟨c :: o.before, o.values⟩

variable {p : Pattern} {o o' : Occurrence} {next : Text → Option (List Text)} {atEnd : Text → Bool}
  {last s : Text} {stems values : List Text}

private theorem eq_append_of_readHole {value : Text} (h : readHole next s = some (value, values)) :
    '\n' ∉ value ∧ ∃ rest, s = value ++ rest ∧ next rest = some values := by
  induction s generalizing value with
  | nil =>
    simp only [readHole, Option.map_eq_some_iff, Prod.mk.injEq] at h
    obtain ⟨_, hnext, rfl, rfl⟩ := h
    exact ⟨List.not_mem_nil, [], rfl, hnext⟩
  | cons c s ih =>
    have hshort : (next (c :: s)).map (([] : Text), ·) = some (value, values) →
        '\n' ∉ value ∧ ∃ rest, c :: s = value ++ rest ∧ next rest = some values := by
      intro h
      simp only [Option.map_eq_some_iff, Prod.mk.injEq] at h
      obtain ⟨_, hnext, rfl, rfl⟩ := h
      exact ⟨List.not_mem_nil, c :: s, rfl, hnext⟩
    rw [readHole] at h
    by_cases hc : c = '\n'
    · rw [if_pos hc] at h
      exact hshort h
    · rw [if_neg hc] at h
      cases hlong : readHole next s with
      | none =>
        rw [hlong] at h
        exact hshort h
      | some r =>
        obtain ⟨value', values'⟩ := r
        rw [hlong] at h
        cases h
        obtain ⟨hinline, rest, rfl, hnext⟩ := ih hlong
        exact ⟨by simp [hinline, Ne.symm hc], rest, rfl, hnext⟩

private theorem readHole_of_next {value rest : Text} (hinline : '\n' ∉ value)
    (h : next rest = some values) :
    ∃ r, readHole next (value ++ rest) = some r ∧
      (value.length < r.1.length ∨ r = (value, values)) := by
  induction value with
  | nil =>
    rw [List.nil_append]
    cases rest with
    | nil => exact ⟨([], values), by rw [readHole, h]; rfl, .inr rfl⟩
    | cons c s =>
      rw [readHole]
      split
      next => exact ⟨([], values), by rw [h]; rfl, .inr rfl⟩
      next =>
        split
        next value' values' _ => exact ⟨_, rfl, .inl (Nat.succ_pos _)⟩
        next => exact ⟨([], values), by rw [h]; rfl, .inr rfl⟩
  | cons c value ih =>
    rw [List.mem_cons, not_or] at hinline
    obtain ⟨⟨value', values'⟩, hread, hr⟩ := ih hinline.2
    refine ⟨(c :: value', values'), ?_, ?_⟩
    · rw [List.cons_append, readHole, if_neg (Ne.symm hinline.1), hread]
    · rcases hr with hlt | he
      · exact .inl (Nat.succ_lt_succ hlt)
      · cases he
        exact .inr rfl

private theorem weave_of_read (h : read atEnd last stems s = some values) :
    values.length = stems.length ∧ (∀ value ∈ values, '\n' ∉ value) ∧
      ∃ after, s = weave stems values ++ (last ++ after) ∧ atEnd after = true := by
  induction stems generalizing s values with
  | nil =>
    simp only [read, Option.map_eq_some_iff, Option.filter_eq_some_iff,
      Text.after?_eq_some_iff] at h
    obtain ⟨after, ⟨hs, hafter⟩, rfl⟩ := h
    exact ⟨rfl, by simp, after, hs, hafter⟩
  | cons stem stems ih =>
    rw [read] at h
    cases hstem : Text.after? stem s with
    | none =>
      rw [hstem] at h
      cases h
    | some rest =>
      rw [hstem] at h
      obtain ⟨⟨value, values⟩, hhole, rfl⟩ := Option.map_eq_some_iff.mp h
      obtain ⟨hinline, rest', rfl, hnext⟩ := eq_append_of_readHole hhole
      obtain ⟨hl, hinlines, after, rfl, hafter⟩ := ih hnext
      refine ⟨congrArg Nat.succ hl, ?_, after, ?_, hafter⟩
      · simpa using ⟨hinline, hinlines⟩
      · rw [Text.after?_eq_some_iff.mp hstem, weave_cons]
        simp only [List.append_assoc]

private theorem read_of_weave {after : Text} (hl : values.length = stems.length)
    (hinline : ∀ value ∈ values, '\n' ∉ value) (hafter : atEnd after = true) :
    ∃ found, read atEnd last stems (weave stems values ++ (last ++ after)) = some found ∧
      Dominates found values := by
  induction stems generalizing values with
  | nil =>
    obtain rfl := List.length_eq_zero_iff.mp hl
    refine ⟨[], ?_, trivial⟩
    have hlast : Text.after? last (last ++ after) = some after := Text.after?_eq_some_iff.mpr rfl
    simp [read, hlast, hafter]
  | cons stem stems ih =>
    obtain ⟨value, values, rfl⟩ := List.exists_cons_of_length_eq_add_one hl
    rw [List.forall_mem_cons] at hinline
    obtain ⟨found, hfound, hdom⟩ := ih (Nat.succ.inj hl) hinline.2
    obtain ⟨⟨value', values'⟩, hhole, hr⟩ := readHole_of_next hinline.1 hfound
    refine ⟨value' :: values', ?_, ?_⟩
    · have hstem : Text.after? stem (weave (stem :: stems) (value :: values) ++ (last ++ after)) =
          some (value ++ (weave stems values ++ (last ++ after))) := by
        rw [Text.after?_eq_some_iff, weave_cons]
        simp only [List.append_assoc]
      rw [read, hstem]
      simp only [hhole, Option.map_some]
    · rcases hr with hlt | he
      · exact .inl hlt
      · cases he
        exact .inr ⟨rfl, hdom⟩

private theorem occurs_of_read (h : read (fun _ => true) p.last p.stems s = some values) :
    p.Occurs ⟨[], values⟩ s := by
  obtain ⟨hl, hinline, after, hs, -⟩ := weave_of_read h
  refine ⟨⟨hl, hinline⟩, after, ?_⟩
  rw [hs, fill_eq, List.nil_append, List.append_assoc]

private theorem occurs_of_readAnywhere (h : p.readAnywhere s = some o) : p.Occurs o s := by
  induction s generalizing o with
  | nil =>
    obtain ⟨values, hread, rfl⟩ := Option.map_eq_some_iff.mp h
    exact occurs_of_read hread
  | cons c s ih =>
    rw [readAnywhere] at h
    cases hread : read (fun _ => true) p.last p.stems (c :: s) with
    | some values =>
      rw [hread] at h
      cases h
      exact occurs_of_read hread
    | none =>
      rw [hread] at h
      obtain ⟨found, hfound, rfl⟩ := Option.map_eq_some_iff.mp h
      obtain ⟨hfits, after, hs⟩ := ih hfound
      exact ⟨hfits, after, by rw [hs]; rfl⟩

private theorem readAnywhere_of_read (h : read (fun _ => true) p.last p.stems s = some values) :
    p.readAnywhere s = some ⟨[], values⟩ := by
  cases s with
  | nil => rw [readAnywhere, h, Option.map_some]
  | cons c s => rw [readAnywhere, h]

private theorem readAnywhere_of_occurs (h : p.Occurs o s) :
    ∃ found, p.readAnywhere s = some found ∧ found.Precedes o := by
  obtain ⟨before, values⟩ := o
  obtain ⟨hfits, after, rfl⟩ := h
  induction before with
  | nil =>
    obtain ⟨found, hread, hdom⟩ :=
      @read_of_weave (fun _ => true) p.last p.stems values after hfits.length_eq hfits.inline rfl
    refine ⟨⟨[], found⟩, ?_, .inr ⟨rfl, hdom⟩⟩
    apply readAnywhere_of_read
    rw [List.nil_append, fill_eq, List.append_assoc]
    exact hread
  | cons c before ih =>
    change ∃ found, p.readAnywhere (c :: (before ++ (p.fill values ++ after))) = some found ∧ _
    rw [readAnywhere]
    cases read (fun _ => true) p.last p.stems (c :: (before ++ (p.fill values ++ after))) with
    | some found => exact ⟨_, rfl, .inl (Nat.succ_pos _)⟩
    | none =>
      obtain ⟨found, hfound, hprec⟩ := ih hfits
      refine ⟨_, congrArg (Option.map _) hfound, ?_⟩
      rcases hprec with hlt | ⟨he, hdom⟩
      · exact .inl (Nat.succ_lt_succ hlt)
      · exact .inr ⟨congrArg Nat.succ he, hdom⟩

theorem Occurs.eq_of_precedes (h : p.Occurs o s) (h' : p.Occurs o' s) (ho : o.Precedes o')
    (ho' : o'.Precedes o) : o = o' := by
  have hl := h.fits.length_eq
  have hl' := h'.fits.length_eq
  have hlength : o.before.length = o'.before.length := by
    simp only [Occurrence.Precedes] at ho ho'
    omega
  have hdom : Dominates o.values o'.values := by
    simpa [Occurrence.Precedes, hlength] using ho
  have hdom' : Dominates o'.values o.values := by
    simpa [Occurrence.Precedes, hlength] using ho'
  obtain ⟨after, htext⟩ := h.text
  obtain ⟨after', htext'⟩ := h'.text
  obtain ⟨hbefore, hfill⟩ := List.append_inj (htext.symm.trans htext') hlength
  rw [fill_eq, fill_eq, List.append_assoc, List.append_assoc] at hfill
  have hlengths : o.values.map Text.byteLength = o'.values.map Text.byteLength := by
    apply le_antisymm
    · exact lengths_le_of_dominates hl' hl hfill.symm hdom'
    · exact lengths_le_of_dominates hl hl' hfill hdom
  have hvalues : o.values = o'.values := eq_of_lengths_eq hl hl' hfill hlengths
  exact congrArg₂ Occurrence.mk hbefore hvalues

/-- The search of a pattern finds what backtracking finds. -/
theorem find?_eq_readAnywhere (hp : p.Inline) (s : Text) : p.find? s = p.readAnywhere s := by
  cases hfind : p.find? s with
  | none =>
    cases hread : p.readAnywhere s with
    | none => rfl
    | some o =>
      obtain ⟨found, hfound, -⟩ := find?_of_occurs hp (occurs_of_readAnywhere hread)
      rw [hfind] at hfound
      cases hfound
  | some o =>
    have ho := occurs_of_find? hfind
    obtain ⟨found, hread, hprec⟩ := readAnywhere_of_occurs ho
    have hfound := occurs_of_readAnywhere hread
    obtain ⟨o', hfind', hprec'⟩ := find?_of_occurs hp hfound
    rw [hfind] at hfind'
    cases hfind'
    rw [hread, hfound.eq_of_precedes ho hprec hprec']

/-- A pattern matches a text if backtracking can read it to its end. -/
theorem isMatch_eq_read (hp : p.Inline) (s : Text) :
    p.isMatch s = (read List.isEmpty p.last p.stems s).isSome := by
  rw [Bool.eq_iff_iff, isMatch_iff hp, Option.isSome_iff_exists]
  constructor
  · rintro ⟨values, hfits, rfl⟩
    obtain ⟨found, hread, -⟩ :=
      @read_of_weave List.isEmpty p.last p.stems values [] hfits.length_eq hfits.inline rfl
    refine ⟨found, ?_⟩
    rw [fill_eq]
    simpa using hread
  · rintro ⟨values, hread⟩
    obtain ⟨hl, hinline, after, rfl, hafter⟩ := weave_of_read hread
    rw [List.isEmpty_iff] at hafter
    refine ⟨values, ⟨hl, hinline⟩, ?_⟩
    rw [hafter, List.append_nil, fill_eq]

/-- A pattern with a character in front. -/
def consChar (c : Char) : Pattern → Pattern
  | ⟨[], last⟩ => ⟨[], c :: last⟩
  | ⟨stem :: stems, last⟩ => ⟨(c :: stem) :: stems, last⟩

/-- A pattern with a hole in front. -/
def consHole (p : Pattern) : Pattern := ⟨[] :: p.stems, p.last⟩

/-- Reads a regular expression from left to right. A backslash makes the next character literal, and
`(.*)` is a hole. Any other character stands for itself, unless it has a meaning of its own. -/
def ofExpression? : Text → Option Pattern
  | [] => some ⟨[], []⟩
  | '\\' :: c :: s => (ofExpression? s).map (consChar c)
  | '(' :: '.' :: '*' :: ')' :: s => (ofExpression? s).map consHole
  | c :: s => if isMeta c then none else (ofExpression? s).map (consChar c)

theorem foldr_consChar_nil (s last : Text) : s.foldr consChar ⟨[], last⟩ = ⟨[], s ++ last⟩ := by
  induction s with
  | nil => rfl
  | cons c s ih => rw [List.foldr_cons, ih, consChar, List.cons_append]

theorem foldr_consChar_cons (s stem : Text) (stems : List Text) (last : Text) :
    s.foldr consChar ⟨stem :: stems, last⟩ = ⟨(s ++ stem) :: stems, last⟩ := by
  induction s with
  | nil => rfl
  | cons c s ih => rw [List.foldr_cons, ih, consChar, List.cons_append]

theorem ofExpression?_cons {c : Char} (h : isMeta c = false) (s : Text) :
    ofExpression? (c :: s) = (ofExpression? s).map (consChar c) := by
  rw [ofExpression?, h]
  · rfl
  · rintro d t rfl
    exact absurd h (by decide)
  · rintro t rfl
    exact absurd h (by decide)

theorem ofExpression?_escape_append (s rest : Text) :
    ofExpression? (escape s ++ rest) = (ofExpression? rest).map fun p => s.foldr consChar p := by
  induction s with
  | nil => simp [escape]
  | cons c s ih =>
    have hescape : escape (c :: s) = (if isMeta c then ['\\', c] else [c]) ++ escape s := rfl
    rw [hescape, List.append_assoc]
    cases hc : isMeta c with
    | true => simp [ofExpression?, ih, Function.comp_def]
    | false => simp [ofExpression?_cons hc, ih, Function.comp_def]

theorem text_cons (stem : Text) (stems : List Text) (last : Text) :
    text ⟨stem :: stems, last⟩ = escape stem ++ ("(.*)".toList ++ text ⟨stems, last⟩) := by
  simp [text]

/-- A pattern is read back from its regular expression. -/
theorem ofExpression?_text (p : Pattern) : ofExpression? p.text = some p := by
  obtain ⟨stems, last⟩ := p
  induction stems with
  | nil =>
    have htext : text ⟨[], last⟩ = escape last ++ [] := by simp [text]
    rw [htext, ofExpression?_escape_append, ofExpression?, Option.map_some, foldr_consChar_nil,
      List.append_nil]
  | cons stem stems ih =>
    have hhole : ofExpression? ("(.*)".toList ++ text ⟨stems, last⟩) =
        (ofExpression? (text ⟨stems, last⟩)).map consHole := rfl
    rw [text_cons, ofExpression?_escape_append, hhole, ih, Option.map_some, Option.map_some,
      consHole, foldr_consChar_cons, List.append_nil]

example : ofExpression? "s:\\(\\.\\*\\)(.*)(.*)".toList = some ⟨["s:(.*)".toList, []], []⟩ := by
  decide

theorem escape_append (s t : Text) : escape (s ++ t) = escape s ++ escape t := List.flatMap_append

theorem getLast?_escape (s : Text) : (escape s).getLast? = s.getLast? := by
  rcases s.eq_nil_or_concat with rfl | ⟨front, c, rfl⟩
  · rfl
  · rw [List.concat_eq_append, escape_append, List.getLast?_append, List.getLast?_concat]
    cases hc : isMeta c <;> simp [escape, hc]

theorem dropFinalSlash_append_escape {front : Text} (h : front.getLast? ≠ some '/') (s : Text) :
    dropFinalSlash (front ++ escape s) = front ++ escape (dropFinalSlash s) := by
  by_cases hs : s.getLast? = some '/'
  · obtain ⟨init, rfl⟩ := List.getLast?_eq_some_iff.mp hs
    have hslash : escape ['/'] = ['/'] := by decide
    rw [escape_append, hslash, ← List.append_assoc, dropFinalSlash_concat, dropFinalSlash_concat]
  · have hlast : (front ++ escape s).getLast? ≠ some '/' := by
      rw [List.getLast?_append, getLast?_escape]
      cases hc : s.getLast? with
      | none => exact h
      | some c => rwa [hc] at hs
    rw [dropFinalSlash, if_neg hlast, dropFinalSlash, if_neg hs]

end Pattern

open Pattern (escape dropFinalSlash)

/-- The literal texts of a layout, each encoded and escaped, with a group for each placeholder. -/
def Layout.expression (l : Layout) : Text :=
  l.slots.flatMap (fun slot => escape (Uri.encodeText slot.literal) ++ "(.*)".toList) ++
    escape (Uri.encodeText l.last)

theorem Pattern.text_ofLayout (l : Layout) : (ofLayout l).text = dropFinalSlash l.expression := by
  have hfront : (l.slots.flatMap fun slot =>
      escape (Uri.encodeText slot.literal) ++ "(.*)".toList).getLast? ≠ some '/' := by
    rcases l.slots.eq_nil_or_concat with hslots | ⟨slots, slot, hslots⟩
    · simp [hslots]
    · simp [hslots, List.getLast?_append]
  rw [Layout.expression, dropFinalSlash_append_escape hfront, text, ofLayout, List.flatMap_map]

namespace Template

/-- A template's regular expression is made of its literal texts, encoded and escaped, and of one
group for each placeholder, without the slash at the very end if there is one. Read from left to
right, it has the encoded literal texts with a hole for each placeholder between them. The last of
them is without its final slash if and only if the template ends in one. -/
theorem ofExpression?_pattern (t : Template) :
    t.pattern.text = dropFinalSlash t.layout.expression ∧
      ∃ stems last, Pattern.ofExpression? t.pattern.text = some ⟨stems, last⟩ ∧
        stems.length = t.count ∧
        stems ++ [if t.text.getLast? = some '/' then last ++ ['/'] else last] =
          t.layout.literals.map Uri.encodeText := by
  refine ⟨Pattern.text_ofLayout t.layout, t.stems, t.ending, ?_, List.length_map _, ?_⟩
  · rw [Pattern.ofExpression?_text, pattern_eq]
  · have hlast : (if t.text.getLast? = some '/' then t.ending ++ ['/'] else t.ending) =
        Uri.encodeText t.layout.last := by
      split
      next h => exact ending_append_slash h
      next h => rw [ending, if_neg h]
    rw [hlast, Layout.literals, List.map_append, List.map_map]
    rfl

end Template

end LinkTemplate
