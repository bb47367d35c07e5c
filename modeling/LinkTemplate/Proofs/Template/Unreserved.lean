import LinkTemplate.Proofs.Template.Matching

/-!
# Expansions with unreserved values

A pattern has each literal text encoded on its own, a URI has it encoded where it stands. The two
may differ in the number signs and brackets, and only then is an expansion not matched.
-/

namespace LinkTemplate

namespace Uri

open Percent (escapeByte encodeChar isEscapeDigit)

/-- The number sign or bracket at the front of a text, as it is written there. -/
def markAt? : Text → Option Text
  | '#' :: _ => some ['#']
  | '[' :: _ => some ['[']
  | ']' :: _ => some [']']
  | '%' :: '2' :: '3' :: _ => some ['%', '2', '3']
  | '%' :: '5' :: 'B' :: _ => some ['%', '5', 'B']
  | '%' :: '5' :: 'D' :: _ => some ['%', '5', 'D']
  | _ => none

/-- The number signs and brackets of an encoded text in order, each kept or escaped. -/
def marks : Text → List Text
  | [] => []
  | c :: s => (markAt? (c :: s)).toList ++ marks s

theorem marks_cons (c : Char) (s : Text) : marks (c :: s) = (markAt? (c :: s)).toList ++ marks s :=
  rfl

theorem markAt?_append {s m : Text} (h : markAt? s = some m) (t : Text) :
    markAt? (s ++ t) = some m := by
  unfold markAt? at h
  split at h <;> first | exact h | cases h

theorem marks_append_sublist (s t : Text) : (marks s ++ marks t).Sublist (marks (s ++ t)) := by
  induction s with
  | nil => exact List.Sublist.refl _
  | cons c s ih =>
    rw [List.cons_append, marks_cons, marks_cons, List.append_assoc]
    cases hm : markAt? (c :: s) with
    | none => exact ih.trans (List.sublist_append_right _ _)
    | some m =>
      have hm' := markAt?_append hm t
      rw [List.cons_append] at hm'
      rw [hm']
      exact (List.Sublist.refl _).append ih

private theorem markAt?_cons_eq_none {c : Char} (hc : isMark c = false) (hp : c ≠ '%') (s : Text) :
    markAt? (c :: s) = none := by
  unfold markAt?
  split
  next h =>
    cases h
    exact absurd hc (by decide)
  next h =>
    cases h
    exact absurd hc (by decide)
  next h =>
    cases h
    exact absurd hc (by decide)
  next h =>
    cases h
    exact absurd rfl hp
  next h =>
    cases h
    exact absurd rfl hp
  next h =>
    cases h
    exact absurd rfl hp
  next => rfl

private theorem marks_cons_of_not_isMark {c : Char} (hc : isMark c = false) (hp : c ≠ '%')
    (s : Text) : marks (c :: s) = marks s := by
  rw [marks_cons, markAt?_cons_eq_none hc hp]
  rfl

private theorem marks_digit {d : Char} (hd : isEscapeDigit d = true) (s : Text) :
    marks (d :: s) = marks s := by
  apply marks_cons_of_not_isMark
  · cases hm : isMark d with
    | false => rfl
    | true =>
      rcases isMark_iff.mp hm with rfl | rfl | rfl
      all_goals exact absurd hd (by decide)
  · rintro rfl
    exact absurd hd (by decide)

private theorem markAt?_escapeByte {b : UInt8} {s m : Text}
    (h : markAt? (escapeByte b ++ s) = some m) : b = 0x23 ∨ b = 0x5B ∨ b = 0x5D := by
  unfold markAt? at h
  split at h
  next he => cases he
  next he => cases he
  next he => cases he
  next t he =>
    have hb : b = 0x23 := Percent.eq_of_escapeByte_append (t := t) he
    exact .inl hb
  next t he =>
    have hb : b = 0x5B := Percent.eq_of_escapeByte_append (t := t) he
    exact .inr (.inl hb)
  next t he =>
    have hb : b = 0x5D := Percent.eq_of_escapeByte_append (t := t) he
    exact .inr (.inr hb)
  next => cases h

private theorem isMark_of_mem_utf8EncodeChar {c : Char} {b : UInt8}
    (hb : b ∈ String.utf8EncodeChar c) (h : b = 0x23 ∨ b = 0x5B ∨ b = 0x5D) : isMark c = true := by
  have hfirst : b.IsUTF8FirstByte := by
    rcases h with rfl | rfl | rfl <;> decide
  obtain ⟨i, hi, rfl⟩ := List.getElem_of_mem hb
  obtain rfl := UInt8.isUTF8FirstByte_getElem_utf8EncodeChar.mp hfirst
  have hhead {d : Char} (hd : String.utf8EncodeChar d = [(String.utf8EncodeChar c)[0]]) :
      d = c := by
    have hsplit : String.utf8EncodeChar d ++ (String.utf8EncodeChar c).tail =
        String.utf8EncodeChar c ++ [] := by
      rw [hd, List.append_nil, List.singleton_append, List.getElem_zero, List.cons_head_tail]
    exact Percent.eq_of_utf8EncodeChar_append hsplit
  rcases h with h | h | h
  · rw [← hhead (d := '#') (by rw [h]; decide)]
    decide
  · rw [← hhead (d := '[') (by rw [h]; decide)]
    decide
  · rw [← hhead (d := ']') (by rw [h]; decide)]
    decide

private theorem marks_escapes {bs : List UInt8}
    (h : ∀ b ∈ bs, ¬(b = 0x23 ∨ b = 0x5B ∨ b = 0x5D)) (s : Text) :
    marks (bs.flatMap escapeByte ++ s) = marks s := by
  induction bs with
  | nil => rfl
  | cons b bs ih =>
    rw [List.flatMap_cons, List.append_assoc, ← ih fun e he => h e (List.mem_cons_of_mem _ he)]
    generalize bs.flatMap escapeByte ++ s = t
    have hb : markAt? (escapeByte b ++ t) = none := by
      cases hm : markAt? (escapeByte b ++ t) with
      | none => rfl
      | some m => exact absurd (markAt?_escapeByte hm) (h b List.mem_cons_self)
    rw [escapeByte, List.cons_append, List.cons_append, List.cons_append, List.nil_append] at hb ⊢
    rw [marks_cons, hb, marks_digit (Percent.isEscapeDigit_high b),
      marks_digit (Percent.isEscapeDigit_low b)]
    rfl

theorem marks_encodeChar_append {c : Char} (hc : isMark c = false) (s : Text) :
    marks (encodeChar isKeptChar c ++ s) = marks s := by
  unfold encodeChar
  split
  next hk =>
    have hp : c ≠ '%' := by
      rintro rfl
      exact absurd hk (by decide)
    exact marks_cons_of_not_isMark hc hp s
  next =>
    apply marks_escapes
    intro b hb h
    rw [isMark_of_mem_utf8EncodeChar hb h] at hc
    exact absurd hc (by decide)

theorem marks_encodeChar_mark_append {c : Char} (hc : isMark c = true) (s : Text) :
    marks (encodeChar isKeptChar c ++ s) = encodeChar isKeptChar c :: marks s := by
  rcases isMark_iff.mp hc with rfl | rfl | rfl <;> rfl

theorem marks_mark_cons {c : Char} (hc : isMark c = true) (s : Text) :
    marks (c :: s) = [c] :: marks s := by
  rcases isMark_iff.mp hc with rfl | rfl | rfl <;> rfl

theorem encodeChar_mark_ne {c : Char} (hc : isMark c = true) : encodeChar isKeptChar c ≠ [c] := by
  rcases isMark_iff.mp hc with rfl | rfl | rfl <;> decide

namespace Written

variable {s u v : Text}

theorem marks_append (h : Written s u) (v : Text) : marks (u ++ v) = marks u ++ marks v := by
  induction h with
  | nil => rfl
  | encoded c _ ih =>
    rw [List.append_assoc]
    cases hc : isMark c with
    | false => rw [marks_encodeChar_append hc, marks_encodeChar_append hc, ih]
    | true =>
      rw [marks_encodeChar_mark_append hc, marks_encodeChar_mark_append hc, ih, List.cons_append]
  | mark hc _ ih =>
    rw [List.cons_append, marks_mark_cons hc, marks_mark_cons hc, ih, List.cons_append]

theorem length_marks (h : Written s u) : (marks u).length = s.countP isMark := by
  induction h with
  | nil => rfl
  | encoded c _ ih =>
    cases hc : isMark c with
    | false => rw [marks_encodeChar_append hc, ih, List.countP_cons_of_neg (by rw [hc]; decide)]
    | true =>
      rw [marks_encodeChar_mark_append hc, List.length_cons, ih, List.countP_cons_of_pos hc]
  | mark hc _ ih => rw [marks_mark_cons hc, List.length_cons, ih, List.countP_cons_of_pos hc]

/-- Two written forms of a text with the same marks are the same. -/
theorem eq_of_marks (h : Written s u) (h' : Written s v) (hm : marks u = marks v) : u = v := by
  induction h generalizing v with
  | nil => exact h'.eq_nil.symm
  | encoded c _ ih =>
    cases hc : isMark c with
    | false =>
      cases h' with
      | encoded _ h' =>
        rw [marks_encodeChar_append hc, marks_encodeChar_append hc] at hm
        rw [ih h' hm]
      | mark hc' _ =>
        rw [hc] at hc'
        exact absurd hc' Bool.false_ne_true
    | true =>
      rw [marks_encodeChar_mark_append hc] at hm
      cases h' with
      | encoded _ h' =>
        rw [marks_encodeChar_mark_append hc, List.cons.injEq] at hm
        rw [ih h' hm.2]
      | mark _ h' =>
        rw [marks_mark_cons hc, List.cons.injEq] at hm
        exact absurd hm.1 (encodeChar_mark_ne hc)
  | mark hc _ ih =>
    rw [marks_mark_cons hc] at hm
    cases h' with
    | encoded _ h' =>
      rw [marks_encodeChar_mark_append hc, List.cons.injEq] at hm
      exact absurd hm.1.symm (encodeChar_mark_ne hc)
    | mark _ h' =>
      rw [marks_mark_cons hc, List.cons.injEq] at hm
      rw [ih h' hm.2]

end Written

/-- The characters that no part of a URI gives a meaning to. -/
def isUnreserved (c : Char) : Bool := c.isAlphanum || "-_.~".toList.contains c

theorem isMark_of_isUnreserved {c : Char} (h : isUnreserved c = true) : isMark c = false := by
  cases hm : isMark c with
  | false => rfl
  | true =>
    rcases isMark_iff.mp hm with rfl | rfl | rfl
    all_goals exact absurd h (by decide)

end Uri

open Pattern (weave)
open Uri (Written marks)

private theorem marks_weave_sublist {stems values : List Text} (h : values.length = stems.length)
    (t : Text) : (stems.flatMap marks ++ marks t).Sublist (marks (weave stems values ++ t)) := by
  induction stems generalizing values with
  | nil => exact List.Sublist.refl _
  | cons stem stems ih =>
    cases values with
    | nil => exact absurd h.symm (Nat.succ_ne_zero _)
    | cons value values =>
      rw [Pattern.weave_cons, List.flatMap_cons, List.append_assoc, List.append_assoc,
        List.append_assoc]
      apply List.Sublist.trans _ (Uri.marks_append_sublist _ _)
      apply (List.Sublist.refl _).append
      apply List.Sublist.trans _ (Uri.marks_append_sublist _ _)
      exact (ih (by simpa using h)).trans (List.sublist_append_right _ _)

private theorem marks_weave {texts stems raw values : List Text}
    (hs : List.Forall₂ Written texts stems) (hv : List.Forall₂ Written raw values)
    (hl : values.length = stems.length) (hplain : ∀ value ∈ raw, ∀ c ∈ value, Uri.isMark c = false)
    (t : Text) : marks (weave stems values ++ t) = stems.flatMap marks ++ marks t := by
  induction hs generalizing raw values with
  | nil => rfl
  | @cons text stem texts stems hstem _ ih =>
    cases hv with
    | nil => exact absurd hl.symm (Nat.succ_ne_zero _)
    | @cons v w raw values hvalue hvalues =>
      have hnone : marks w = [] := by
        rw [← List.length_eq_zero_iff, hvalue.length_marks, List.countP_eq_zero]
        intro c hc
        rw [hplain v List.mem_cons_self c hc]
        exact Bool.false_ne_true
      rw [Pattern.weave_cons, List.append_assoc, List.append_assoc, hstem.marks_append,
        hvalue.marks_append, hnone, List.nil_append,
        ih hvalues (by simpa using hl) fun x hx => hplain x (List.mem_cons_of_mem _ hx),
        List.flatMap_cons, List.append_assoc]

private theorem eq_of_flatMap_marks {texts xs ys : List Text} (hx : List.Forall₂ Written texts xs)
    (hy : List.Forall₂ Written texts ys) (h : xs.flatMap marks = ys.flatMap marks) : xs = ys := by
  induction hx generalizing ys with
  | nil => exact (List.forall₂_nil_left_iff.mp hy).symm
  | cons hhead _ ih =>
    cases hy with
    | cons hhead' hy =>
      rw [List.flatMap_cons, List.flatMap_cons] at h
      have hsplit := List.append_inj h (by rw [hhead.length_marks, hhead'.length_marks])
      rw [hhead.eq_of_marks hhead' hsplit.1, ih hy hsplit.2]

private theorem length_flatMap_marks {texts xs ys : List Text} (hx : List.Forall₂ Written texts xs)
    (hy : List.Forall₂ Written texts ys) :
    (xs.flatMap marks).length = (ys.flatMap marks).length := by
  induction hx generalizing ys with
  | nil => rw [List.forall₂_nil_left_iff.mp hy]
  | cons hhead _ ih =>
    cases hy with
    | cons hhead' hy =>
      rw [List.flatMap_cons, List.flatMap_cons, List.length_append, List.length_append,
        hhead.length_marks, hhead'.length_marks, ih hy]

namespace Template

variable {t : Template} {source : Source} {u : Uri} {values : List Text}

private theorem map_encodeText_literals (t : Template) :
    t.layout.literals.map Uri.encodeText = t.pattern.stems ++ [Uri.encodeText t.layout.last] := by
  rw [Layout.literals, List.map_append, List.map_map]
  rfl

theorem isMatch_iff_marks (ending : t.text.getLast? ≠ some '/') (hv : t.values source = .ok values)
    (plain : ∀ value ∈ values, ∀ c ∈ value, Uri.isMark c = false) (h : t.expand source = .ok u) :
    t.isMatch u.text = true ↔
      marks u.text = (t.layout.literals.map Uri.encodeText).flatMap marks := by
  obtain ⟨values', hv', hu⟩ := written_expand h
  obtain rfl : values = values' := Except.ok.inj (hv.symm.trans hv')
  have hl : values.length = (t.layout.slots.map Slot.literal).length := by
    rw [List.length_map, length_values hv]
  rw [Layout.substitute_eq] at hu
  obtain ⟨front, last, hsplit, hfront, hlast⟩ := hu.exists_of_append
  obtain ⟨stems, written, rfl, hs, hw⟩ := hfront.exists_weave hl
  have hlen : written.length = stems.length := by rw [← hw.length_eq, hl, hs.length_eq]
  have hplaced : List.Forall₂ Written t.layout.literals (stems ++ [last]) :=
    List.rel_append hs (.cons hlast .nil)
  have halone := Written.forall₂_encodeText t.layout.literals
  have hmarks : marks u.text = (stems ++ [last]).flatMap marks := by
    rw [hsplit, marks_weave hs hw hlen plain, List.flatMap_append, List.flatMap_singleton]
  rw [isMatch_text_iff, hmarks]
  constructor
  · rintro ⟨found, hfound, hfill⟩
    have hsub := marks_weave_sublist hfound t.pattern.last
    rw [← Pattern.fill_eq, ← hfill, hmarks] at hsub
    have he : t.pattern.stems.flatMap marks ++ marks t.pattern.last =
        (t.layout.literals.map Uri.encodeText).flatMap marks := by
      rw [map_encodeText_literals, List.flatMap_append, List.flatMap_singleton,
        pattern_last ending]
    rw [he] at hsub
    exact (hsub.eq_of_length (length_flatMap_marks halone hplaced)).symm
  · intro he
    have hstems := eq_of_flatMap_marks hplaced halone he
    rw [map_encodeText_literals] at hstems
    obtain ⟨rfl, hlast'⟩ := List.append_inj' hstems rfl
    obtain rfl := List.singleton_injective hlast'
    exact ⟨written, hlen, by rw [hsplit, Pattern.fill_eq, pattern_last ending]⟩

/-- A template that ends in no slash matches its expansion with unreserved values if and only if the
URI has the marks of the literal texts as these have them when they are encoded on their own. -/
theorem isMatch_expand_iff_marks (ending : t.text.getLast? ≠ some '/')
    (hv : t.values source = .ok values)
    (unreserved : ∀ value ∈ values, value.all Uri.isUnreserved = true)
    (h : t.expand source = .ok u) :
    t.isMatch u.text = true ↔
      marks u.text = (t.layout.literals.map Uri.encodeText).flatMap marks := by
  apply isMatch_iff_marks ending hv _ h
  intro value hm c hc
  have hall := List.all_eq_true.mp (unreserved value hm)
  exact Uri.isMark_of_isUnreserved (hall c hc)

/-- The query of the URI keeps brackets that are escaped in the literal text on its own. -/
theorem isMatch_query_brackets : ∃ t u, ofText "/search?q={x}[0]".toList = .ok t ∧
    t.expand (Bindings.positional [.text "1".toList]).source = .ok u ∧
      t.isMatch u.text = false := by
  refine ⟨⟨Layout.scan "/search?q={x}[0]".toList, by decide, by decide, by decide⟩,
    ⟨(Uri.Components.ofText "/search?q=1[0]".toList).encode, _, by decide, rfl⟩, rfl, rfl, ?_⟩
  rw [← Bool.not_eq_true, @isMatch_expand_iff_marks _
    (Bindings.positional [.text "1".toList]).source _ ["1".toList] (by decide) rfl (by decide) rfl]
  decide

end Template

end LinkTemplate
