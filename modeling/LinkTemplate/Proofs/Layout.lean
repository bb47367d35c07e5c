import LinkTemplate.Layout
import Mathlib.Data.List.Forall2

/-!
# Ranges of placeholders

A text has only one list of disjoint ranges that leaves out no placeholder, and a scan finds it.
-/

namespace LinkTemplate

open Text (byteLength)

theorem Text.exists_eq_append_of_byteLength_le {a b s t : Text} (h : a ++ s = b ++ t)
    (hl : byteLength a ≤ byteLength b) : ∃ x, b = a ++ x ∧ s = x ++ t := by
  rcases List.append_eq_append_iff.mp h with ⟨x, hb, hs⟩ | ⟨x, rfl, rfl⟩
  · exact ⟨x, hb, hs⟩
  · have hx : byteLength x = 0 := by
      rw [byteLength_append] at hl
      omega
    rw [byteLength_eq_zero_iff.mp hx]
    exact ⟨[], by simp, rfl⟩

@[simp] theorem Slot.byteLength_text (slot : Slot) :
    byteLength slot.text = byteLength slot.literal + byteLength slot.name + 2 := by
  have hopen : '{'.utf8Size = 1 := by decide
  have hclose : '}'.utf8Size = 1 := by decide
  simp only [text, Text.byteLength_append, Text.byteLength_cons, Text.byteLength_nil, hopen, hclose]
  omega

namespace Layout

/-- A name is at least one character, holds no slash, and holds no closing brace after its first
character. -/
structure IsName (name : Text) : Prop where
  ne_nil : name ≠ []
  slash_not_mem : '/' ∉ name
  brace_not_mem : '}' ∉ name.tail

/-- The text after an opening brace has a closing brace that comes after at least one character, and
no slash before it. -/
def Closes (s : Text) : Prop := ∃ inner rest, s = inner ++ '}' :: rest ∧ inner ≠ [] ∧ '/' ∉ inner

/-- No opening brace of a text closes if `after` follows the text. -/
def Inert : Text → Text → Prop
  | [], _ => True
  | c :: s, after => (c = '{' → ¬Closes (s ++ after)) ∧ Inert s after

/-- A layout whose names are names and whose opening braces outside of placeholders do not close:
those before a placeholder whatever follows, those after the last where the text ends. -/
structure Scanned (l : Layout) : Prop where
  isName : ∀ slot ∈ l.slots, IsName slot.name
  inert : ∀ slot ∈ l.slots, ∀ after, Inert slot.literal after
  inert_last : Inert l.last []

theorem inert_append {s t after : Text} :
    Inert (s ++ t) after ↔ Inert s (t ++ after) ∧ Inert t after := by
  induction s with
  | nil => simp [Inert]
  | cons c s ih => simp only [List.cons_append, Inert, List.append_assoc, ih, and_assoc]

theorem Inert.not_closes {s t after : Text} (h : Inert (s ++ '{' :: t) after) :
    ¬Closes (t ++ after) := (inert_append.mp h).2.1 rfl

/-- A closing brace that comes before a slash stands in the text before that slash. -/
theorem Closes.of_append_slash {s t : Text} (h : Closes (s ++ '/' :: t)) : Closes s := by
  obtain ⟨inner, rest, htext, hne, hslash⟩ := h
  rcases List.append_eq_append_iff.mp htext with ⟨x, rfl, hx⟩ | ⟨x, rfl, hx⟩
  · cases x with
    | nil => simp at hx
    | cons d x =>
      rw [List.cons_append, List.cons.injEq] at hx
      simp [← hx.1] at hslash
  · cases x with
    | nil => simp at hx
    | cons d x =>
      rw [List.cons_append, List.cons.injEq] at hx
      exact ⟨inner, x, by rw [hx.1], hne, hslash⟩

theorem not_closes_of_brace_not_mem_tail {s : Text} (h : '}' ∉ s.tail) : ¬Closes s := by
  rintro ⟨inner, rest, rfl, hne, -⟩
  obtain ⟨c, inner, rfl⟩ := List.exists_cons_of_ne_nil hne
  simp at h

section

variable {after : Text} (stop : ∀ s, Closes (s ++ after) → Closes s)
include stop

theorem not_closes_append {s : Text} (h : '}' ∉ s.tail) : ¬Closes (s ++ after) :=
  fun hcloses => not_closes_of_brace_not_mem_tail h (stop s hcloses)

theorem inert_cons_of_brace_not_mem {c : Char} {s : Text} (h : '}' ∉ s) : Inert (c :: s) after := by
  induction s generalizing c with
  | nil => exact ⟨fun _ => not_closes_append stop List.not_mem_nil, trivial⟩
  | cons d s ih =>
    have hs : '}' ∉ s := fun hm => h (List.mem_cons_of_mem _ hm)
    exact ⟨fun _ => not_closes_append stop hs, ih hs⟩

theorem inert_unclosed {name : Text} (h : '}' ∉ name.tail) : Inert ('{' :: name) after := by
  refine ⟨fun _ => not_closes_append stop h, ?_⟩
  cases name with
  | nil => trivial
  | cons c name => exact inert_cons_of_brace_not_mem stop h

end

/-- What holds of the text that a scan has read: the literal text is inert, and the text since an
opening brace that may still close can start a name. Both are kept backwards. -/
structure Reads (run : Text) (name? : Option Text) : Prop where
  inert : ∀ after, Inert run.reverse after
  slash_not_mem : ∀ name, name? = some name → '/' ∉ name
  brace_not_mem : ∀ name, name? = some name → '}' ∉ name.reverse.tail

namespace Reads

variable {run name : Text} {c : Char}

theorem of_inert (h : ∀ after, Inert run.reverse after) : Reads run none :=
  ⟨h, fun _ hname => absurd hname.symm (Option.some_ne_none _),
    fun _ hname => absurd hname.symm (Option.some_ne_none _)⟩

theorem literal (h : Reads run none) (hc : c ≠ '{') : Reads (c :: run) none := by
  apply of_inert
  intro after
  rw [List.reverse_cons, inert_append]
  exact ⟨h.inert _, fun he => absurd he hc, trivial⟩

theorem opened (h : Reads run none) : Reads run (some []) :=
  ⟨h.inert, by simp, by simp⟩

theorem abandoned (h : Reads run (some name)) : Reads ('/' :: (name ++ '{' :: run)) none := by
  apply of_inert
  intro after
  have htext : ('/' :: (name ++ '{' :: run)).reverse =
      run.reverse ++ ('{' :: name.reverse ++ ['/']) := by simp
  rw [htext, inert_append, inert_append]
  exact ⟨h.inert _, inert_unclosed (fun _ => Closes.of_append_slash) (h.brace_not_mem name rfl),
    by simp [Inert]⟩

theorem extended (h : Reads run (some name)) (hslash : c ≠ '/')
    (hclose : ¬(c = '}' ∧ name ≠ [])) : Reads run (some (c :: name)) := by
  refine ⟨h.inert, ?_, ?_⟩
  · intro name' hname
    obtain rfl := Option.some.inj hname
    simp [h.slash_not_mem name rfl, Ne.symm hslash]
  · intro name' hname
    obtain rfl := Option.some.inj hname
    by_cases hne : name = []
    · simp [hne]
    · have hc : '}' ≠ c := fun he => hclose ⟨he.symm, hne⟩
      rw [List.reverse_cons, List.tail_append_of_ne_nil (by simpa using hne), List.mem_append,
        not_or]
      exact ⟨h.brace_not_mem name rfl, by simpa using hc⟩

theorem isName (h : Reads run (some name)) (hne : name ≠ []) : IsName name.reverse :=
  ⟨by simpa using hne, by simpa using h.slash_not_mem name rfl, h.brace_not_mem name rfl⟩

theorem inert_end (h : Reads run (some name)) : Inert (name ++ '{' :: run).reverse [] := by
  have htext : (name ++ '{' :: run).reverse = run.reverse ++ '{' :: name.reverse := by simp
  rw [htext, inert_append]
  exact ⟨h.inert _, inert_unclosed (fun _ => by simp) (h.brace_not_mem name rfl)⟩

end Reads

private theorem scanned_scanFrom {run s : Text} {name? : Option Text} (h : Reads run name?) :
    (scanFrom run name? s).Scanned := by
  induction s generalizing run name? with
  | nil =>
    cases name? with
    | none => exact ⟨by simp [scanFrom], by simp [scanFrom], h.inert []⟩
    | some name => exact ⟨by simp [scanFrom], by simp [scanFrom], h.inert_end⟩
  | cons c s ih =>
    cases name? with
    | none =>
      rw [scanFrom]
      split
      next => exact ih h.opened
      next hc => exact ih (h.literal hc)
    | some name =>
      rw [scanFrom]
      split
      next hc =>
        subst hc
        exact ih h.abandoned
      next hslash =>
        split
        next hclose =>
          have hrest : (scanFrom [] none s).Scanned := ih (.of_inert fun _ => trivial)
          exact ⟨List.forall_mem_cons.mpr ⟨h.isName hclose.2, hrest.isName⟩,
            List.forall_mem_cons.mpr ⟨h.inert, hrest.inert⟩, hrest.inert_last⟩
        next hclose => exact ih (h.extended hslash hclose)

theorem scanned_scan (s : Text) : (scan s).Scanned := scanned_scanFrom (.of_inert fun _ => trivial)

private theorem scanFrom_append_slash (run : Text) (name? : Option Text) (s : Text) :
    scanFrom run name? (s ++ ['/']) =
      ⟨(scanFrom run name? s).slots, (scanFrom run name? s).last ++ ['/']⟩ := by
  induction s generalizing run name? with
  | nil => cases name? <;> simp [scanFrom]
  | cons c s ih =>
    cases name? with
    | none =>
      rw [List.cons_append, scanFrom, scanFrom]
      split <;> exact ih _ _
    | some name =>
      rw [List.cons_append, scanFrom, scanFrom]
      split
      · exact ih _ _
      · split
        · simp only [ih]
        · exact ih _ _

theorem scan_append_slash (s : Text) :
    scan (s ++ ['/']) = ⟨(scan s).slots, (scan s).last ++ ['/']⟩ := scanFrom_append_slash [] none s

theorem text_cons (slot : Slot) (slots : List Slot) (last : Text) :
    text ⟨slot :: slots, last⟩ = slot.text ++ text ⟨slots, last⟩ := by
  simp [text]

/-- The positions of the opening brace of each placeholder and of the end of its closing brace. -/
def ranges (l : Layout) : List (Nat × Nat) :=
  l.slots.zipIdx.map fun p => (l.position p.2, l.position p.2 + byteLength p.1.name + 2)

/-- A range of a text starts with an opening brace, ends with a closing brace, and has a name
between them. -/
def Encloses (s : Text) (r : Nat × Nat) (name : Text) : Prop :=
  ∃ before after, s = before ++ '{' :: name ++ '}' :: after ∧
    r = (byteLength before, byteLength (before ++ '{' :: name ++ ['}']))

def IsPlaceholder (s : Text) (r : Nat × Nat) : Prop := ∃ name, Encloses s r name ∧ IsName name

/-- The placeholders of a text from a position on: ascending and disjoint ranges such that no
opening brace outside of them closes. -/
structure Covers (s : Text) (start : Nat) (ranges : List (Nat × Nat)) : Prop where
  start_le : ∀ r ∈ ranges, start ≤ r.1
  ascending : ranges.Pairwise fun r r' => r.2 ≤ r'.1
  isPlaceholder : ∀ r ∈ ranges, IsPlaceholder s r
  not_closes : ∀ before after, s = before ++ '{' :: after → start ≤ byteLength before →
    (∀ r ∈ ranges, ¬(r.1 ≤ byteLength before ∧ byteLength before < r.2)) → ¬Closes after

variable {s : Text} {start : Nat} {r r' : Nat × Nat} {ranges ranges' : List (Nat × Nat)}

/-- The ranges of slots whose text starts at a position. -/
def slotRanges : Nat → List Slot → List (Nat × Nat)
  | _, [] => []
  | start, slot :: slots =>
    let stop := start + byteLength slot.text
    (start + byteLength slot.literal, stop) :: slotRanges stop slots

theorem ranges_eq_slotRanges (l : Layout) : l.ranges = slotRanges 0 l.slots := by
  suffices h : ∀ done slots, l.slots = done ++ slots →
      (slots.zipIdx done.length).map (fun p =>
        (l.position p.2, l.position p.2 + byteLength p.1.name + 2)) =
      slotRanges (byteLength (done.flatMap Slot.text)) slots from h [] l.slots rfl
  intro done slots hslots
  induction slots generalizing done with
  | nil => rfl
  | cons slot slots ih =>
    have hposition : l.position done.length =
        byteLength (done.flatMap Slot.text) + byteLength slot.literal := by
      simp [position, hslots]
    have hrest := ih (done ++ [slot]) (by simp [hslots])
    simp only [List.length_append, List.length_singleton, List.flatMap_append,
      List.flatMap_singleton, Text.byteLength_append] at hrest
    rw [List.zipIdx_cons, List.map_cons, hrest, slotRanges, hposition, Slot.byteLength_text]
    simp only [List.cons.injEq, Prod.mk.injEq, and_true, true_and]
    omega

private theorem encloses_slot (slot : Slot) (done rest : Text) :
    Encloses (done ++ (slot.text ++ rest))
      (byteLength done + byteLength slot.literal, byteLength done + byteLength slot.text)
      slot.name := by
  refine ⟨done ++ slot.literal, rest, by simp [Slot.text], ?_⟩
  rw [Text.byteLength_append, ← Text.byteLength_append done slot.text]
  simp [Slot.text]

private theorem not_closes_of_literal {slot : Slot} {before after rest : Text}
    (h : ∀ after, Inert slot.literal after) (htext : slot.text ++ rest = before ++ '{' :: after)
    (hl : byteLength before < byteLength slot.literal) : ¬Closes after := by
  have hsplit : before ++ '{' :: after = slot.literal ++ ('{' :: slot.name ++ '}' :: rest) := by
    rw [← htext]
    simp [Slot.text]
  obtain ⟨x, hx, hafter⟩ := Text.exists_eq_append_of_byteLength_le hsplit (Nat.le_of_lt hl)
  cases x with
  | nil =>
    rw [hx, List.append_nil] at hl
    exact absurd hl (Nat.lt_irrefl _)
  | cons c x =>
    rw [List.cons_append, List.cons.injEq] at hafter
    obtain ⟨rfl, rfl⟩ := hafter
    have hinert := h ('{' :: slot.name ++ '}' :: rest)
    rw [hx] at hinert
    exact hinert.not_closes

private theorem covers_nil {done last : Text} (h : Inert last []) :
    Covers (done ++ last) (byteLength done) [] := by
  refine ⟨by simp, .nil, by simp, ?_⟩
  intro before after htext hstart _
  obtain ⟨x, -, hlast⟩ := Text.exists_eq_append_of_byteLength_le htext hstart
  rw [hlast] at h
  simpa using h.not_closes

private theorem covers_cons {slot : Slot} {done rest : Text} (hname : IsName slot.name)
    (hinert : ∀ after, Inert slot.literal after)
    (h : Covers (done ++ (slot.text ++ rest)) (byteLength done + byteLength slot.text) ranges) :
    Covers (done ++ (slot.text ++ rest)) (byteLength done)
      ((byteLength done + byteLength slot.literal, byteLength done + byteLength slot.text) ::
        ranges) := by
  constructor
  case start_le =>
    intro r hr
    rcases List.mem_cons.mp hr with rfl | hr
    · exact Nat.le_add_right _ _
    · exact Nat.le_trans (Nat.le_add_right _ _) (h.start_le r hr)
  case ascending => exact List.pairwise_cons.mpr ⟨h.start_le, h.ascending⟩
  case isPlaceholder =>
    intro r hr
    rcases List.mem_cons.mp hr with rfl | hr
    · exact ⟨slot.name, encloses_slot slot done rest, hname⟩
    · exact h.isPlaceholder r hr
  case not_closes =>
    intro before after htext hstart hout
    rw [List.forall_mem_cons] at hout
    by_cases hlt : byteLength before < byteLength done + byteLength slot.literal
    · obtain ⟨x, rfl, hx⟩ := Text.exists_eq_append_of_byteLength_le htext hstart
      rw [Text.byteLength_append] at hlt
      exact not_closes_of_literal hinert hx (by omega)
    · exact h.not_closes before after htext (by omega) hout.2

private theorem covers_slotRanges {slots : List Slot} {last : Text} (h : Scanned ⟨slots, last⟩)
    (done : Text) :
    Covers (done ++ Layout.text ⟨slots, last⟩) (byteLength done)
      (slotRanges (byteLength done) slots) := by
  induction slots generalizing done with
  | nil => exact covers_nil h.inert_last
  | cons slot slots ih =>
    have hrest : Scanned ⟨slots, last⟩ :=
      ⟨fun x hx => h.isName x (List.mem_cons_of_mem _ hx),
        fun x hx => h.inert x (List.mem_cons_of_mem _ hx), h.inert_last⟩
    have hcovers := ih hrest (done ++ slot.text)
    rw [List.append_assoc, Text.byteLength_append] at hcovers
    rw [text_cons, slotRanges]
    exact covers_cons (h.isName slot List.mem_cons_self) (h.inert slot List.mem_cons_self) hcovers

/-- A scan finds all placeholders. -/
theorem covers_scan (s : Text) : Covers s 0 (scan s).ranges := by
  have h := covers_slotRanges (scanned_scan s) []
  change Covers (scan s).text 0 (slotRanges 0 (scan s).slots) at h
  rwa [text_scan, ← ranges_eq_slotRanges] at h

private theorem eq_of_name_append {name name' t t' : Text} (hname : IsName name)
    (hname' : IsName name') (h : name ++ '}' :: t = name' ++ '}' :: t') : name = name' := by
  obtain ⟨c, name, rfl⟩ := List.exists_cons_of_ne_nil hname.ne_nil
  obtain ⟨c', name', rfl⟩ := List.exists_cons_of_ne_nil hname'.ne_nil
  have hbrace : '}' ∉ name := hname.brace_not_mem
  have hbrace' : '}' ∉ name' := hname'.brace_not_mem
  rw [List.cons_append, List.cons_append, List.cons.injEq] at h
  have hcut := congrArg (Text.cut '}') h.2
  rw [Text.cut_append_cons hbrace, Text.cut_append_cons hbrace', Prod.mk.injEq] at hcut
  rw [h.1, hcut.1]

namespace IsPlaceholder

theorem eq_of_fst_eq (h : IsPlaceholder s r) (h' : IsPlaceholder s r') (he : r.1 = r'.1) :
    r = r' := by
  obtain ⟨name, ⟨before, after, htext, rfl⟩, hname⟩ := h
  obtain ⟨name', ⟨before', after', htext', rfl⟩, hname'⟩ := h'
  rw [htext, List.append_assoc, List.append_assoc] at htext'
  obtain rfl := Text.eq_of_byteLength_eq htext' he
  simp only [List.append_cancel_left_eq, List.cons_append, List.cons.injEq, true_and] at htext'
  rw [eq_of_name_append hname hname' htext']

theorem fst_lt_snd (h : IsPlaceholder s r) : r.1 < r.2 := by
  obtain ⟨name, ⟨before, after, -, rfl⟩, -⟩ := h
  have hbrace := '{'.utf8Size_pos
  simp only [Text.byteLength_append, Text.byteLength_cons]
  omega

end IsPlaceholder

namespace Covers

/-- A placeholder is not missed: some range starts at it or before it. -/
theorem exists_fst_le (h : Covers s start ranges) (hr : IsPlaceholder s r) (hs : start ≤ r.1) :
    ∃ q ∈ ranges, q.1 ≤ r.1 := by
  apply Classical.byContradiction
  intro hnone
  obtain ⟨name, ⟨before, after, htext, rfl⟩, hname⟩ := hr
  refine h.not_closes before (name ++ '}' :: after) (by simp [htext]) hs ?_
    ⟨name, after, rfl, hname.ne_nil, hname.slash_not_mem⟩
  intro q hq hin
  exact hnone ⟨q, hq, hin.1⟩

theorem head_fst_le {q : Nat × Nat} (h : Covers s start (q :: ranges)) (hr : IsPlaceholder s r)
    (hs : start ≤ r.1) : q.1 ≤ r.1 := by
  obtain ⟨p, hp, hle⟩ := h.exists_fst_le hr hs
  rcases List.mem_cons.mp hp with rfl | hp
  · exact hle
  · have hdisjoint := (List.pairwise_cons.mp h.ascending).1 p hp
    have hq := (h.isPlaceholder q List.mem_cons_self).fst_lt_snd
    omega

theorem tail {q : Nat × Nat} (h : Covers s start (q :: ranges)) : Covers s q.2 ranges := by
  obtain ⟨hdisjoint, hascending⟩ := List.pairwise_cons.mp h.ascending
  refine ⟨hdisjoint, hascending, fun r hr => h.isPlaceholder r (List.mem_cons_of_mem _ hr), ?_⟩
  intro before after htext hstart hout
  have hq := (h.isPlaceholder q List.mem_cons_self).fst_lt_snd
  have hle := h.start_le q List.mem_cons_self
  refine h.not_closes before after htext (by omega) (List.forall_mem_cons.mpr ⟨?_, hout⟩)
  omega

theorem unique (h : Covers s start ranges) (h' : Covers s start ranges') : ranges = ranges' := by
  induction ranges generalizing start ranges' with
  | nil =>
    cases ranges' with
    | nil => rfl
    | cons q' ranges' =>
      obtain ⟨p, hp, -⟩ := h.exists_fst_le (h'.isPlaceholder q' List.mem_cons_self)
        (h'.start_le q' List.mem_cons_self)
      exact absurd hp List.not_mem_nil
  | cons q ranges ih =>
    have hq := h.isPlaceholder q List.mem_cons_self
    have hle := h.start_le q List.mem_cons_self
    cases ranges' with
    | nil =>
      obtain ⟨p, hp, -⟩ := h'.exists_fst_le hq hle
      exact absurd hp List.not_mem_nil
    | cons q' ranges' =>
      have hq' := h'.isPlaceholder q' List.mem_cons_self
      have hle' := h'.start_le q' List.mem_cons_self
      obtain rfl := hq.eq_of_fst_eq hq'
        (Nat.le_antisymm (h.head_fst_le hq' hle') (h'.head_fst_le hq hle))
      rw [ih h.tail h'.tail]

end Covers

/-- The only list of all placeholders of a text is the one that a scan finds. -/
theorem covers_iff : Covers s 0 ranges ↔ ranges = (scan s).ranges := by
  constructor
  · intro h
    exact h.unique (covers_scan s)
  · rintro rfl
    exact covers_scan s

private theorem forall₂_encloses_slotRanges (done last : Text) (slots : List Slot) :
    List.Forall₂ (Encloses (done ++ Layout.text ⟨slots, last⟩))
      (slotRanges (byteLength done) slots) (slots.map Slot.name) := by
  induction slots generalizing done with
  | nil => exact .nil
  | cons slot slots ih =>
    have hrest := ih (done ++ slot.text)
    rw [List.append_assoc, Text.byteLength_append] at hrest
    rw [text_cons]
    exact .cons (encloses_slot slot done _) hrest

theorem forall₂_encloses (l : Layout) : List.Forall₂ (Encloses l.text) l.ranges l.names := by
  rw [ranges_eq_slotRanges]
  exact forall₂_encloses_slotRanges [] l.last l.slots

theorem exists_range {l : Layout} {i : Nat} {name : Text} (h : l.names[i]? = some name) :
    ∃ r, l.ranges[i]? = some r ∧ r.1 = l.position i ∧ Encloses l.text r name := by
  obtain ⟨hl, hencloses⟩ := List.forall₂_iff_get.mp l.forall₂_encloses
  obtain ⟨hi, rfl⟩ := List.getElem?_eq_some_iff.mp h
  refine ⟨_, List.getElem?_eq_getElem (hl ▸ hi), ?_, hencloses i (hl ▸ hi) hi⟩
  simp [ranges]

end Layout

end LinkTemplate
