import LinkTemplate.Text

/-!
# Layout of a template

A placeholder is an opening brace, a name and a closing brace. A name is at least one character,
none of them a slash, and ends before the first closing brace after its first character. Braces that
form no placeholder are literal.
-/

namespace LinkTemplate

/-- A placeholder with the literal text before it. -/
structure Slot where
  literal : Text
  name : Text
deriving DecidableEq, Repr

/-- The placeholders in order, and the literal text after the last. -/
structure Layout where
  slots : List Slot
  last : Text
deriving DecidableEq, Repr

namespace Slot

def text (slot : Slot) : Text := slot.literal ++ '{' :: slot.name ++ ['}']

end Slot

namespace Layout

/-- The text of a layout as it stands in a template. -/
def text (l : Layout) : Text := l.slots.flatMap Slot.text ++ l.last

def names (l : Layout) : List Text := l.slots.map Slot.name

/-- The position of the opening brace of placeholder `i`. -/
def position (l : Layout) (i : Nat) : Nat :=
  Text.byteLength ((l.slots.take i).flatMap Slot.text) +
    Text.byteLength ((l.slots[i]?.map Slot.literal).getD [])

/-- The literal texts with values in place of the placeholders between them. -/
def substitute (l : Layout) (values : List Text) : Text :=
  (l.slots.zip values).flatMap (fun p => p.1.literal ++ p.2) ++ l.last

/-- Reads from left to right. `run` is the literal text since the last placeholder and `name?` the
text since the opening brace of a placeholder that may still close, both backwards. -/
def scanFrom (run : Text) (name? : Option Text) : Text → Layout
  | [] =>
    match name? with
    | none => ⟨[], run.reverse⟩
    | some name => ⟨[], (name ++ '{' :: run).reverse⟩
  | c :: s =>
    match name? with
    | none => if c = '{' then scanFrom run (some []) s else scanFrom (c :: run) none s
    | some name =>
      if c = '/' then scanFrom (c :: (name ++ '{' :: run)) none s
      else if c = '}' ∧ name ≠ [] then
        let rest := scanFrom [] none s
        ⟨⟨run.reverse, name.reverse⟩ :: rest.slots, rest.last⟩
      else scanFrom run (some (c :: name)) s

def scan (s : Text) : Layout := scanFrom [] none s

private theorem text_scanFrom (run : Text) (name? : Option Text) (s : Text) :
    (scanFrom run name? s).text =
      run.reverse ++ (Text.lead '{' (name?.map List.reverse)) ++ s := by
  induction s generalizing run name? with
  | nil => cases name? <;> simp [scanFrom, text]
  | cons c s ih =>
    cases name? with
    | none =>
      rw [scanFrom]
      split
      · subst c; simp [ih]
      · simp [ih]
    | some name =>
      rw [scanFrom]
      split
      · simp [ih]
      · split
        next h =>
          have hrest := ih [] none
          simp only [text] at hrest
          simp [text, Slot.text, hrest, h.1]
        · simp [ih]

@[simp] theorem text_scan (s : Text) : (scan s).text = s := by
  simp [scan, text_scanFrom]

end Layout

end LinkTemplate
