import LinkTemplate.Pattern

/-! # Templates -/

namespace LinkTemplate

/-- A layout that was scanned from its own text. The text is not blank, and its pattern not too
heavy. -/
structure Template where
  layout : Layout
  scan_text : Layout.scan layout.text = layout
  not_blank : Text.isBlank layout.text = false
  weight_le : (Pattern.ofLayout layout).weight ≤ Pattern.weightLimit
deriving DecidableEq

/-- A value for a placeholder. -/
inductive Value where
  | text (s : Text)
  | integer (n : Int)
  | boolean (b : Bool)
deriving DecidableEq, Repr

/-- The text that stands for a value. -/
def Value.render : Value → Text
  | .text s => s
  | .integer n => if n < 0 then '-' :: Text.decimal n.natAbs else Text.decimal n.natAbs
  | .boolean true => "true".toList
  | .boolean false => "false".toList

/-- What an expansion takes values from: a value for the placeholder with an index and a name, and
how many values there are if they go by position. -/
structure Source where
  value? : Nat → Text → Option Text
  length? : Option Nat

/-- A value for each name. -/
def Source.byName (value? : Text → Option Text) : Source := ⟨fun _ name => value? name, none⟩

/-- Values for the placeholders of a template. -/
inductive Bindings where
  /-- A value for each name, of which a template takes those it needs. -/
  | named (values : List (Text × Value))
  /-- A value for each placeholder in order. -/
  | positional (values : List Value)
deriving DecidableEq, Repr

def Bindings.source : Bindings → Source
  | .named values => .byName fun name => (values.lookup name).map Value.render
  | .positional values => ⟨fun i _ => values[i]?.map Value.render, some values.length⟩

/-- A named value and the position where it starts in the text it was found in. -/
structure Capture where
  name : Text
  value : Text
  start : Nat
deriving DecidableEq, Repr

namespace Capture

def stop (c : Capture) : Nat := c.start + Text.byteLength c.value

/-- The value with its escapes decoded. -/
def decoded (c : Capture) : Except Error Text :=
  match Percent.decode c.value with
  | some s => .ok s
  | none => .error ⟨c.value, none, .invalidUtf8⟩

end Capture

/-- One entry for each name, in the order in which the names came first. A later value of a name
takes the place of an earlier one. -/
structure Captures where
  entries : List Capture
deriving DecidableEq, Repr

namespace Captures

def empty : Captures := ⟨[]⟩

/-- Puts an entry in the place of the one of its name, or at the end. -/
def insertEntry (c : Capture) : List Capture → List Capture
  | [] => [c]
  | e :: es => if e.name = c.name then c :: es else e :: insertEntry c es

def insert (cs : Captures) (c : Capture) : Captures := ⟨insertEntry c cs.entries⟩

def ofList (entries : List Capture) : Captures := entries.foldl insert empty

def find? (cs : Captures) (name : Text) : Option Capture :=
  cs.entries.find? (·.name = name)

def size (cs : Captures) : Nat := cs.entries.length

def isEmpty (cs : Captures) : Bool := cs.entries.isEmpty

def json (cs : Captures) : Text := Text.jsonObject (cs.entries.map fun c => (c.name, c.value))

end Captures

namespace Template

def ofText (s : Text) : Except Error Template :=
  if blank : Text.isBlank s = true then .error ⟨s, none, .blankTemplate⟩
  else if heavy : Pattern.weightLimit < (Pattern.ofLayout (Layout.scan s)).weight then
    .error ⟨s, none, .heavyPattern Pattern.weightLimit⟩
  else
    .ok {
      layout := Layout.scan s
      scan_text := by rw [Layout.text_scan]
      not_blank := by simpa using blank
      weight_le := Nat.le_of_not_lt heavy }

def text (t : Template) : Text := t.layout.text

def pattern (t : Template) : Pattern := Pattern.ofLayout t.layout

/-- The names of the placeholders in order, repetitions included. -/
def names (t : Template) : List Text := t.layout.names

def count (t : Template) : Nat := t.layout.slots.length

/-- The index of the first placeholder of a name. -/
def indexOf? (t : Template) (name : Text) : Option Nat := t.names.idxOf? name

theorem text_of_ofText {s : Text} {t : Template} (h : ofText s = .ok t) : t.text = s := by
  unfold ofText at h
  split at h
  · simp at h
  · split at h
    · simp at h
    · cases h
      exact Layout.text_scan s

@[ext] theorem ext_text {t u : Template} (h : t.text = u.text) : t = u := by
  have hl : t.layout = u.layout := by rw [← t.scan_text, ← u.scan_text]; exact congrArg _ h
  cases t; cases u; cases hl; rfl

/-- The value of placeholder `i`. -/
def lookup (t : Template) (source : Source) (slot : Slot) (i : Nat) : Except Error Text :=
  match source.value? i slot.name with
  | some value => .ok value
  | none => .error ⟨t.text, some (t.layout.position i), .noValue slot.name⟩

/-- The value of every placeholder in order. Values that go by position have to be as many as there
are placeholders. The first placeholder without a value is an error. -/
def values (t : Template) (source : Source) : Except Error (List Text) :=
  match source.length? with
  | some n =>
    if n = t.count then t.layout.slots.zipIdx.mapM fun p => t.lookup source p.1 p.2
    else .error ⟨t.text, none, .countMismatch t.count n⟩
  | none => t.layout.slots.zipIdx.mapM fun p => t.lookup source p.1 p.2

/-- The text of a template with values in place of its placeholders. -/
def substitute (t : Template) (source : Source) : Except Error Text :=
  (t.values source).map t.layout.substitute

/-- The URI of a template with values in place of its placeholders. -/
def expand (t : Template) (source : Source) : Except Error Uri :=
  t.substitute source >>= Uri.parse

def isMatch (t : Template) (s : Text) : Bool := t.pattern.isMatch s

def find? (t : Template) (s : Text) : Option Occurrence := t.pattern.find? s

/-- The values of an occurrence under the names of their placeholders, in order. -/
def capturesOf (t : Template) (o : Occurrence) : List Capture :=
  (t.names.zip (o.values.zip (t.pattern.starts o))).map fun p => ⟨p.1, p.2.1, p.2.2⟩

/-- The values that a template captures from a text; none if its pattern does not occur. -/
def captures (t : Template) (s : Text) : Captures :=
  match t.find? s with
  | none => .empty
  | some o => .ofList (t.capturesOf o)

end Template

end LinkTemplate
