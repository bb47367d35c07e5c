import LinkTemplate.Layout
import LinkTemplate.Uri

/-!
# Patterns

A pattern is what a template asks of a URI. No literal text of a layout's pattern holds a line feed,
so an occurrence lies within one line. In the first line that has one, the first stem is taken as
early as possible and the other literal texts, last one first, as late as possible.
-/

namespace LinkTemplate

/-- Literal texts that are each followed by a hole, and the literal text at the end. -/
structure Pattern where
  stems : List Text
  last : Text
deriving DecidableEq, Repr

namespace Pattern

def dropFinalSlash (s : Text) : Text := if s.getLast? = some '/' then s.dropLast else s

/-- The pattern of a layout. Each literal text is encoded on its own, and one slash at the very end
is left out. -/
def ofLayout (l : Layout) : Pattern where
  stems := l.slots.map fun slot => Uri.encodeText slot.literal
  last := dropFinalSlash (Uri.encodeText l.last)

def holes (p : Pattern) : Nat := p.stems.length

/-- The pattern with values in its holes. -/
def fill (p : Pattern) (values : List Text) : Text :=
  (p.stems.zip values).flatMap (fun q => q.1 ++ q.2) ++ p.last

/-- The characters with a meaning of their own in a regular expression. -/
def isMeta (c : Char) : Bool := "\\.+*?()|[]\x7b\x7d^$#&-~".toList.contains c

def escape (s : Text) : Text := s.flatMap fun c => if isMeta c then ['\\', c] else [c]

/-- The pattern as a regular expression. -/
def text (p : Pattern) : Text :=
  p.stems.flatMap (fun stem => escape stem ++ "(.*)".toList) ++ escape p.last

/-- The size of a pattern once it is compiled: a fixed part, and a share for each hole and each byte
of literal text. The shares are measured at the patterns that first pass the limit: 10083 holes,
327674 bytes, and 9782 holes with a byte after each. That leaves 193 to 224 for the fixed part. -/
def weight (p : Pattern) : Nat :=
  208 + 1040 * p.holes + 32 * (Text.byteLength p.stems.flatten + Text.byteLength p.last)

def weightLimit : Nat := 10485760

end Pattern

/-- The text before an occurrence of a pattern, and the values of the pattern's holes in it. -/
structure Occurrence where
  before : Text
  values : List Text
deriving DecidableEq, Repr

namespace Pattern

/-- The texts between words, each word taken at its first occurrence after the one before it. -/
def between : List Text → Text → Option (List Text)
  | [], s => some [s]
  | word :: words, s =>
    match Text.findWord? word s with
    | none => none
    | some (value, rest) => (between words rest).map (value :: ·)

/-- The values before, between and after stems that are taken as late as possible, in a text that is
given backwards. -/
def valuesBackwards (stems : List Text) (back : Text) : Option (List Text) :=
  (between (stems.reverse.map List.reverse) back).map fun values =>
    (values.map List.reverse).reverse

/-- The occurrence of a pattern with at least one hole in a text without line feeds. -/
def findInLine (stem : Text) (stems : List Text) (last : Text) (line : Text) :
    Option Occurrence :=
  match Text.findWord? stem line with
  | none => none
  | some (before, rest) =>
    match Text.findWord? last.reverse rest.reverse with
    | none => none
    | some (_, back) => (valuesBackwards stems back).map (⟨before, ·⟩)

def findInLines (stem : Text) (stems : List Text) (last : Text) :
    List Text → Option Occurrence
  | [] => none
  | line :: lines =>
    match findInLine stem stems last line with
    | some found => some found
    | none =>
      (findInLines stem stems last lines).map fun found =>
        ⟨line ++ '\n' :: found.before, found.values⟩

/-- The first occurrence of a pattern in a text. -/
def find? (p : Pattern) (s : Text) : Option Occurrence :=
  match p.stems with
  | [] => (Text.findWord? p.last s).map fun found => ⟨found.1, []⟩
  | stem :: stems => findInLines stem stems p.last (Text.lines s)

/-- The values that fill a pattern to a whole text. -/
def values? (p : Pattern) (s : Text) : Option (List Text) :=
  match p.stems with
  | [] => if s = p.last then some [] else none
  | stem :: stems =>
    if '\n' ∈ s then none
    else
      match Text.after? stem s with
      | none => none
      | some rest =>
        match Text.after? p.last.reverse rest.reverse with
        | none => none
        | some back => valuesBackwards stems back

def isMatch (p : Pattern) (s : Text) : Bool := (p.values? s).isSome

def startsFrom : Nat → List Text → List Text → List Nat
  | start, stem :: stems, value :: values =>
    let here := start + Text.byteLength stem
    here :: startsFrom (here + Text.byteLength value) stems values
  | _, _, _ => []

/-- The positions of the values of an occurrence. -/
def starts (p : Pattern) (o : Occurrence) : List Nat :=
  startsFrom (Text.byteLength o.before) p.stems o.values

end Pattern

end LinkTemplate
