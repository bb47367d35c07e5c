import LinkTemplate.Error
import LinkTemplate.Percent

/-!
# URIs

A text falls into components at the first occurrences of its delimiters, whatever its scheme looks
like. A URI is the encoded form of a text without fault.
-/

namespace LinkTemplate

namespace Uri

/-- The alphabet of a path. -/
def isPathChar (c : Char) : Bool := c.isAlphanum || "-_.!~*'();:@&=+$,/".toList.contains c

/-- The alphabet of every part but a path. -/
def isUriChar (c : Char) : Bool := isPathChar c || "?[]".toList.contains c

theorem isUriChar_of_isPathChar {c : Char} (h : isPathChar c = true) : isUriChar c = true := by
  simp [isUriChar, h]

/-- The letters, digits and marks of a scheme after its first letter. -/
def isSchemeChar (c : Char) : Bool := c.isAlphanum || "+-.".toList.contains c

/-- The parts of a URI between its delimiters. An absent part differs from an empty one. -/
inductive Components where
  /-- A scheme and a part that does not start with a slash. -/
  | unstructured (scheme part : Text) (fragment? : Option Text)
  /-- A scheme and a part that starts with a slash. -/
  | hierarchical (scheme : Text) (authority? : Option Text) (path : Text)
      (query? fragment? : Option Text)
  | relative (path : Text) (query? fragment? : Option Text)
deriving DecidableEq, Repr

namespace Components

def scheme? : Components → Option Text
  | .unstructured scheme _ _ => some scheme
  | .hierarchical scheme _ _ _ _ => some scheme
  | .relative _ _ _ => none

def authority? : Components → Option Text
  | .hierarchical _ authority? _ _ _ => authority?
  | _ => none

def path? : Components → Option Text
  | .unstructured _ _ _ => none
  | .hierarchical _ _ path _ _ => some path
  | .relative path _ _ => some path

def query? : Components → Option Text
  | .unstructured _ _ _ => none
  | .hierarchical _ _ _ query? _ => query?
  | .relative _ query? _ => query?

def fragment? : Components → Option Text
  | .unstructured _ _ fragment? => fragment?
  | .hierarchical _ _ _ _ fragment? => fragment?
  | .relative _ _ fragment? => fragment?

/-- What stands between the scheme and the fragment. -/
def schemeSpecificPart : Components → Text
  | .unstructured _ part _ => part
  | .hierarchical _ none path query? _ => path ++ Text.lead '?' query?
  | .hierarchical _ (some authority) path query? _ =>
    '/' :: '/' :: authority ++ path ++ Text.lead '?' query?
  | .relative path query? _ => path ++ Text.lead '?' query?

def text (c : Components) : Text :=
  (match c.scheme? with
    | none => []
    | some scheme => scheme ++ [':']) ++
    c.schemeSpecificPart ++ Text.lead '#' c.fragment?

def encode : Components → Components
  | .unstructured scheme part fragment? =>
    .unstructured (Percent.encode isUriChar scheme) (Percent.encode isUriChar part)
      (fragment?.map (Percent.encode isUriChar))
  | .hierarchical scheme authority? path query? fragment? =>
    .hierarchical (Percent.encode isUriChar scheme) (authority?.map (Percent.encode isUriChar))
      (Percent.encode isPathChar path) (query?.map (Percent.encode isUriChar))
      (fragment?.map (Percent.encode isUriChar))
  | .relative path query? fragment? =>
    .relative (Percent.encode isPathChar path) (query?.map (Percent.encode isUriChar))
      (fragment?.map (Percent.encode isUriChar))

@[simp] theorem scheme?_encode (c : Components) :
    c.encode.scheme? = c.scheme?.map (Percent.encode isUriChar) := by
  cases c <;> rfl

@[simp] theorem authority?_encode (c : Components) :
    c.encode.authority? = c.authority?.map (Percent.encode isUriChar) := by
  cases c <;> rfl

@[simp] theorem path?_encode (c : Components) :
    c.encode.path? = c.path?.map (Percent.encode isPathChar) := by
  cases c <;> rfl

@[simp] theorem query?_encode (c : Components) :
    c.encode.query? = c.query?.map (Percent.encode isUriChar) := by
  cases c <;> rfl

@[simp] theorem fragment?_encode (c : Components) :
    c.encode.fragment? = c.fragment?.map (Percent.encode isUriChar) := by
  cases c <;> rfl

/-- The components of a text with a scheme. Two slashes open an authority, which ends at the next
slash or question mark. -/
def ofPart (scheme part : Text) (fragment? : Option Text) : Components :=
  match part with
  | '/' :: '/' :: rest =>
    let cutRest := Text.cut '?' (rest.dropWhile fun c => c != '/' && c != '?')
    .hierarchical scheme (some (rest.takeWhile fun c => c != '/' && c != '?')) cutRest.1 cutRest.2
      fragment?
  | '/' :: rest =>
    let cutPart := Text.cut '?' ('/' :: rest)
    .hierarchical scheme none cutPart.1 cutPart.2 fragment?
  | part => .unstructured scheme part fragment?

/-- The components of any text. The first colon ends the scheme; a text without a colon is a path
up to its first question mark, or up to its first number sign if it has none. -/
def ofText (s : Text) : Components :=
  match Text.cut ':' s with
  | (scheme, some rest) =>
    let cutRest := Text.cut '#' rest
    ofPart scheme cutRest.1 cutRest.2
  | (_, none) =>
    match Text.cut '?' s with
    | (path, some rest) =>
      let cutRest := Text.cut '#' rest
      .relative path (some cutRest.1) cutRest.2
    | (_, none) =>
      let cutText := Text.cut '#' s
      .relative cutText.1 none cutText.2

private theorem text_ofPart (scheme part : Text) (fragment? : Option Text) :
    (ofPart scheme part fragment?).text = scheme ++ ':' :: part ++ Text.lead '#' fragment? := by
  unfold ofPart
  split <;> simp [text, scheme?, schemeSpecificPart, Components.fragment?]

theorem text_ofText (s : Text) : (ofText s).text = s := by
  have hs := Text.cut_append_lead ':' s
  unfold ofText
  split
  next scheme rest h =>
    rw [h] at hs
    simpa [text_ofPart] using hs
  next =>
    have hq := Text.cut_append_lead '?' s
    split
    next path rest h =>
      rw [h] at hq
      simpa [text, scheme?, schemeSpecificPart, Components.fragment?] using hq
    next => simp [text, scheme?, schemeSpecificPart, Components.fragment?]

end Components

/-- The first fault of a scheme and its position. -/
def schemeFault? : Text → Option (Nat × Fault)
  | [] => some (0, .emptyScheme)
  | c :: s =>
    if c.isAlpha then
      match s.dropWhile isSchemeChar with
      | [] => none
      | _ :: _ => some (Text.byteLength (c :: s.takeWhile isSchemeChar), .badSchemeChar)
    else some (0, .badSchemeChar)

/-- The first fault of what follows the scheme and its colon, and its position after the colon. -/
def partFault? (rest : Text) : Option (Nat × Fault) :=
  match Text.cut '#' rest with
  | ([], _) => some (0, .emptyPart)
  | (['/', '/'], none) => some (2, .emptyAuthority)
  | _ => none

def fault? (s : Text) : Option (Nat × Fault) :=
  match Text.cut ':' s with
  | (_, none) => none
  | (scheme, some rest) =>
    match schemeFault? scheme with
    | some found => some found
    | none => (partFault? rest).map fun found => (Text.byteLength scheme + 1 + found.1, found.2)

end Uri

/-- Encoded components that were read from a text without fault. -/
structure Uri where
  components : Uri.Components
  parsed : ∃ s, Uri.fault? s = none ∧ (Uri.Components.ofText s).encode = components
deriving DecidableEq

namespace Uri

/-- Reads and encodes a text, or locates its first fault. -/
def parse (s : Text) : Except Error Uri :=
  match h : fault? s with
  | none => .ok ⟨(Components.ofText s).encode, s, h, rfl⟩
  | some (index, fault) => .error ⟨s, some index, .invalidUri fault⟩

@[ext] theorem ext_components {u v : Uri} (h : u.components = v.components) : u = v := by
  cases u; cases v; cases h; rfl

theorem parse_eq_ok_iff {s : Text} {u : Uri} :
    parse s = .ok u ↔ fault? s = none ∧ u.components = (Components.ofText s).encode := by
  unfold parse
  constructor
  · intro h
    split at h
    next hs =>
      cases h
      exact ⟨hs, rfl⟩
    next => cases h
  · intro ⟨hs, hu⟩
    split
    next => exact congrArg Except.ok (ext_components hu.symm)
    next hf =>
      rw [hs] at hf
      cases hf

theorem exists_parse {s : Text} (h : fault? s = none) :
    ∃ u, parse s = .ok u ∧ u.components = (Components.ofText s).encode :=
  ⟨⟨_, s, h, rfl⟩, parse_eq_ok_iff.mpr ⟨h, rfl⟩, rfl⟩

def text (u : Uri) : Text := u.components.text

def scheme? (u : Uri) : Option Text := u.components.scheme?

def schemeSpecificPart (u : Uri) : Text := u.components.schemeSpecificPart

def authority? (u : Uri) : Option Text := u.components.authority?

def path? (u : Uri) : Option Text := u.components.path?

def query? (u : Uri) : Option Text := u.components.query?

def fragment? (u : Uri) : Option Text := u.components.fragment?

def isAbsolute (u : Uri) : Bool := u.scheme?.isSome

/-- A URI is opaque if it has a scheme but no path. -/
def isOpaque (u : Uri) : Bool := u.isAbsolute && u.path?.isNone

/-- The encoded form of any text, with or without fault. -/
def encodeText (s : Text) : Text := (Components.ofText s).encode.text

end Uri

end LinkTemplate
