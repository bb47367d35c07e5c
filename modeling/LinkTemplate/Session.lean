import LinkTemplate.Template

namespace LinkTemplate

inductive Level where
  | debug
  | trace
deriving DecidableEq, Repr

inductive Event where
  /-- A template was made from its text. -/
  | compiled (template : Template)
  /-- Values were put in the place of a template's placeholders. -/
  | expanded (template : Template) (text : Text)
  /-- The text of an expansion is not a URI. -/
  | rejected (text : Text) (cause : Cause)
  /-- A template's pattern does not occur in a text. -/
  | unmatched (template : Template) (text : Text)
deriving DecidableEq

namespace Event

def level : Event → Level
  | .compiled _ => .debug
  | .expanded _ _ => .trace
  | .rejected _ _ => .debug
  | .unmatched _ _ => .trace

def message : Event → Text
  | .compiled _ => "compiled uri template".toList
  | .expanded _ _ => "expanded uri template".toList
  | .rejected _ _ => "expanded template is not a valid uri".toList
  | .unmatched _ _ => "no match".toList

end Event

namespace Template

def ofTextEvents (s : Text) : List Event :=
  match ofText s with
  | .error _ => []
  | .ok t => [.compiled t]

def expandEvents (t : Template) (source : Source) : List Event :=
  match t.substitute source with
  | .error _ => []
  | .ok s =>
    match Uri.parse s with
    | .error e => [.expanded t s, .rejected s e.cause]
    | .ok _ => [.expanded t s]

def captureEvents (t : Template) (s : Text) : List Event :=
  match t.find? s with
  | none => [.unmatched t s]
  | some _ => []

end Template

/-- What a command can use of the commands before it. -/
structure Session where
  templates : List (Text × Template)
  uri? : Option Uri
  captured : List (Text × Text)
deriving DecidableEq

inductive Origin where
  | text (s : Text)
  /-- The string of a JSON document, if the document is a string. -/
  | document (s? : Option Text)
  | slot (name : Text)
deriving DecidableEq, Repr

inductive Supply where
  | given (bindings : Bindings)
  | captured
deriving DecidableEq, Repr

/-- A command. An absent text stands for that of the last URI. -/
inductive Command where
  | template (origin : Origin) (slot? : Option Text)
  | expand (origin : Origin) (supply : Supply)
  | parse (text? : Option Text)
  | isMatch (origin : Origin) (text? : Option Text)
  | areMatches (origin : Origin) (texts : List Text)
  /-- Keeps the captured values, decoded or as they are. -/
  | captures (origin : Origin) (text? : Option Text) (decode : Bool)
  | emptyCaptures
  | sameTemplate (first second : Origin)
  | sameUri (first second : Text)
deriving DecidableEq, Repr

inductive Answer where
  | template (t : Template)
  | uri (u : Uri)
  | flag (b : Bool)
  | flags (bs : List Bool)
  | captures (cs : Captures)
  | comparison (equal : Bool)
deriving DecidableEq

inductive Failure where
  | error (e : Error)
  /-- The text of a JSON document makes no template. -/
  | refusedDocument (e : Error)
  /-- A JSON document is not a string. -/
  | documentType
  | noTemplate
  | noUri
deriving DecidableEq, Repr

namespace Session

def empty : Session := ⟨[], none, []⟩

/-- A step of a session: it may change the session, report events, and fail. -/
abbrev Step := ExceptT Failure (StateM (Session × List Event))

def report (events : List Event) : Step Unit :=
  modify fun (session, reported) => (session, reported ++ events)

def update (change : Session → Session) : Step Unit :=
  modify fun (session, reported) => (change session, reported)

def current : Step Session := do return (← get).1

def orFail (result : Except Error α) : Step α :=
  match result with
  | .ok a => pure a
  | .error e => throw (.error e)

def resolve : Origin → Step Template
  | .text s => do
    report (Template.ofTextEvents s)
    orFail (Template.ofText s)
  | .document none => throw .documentType
  | .document (some s) => do
    report (Template.ofTextEvents s)
    match Template.ofText s with
    | .ok t => pure t
    | .error e => throw (.refusedDocument e)
  | .slot name => do
    match (← current).templates.lookup name with
    | some t => pure t
    | none => throw .noTemplate

def textOr : Option Text → Step Text
  | some s => pure s
  | none => do
    match (← current).uri? with
    | some u => pure u.text
    | none => throw .noUri

def keepUri (u : Uri) : Step Answer := do
  update fun session => { session with uri? := some u }
  return .uri u

/-- Named values up to the first that does not decode, and the error there. -/
def decodeAll : List Capture → List (Text × Text) × Option Error
  | [] => ([], none)
  | c :: cs =>
    match c.decoded with
    | .error e => ([], some e)
    | .ok s => let rest := decodeAll cs; ((c.name, s) :: rest.1, rest.2)

def keepCaptured (cs : Captures) (decode : Bool) : Step Answer := do
  let (values, error?) :=
    if decode then decodeAll cs.entries
    else (cs.entries.map fun c => (c.name, c.value), none)
  update fun session => { session with captured := values }
  match error? with
  | none => return .captures cs
  | some e => throw (.error e)

def bindingsOf : Supply → Step Bindings
  | .given bindings => pure bindings
  | .captured => do
    return .named ((← current).captured.map fun p => (p.1, .text p.2))

def perform : Command → Step Answer
  | .template origin slot? => do
    let t ← resolve origin
    if let some name := slot? then
      update fun session => { session with templates := (name, t) :: session.templates }
    return .template t
  | .expand origin supply => do
    let t ← resolve origin
    let bindings ← bindingsOf supply
    report (t.expandEvents bindings.source)
    keepUri (← orFail (t.expand bindings.source))
  | .parse text? => do
    let s ← textOr text?
    keepUri (← orFail (Uri.parse s))
  | .isMatch origin text? => do
    let t ← resolve origin
    return .flag (t.isMatch (← textOr text?))
  | .areMatches origin texts => do
    let t ← resolve origin
    return .flags (texts.map t.isMatch)
  | .captures origin text? decode => do
    let t ← resolve origin
    let s ← textOr text?
    report (t.captureEvents s)
    keepCaptured (t.captures s) decode
  | .emptyCaptures => return .captures .empty
  | .sameTemplate first second => do
    let t ← resolve first
    let u ← resolve second
    return .comparison (t = u)
  | .sameUri first second => do
    let u ← orFail (Uri.parse first)
    let v ← orFail (Uri.parse second)
    return .comparison (u = v)

/-- Runs a command: the session after it, its events in order, and its answer. -/
def run (session : Session) (command : Command) : Session × List Event × Except Failure Answer :=
  let (result, session, events) := (perform command).run (session, [])
  (session, events, result)

end Session

end LinkTemplate
