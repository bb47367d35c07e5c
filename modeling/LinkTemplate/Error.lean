import LinkTemplate.Text

namespace LinkTemplate

/-- What keeps a text from being a URI. -/
inductive Uri.Fault where
  | emptyScheme
  | badSchemeChar
  | emptyPart
  | emptyAuthority
deriving DecidableEq, Repr

inductive Cause where
  | blankTemplate
  | noValue (name : Text)
  | countMismatch (expected actual : Nat)
  | invalidUri (fault : Uri.Fault)
  /-- The template's pattern weighs more than `limit`. -/
  | heavyPattern (limit : Nat)
  /-- The escapes of a captured value are not UTF-8. -/
  | invalidUtf8
deriving DecidableEq, Repr

structure Error where
  input : Text
  /-- A byte position in the input. -/
  index? : Option Nat
  cause : Cause
deriving DecidableEq, Repr

def Uri.Fault.message : Uri.Fault → Text
  | .emptyScheme => "expected scheme name".toList
  | .badSchemeChar => "illegal character in scheme name".toList
  | .emptyPart => "expected scheme-specific part".toList
  | .emptyAuthority => "expected authority".toList

def Cause.message : Cause → Text
  | .blankTemplate => "template must contain at least one non-whitespace character".toList
  | .noValue name => "no value for variable '".toList ++ name ++ "'".toList
  | .countMismatch expected actual =>
    "expected ".toList ++ Text.decimal expected ++ " variable values, got ".toList ++
      Text.decimal actual
  | .invalidUri fault => "invalid result uri: ".toList ++ fault.message
  | .heavyPattern limit =>
    "invalid match pattern: Compiled regex exceeds size limit of ".toList ++ Text.decimal limit ++
      " bytes.".toList
  | .invalidUtf8 => "invalid utf-8 in percent-encoded value".toList

/-- The input; four marks show the position if there is one. -/
def Error.context (e : Error) : Text :=
  match e.index? with
  | none => e.input
  | some index =>
    let parts := Text.splitAtByte index e.input
    parts.1 ++ " >>>> ".toList ++ parts.2

def Error.message (e : Error) : Text :=
  e.cause.message ++ " (\"".toList ++ e.context ++ "\")".toList

end LinkTemplate
