import ExactPoly.Scalar.Basic
import ExactPoly.Text.Decimal
import ExactPoly.Text.Split

/-!
# The text of a scalar

A scalar is written `N`, `N/D` in lowest terms, or `NaN`. The text that is read need not be in lowest terms:

    scalar ::= "NaN" | ["-"] digits ["/" digits]

where a zero denominator gives `nan`. Errors name the part of the text that is at fault: the numerator is the text before
the first slash and is judged first, the denominator all that follows the slash.
-/

namespace ExactPoly.Scalar

open Text

/-- Why a text is no scalar. -/
inductive ParseError where
  | empty
  | numerator (text : String)
  | denominator (text : String)
  deriving DecidableEq

/-- The wording of the error. -/
def ParseError.message : ParseError → String
  | .empty => "empty rational literal"
  | .numerator text => "invalid numerator `" ++ text ++ "`"
  | .denominator text => "invalid denominator `" ++ text ++ "`"

/-- The text of a scalar as characters. -/
def render : Scalar → List Char
  | .nan => ['N', 'a', 'N']
  | .ofRat q => if q.den = 1 then renderInt q.num else renderInt q.num ++ '/' :: renderNat q.den

instance : ToString Scalar := ⟨fun a => .ofList a.render⟩

/-- The text of a scalar with its kind, as a reader of a trace wants to see it. -/
def inspect (a : Scalar) : String := "Rational(" ++ toString a ++ ")"

/-- Reads a numerator and, after a slash, a denominator. -/
def parseFraction (cs : List Char) : Except ParseError Scalar :=
  match readInt? (before '/' cs) with
  | none => .error (.numerator (.ofList (before '/' cs)))
  | some n =>
    match after? '/' cs with
    | none => .ok (ofInt n)
    | some ds =>
      match readNat? ds with
      | none => .error (.denominator (.ofList ds))
      | some d => .ok (fraction n d)

/-- Reads a scalar from the characters of its text. -/
def parse (cs : List Char) : Except ParseError Scalar :=
  if cs = [] then .error .empty
  else if cs = ['N', 'a', 'N'] then .ok .nan
  else parseFraction cs

/-- Reads a scalar. -/
def ofString (s : String) : Except ParseError Scalar := parse s.toList

/-- Reads a scalar from its string in a data format, where an error is only its wording. -/
def deserialize (s : String) : Except String Scalar := (ofString s).mapError ParseError.message

end ExactPoly.Scalar
