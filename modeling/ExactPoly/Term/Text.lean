import ExactPoly.Scalar.Text
import ExactPoly.Term.Basic

/-!
# The text of a term

A term is written `C*x^E` with its sign in front; the coefficient `1` is left out before a power, the exponent `1` after
`x`, and the whole power at exponent zero. The text that is read is more liberal:

    term ::= scalar | [scalar ["*"] | "-"] "x" ["^" digits]

The coefficient is all that stands before the first `x`, the power all that follows it. A bad coefficient is reported
before a bad power, a power without a caret before one with a bad exponent.
-/

namespace ExactPoly.Term

open Text

/-- Why a text is no term. -/
inductive ParseError where
  | empty
  | coefficient (cause : Scalar.ParseError)
  | exponent (text : String)
  | malformed (text : String)
  deriving DecidableEq

/-- The wording of the error. -/
def ParseError.message : ParseError → String
  | .empty => "empty term"
  | .coefficient cause => "invalid coefficient: " ++ cause.message
  | .exponent text => "invalid exponent `" ++ text ++ "`"
  | .malformed text => "malformed term `" ++ text ++ "`"

/-- The text of the power `x ^ e` with a positive exponent. -/
def renderPower (e : Nat) : List Char :=
  if e = 1 then ['x'] else 'x' :: '^' :: renderNat e

/-- The text of a term without its sign, from the absolute value of its coefficient. -/
def renderMagnitude (a : Scalar) (e : Nat) : List Char :=
  if e = 0 then a.render
  else if a = 1 then renderPower e
  else a.render ++ '*' :: renderPower e

/-- The text of a term as characters. -/
def render (t : Term) : List Char :=
  (if t.coeff.isNegative then ['-'] else []) ++ renderMagnitude t.coeff.abs t.expt

instance : ToString Term := ⟨fun t => .ofList t.render⟩

/-- The parts of a term by name, as a reader of a trace wants to see them. -/
def inspect (t : Term) : String :=
  "Term \x7b coeff: " ++ t.coeff.inspect ++ ", expt: " ++ toString t.expt ++ " \x7d"

/-- Reads what stands before the `x`: nothing is `1`, a lone minus sign is `-1`, and one trailing star is left out. -/
def parseCoeff (cs : List Char) : Except ParseError Scalar :=
  if cs = [] then .ok 1
  else if cs = ['-'] then .ok (-1)
  else (Scalar.parse (if cs.getLast? = some '*' then cs.dropLast else cs)).mapError .coefficient

/-- Reads the digits after the caret. -/
def parseExpt (cs : List Char) : Except ParseError Nat :=
  match readNat? cs with
  | some e => if e ≤ maxExpt then .ok e else .error (.exponent (.ofList cs))
  | none => .error (.exponent (.ofList cs))

/-- Reads what follows the `x` in the term `whole`: nothing is the exponent `1`. -/
def parsePower (whole : List Char) : List Char → Except ParseError Nat
  | [] => .ok 1
  | '^' :: cs => parseExpt cs
  | _ => .error (.malformed (.ofList whole))

/-- Reads a term from the characters of its text. -/
def parse (cs : List Char) : Except ParseError Term :=
  if cs = [] then .error .empty
  else
    match after? 'x' cs with
    | none => (Scalar.parse cs).mapError .coefficient |>.map const
    | some power => do
      let c ← parseCoeff (before 'x' cs)
      let e ← parsePower cs power
      return monomial c e

/-- Reads a term. -/
def ofString (s : String) : Except ParseError Term := parse s.toList

/-- Reads a term from its string in a data format, where an error is only its wording. -/
def deserialize (s : String) : Except String Term := (ofString s).mapError ParseError.message

end ExactPoly.Term
