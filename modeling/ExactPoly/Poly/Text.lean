import ExactPoly.Poly.Traced
import ExactPoly.Term.Text

/-!
# The text of a polynomial

A polynomial is written as its terms, each later one with its sign in front. In a text that is read, the signs `+` and
`-` cut out the bodies, the longest runs of other characters; a body is read as a term with the last sign before it.

* `render` : the text of a polynomial;
* `Scan`, `Scan.step`, `Scan.run` : a scan of a text from left to right, which reads a body when it meets the sign after it;
* `Scan.finish` : reads the body after the last sign; a text that ends in a sign is an error;
* `readTerms` : the scan of a whole text, `parse` : the polynomial of its terms.
-/

namespace ExactPoly.Poly

open Text

/-! ## Writing -/

/-- The text of a term after another one. -/
def renderNext (t : Term) : List Char := if t.coeff.isNegative then t.render else '+' :: t.render

/-- The text of a polynomial as characters. -/
def render (p : Poly) : List Char :=
  match p.terms with
  | [] => ['0']
  | t :: ts => if p.isNaN then ['N', 'a', 'N'] else t.render ++ ts.flatMap renderNext

instance : ToString Poly := ⟨fun p => .ofList p.render⟩

/-- The terms of a polynomial with their parts by name, as a reader of a trace wants to see them. -/
def inspect (p : Poly) : String :=
  "RatPoly \x7b terms: [" ++ ", ".intercalate (p.terms.map Term.inspect) ++ "] \x7d"

/-! ## Reading -/

/-- Why a text is no polynomial. Positions count bytes from the start of the text. -/
inductive ParseError where
  | empty
  | danglingSign (position : Nat)
  | term (position : Nat) (cause : Term.ParseError)
  deriving DecidableEq

/-- The wording of the error. -/
def ParseError.message : ParseError → String
  | .empty => "empty polynomial"
  | .danglingSign position => "sign at byte " ++ toString position ++ " is not followed by a term"
  | .term position cause => "bad term at byte " ++ toString position ++ ": " ++ cause.message

/-- Whether the character is a sign, which ends a body. -/
def isSign (c : Char) : Bool := c == '+' || c == '-'

/-- The state of a scan: the list of the terms read so far, the sign of the next body and the byte where it starts. -/
structure Scan where
  terms : List Term
  negative : Bool
  start : Nat

/-- The state before the first character. -/
def Scan.init : Scan := ⟨[], false, 0⟩

/-- Reads the body that ends before byte `stop` of the text and inserts its term, with its sign, into the list. -/
def Scan.pushBody (text : List Char) (stop : Nat) (s : Scan) : Except ParseError Scan :=
  match Term.parse (slice s.start stop text) with
  | .ok t => .ok { s with terms := TermList.insert (if s.negative then -t else t) s.terms }
  | .error e => .error (.term s.start e)

/-- Goes past the character `c` at byte `i` of the text: a sign ends the body before it, if there is one. -/
def Scan.step (text : List Char) (i : Nat) (c : Char) (s : Scan) : Except ParseError Scan :=
  if isSign c then do
    let s ← if s.start < i then s.pushBody text i else .ok s
    return { s with negative := c == '-', start := i + 1 }
  else .ok s

/-- Goes past the characters that start at byte `i` of the text. -/
def Scan.run (text : List Char) (i : Nat) : List Char → Scan → Except ParseError Scan
  | [], s => .ok s
  | c :: cs, s => s.step text i c >>= Scan.run text (i + c.utf8Size) cs

/-- Reads the body after the last sign, which must not be missing. -/
def Scan.finish (text : List Char) (s : Scan) : Except ParseError (List Term) :=
  if s.start = byteSize text then .error (.danglingSign (s.start - 1))
  else return (← s.pushBody text (byteSize text)).terms

/-- Reads the terms of a text into one list. -/
def readTerms (text : List Char) : Except ParseError (List Term) :=
  if text = [] then .error .empty
  else Scan.init.run text 0 text >>= Scan.finish text

def ofListM (l : List Term) : Traced Poly := if l.any Term.isNaN then pure nan else freeze l

/-- The polynomial with the given list of terms, `nan` when one of them is NaN. -/
def ofList (l : List Term) : Poly := (ofListM l).value

def parseM (text : List Char) : Except ParseError (Traced Poly) := (readTerms text).map ofListM

/-- Reads a polynomial from the characters of its text. -/
def parse (text : List Char) : Except ParseError Poly := (parseM text).map Traced.value

/-- Reads a polynomial. -/
def ofString (s : String) : Except ParseError Poly := parse s.toList

/-- Reads a polynomial from its string in a data format, where an error is only its wording. -/
def deserialize (s : String) : Except String Poly := (ofString s).mapError ParseError.message

end ExactPoly.Poly
