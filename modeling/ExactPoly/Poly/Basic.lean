import ExactPoly.TermList

/-!
# Polynomials in one variable

A polynomial is its list of terms, the largest exponent first. The empty list is the zero polynomial, and one NaN
coefficient makes the whole polynomial NaN, whatever its other terms are. A polynomial that is not NaN is well formed
when its exponents descend strictly and no coefficient is zero; `violation?` names the first place where that fails.

* `0`, `nan`, `ofTerm`, `ofInt` : ways to make a polynomial;
* `isNaN`, `isZero`, `degree`, `lead?`, `termAt` : questions about one;
* `==` : NaN polynomials are equal, others when their terms are; the hash agrees with it;
* `Violation`, `violation?` : what keeps a polynomial from being well formed.
-/

namespace ExactPoly

/-- A polynomial as the list of its terms. -/
@[ext]
structure Poly where
  terms : List Term

namespace Poly

instance : Zero Poly := ⟨⟨[]⟩⟩
instance : Inhabited Poly := ⟨0⟩

/-- The NaN polynomial. -/
def nan : Poly := ⟨[.nan]⟩

/-- The polynomial of one term. -/
def ofTerm (t : Term) : Poly := if t.isZero then 0 else ⟨[t]⟩

/-- The polynomial `c * x ^ e`. -/
def ofInt (c : Int) (e : Nat) : Poly := ofTerm (.monomial (.ofInt c) e)

/-- Whether some coefficient is NaN. -/
def isNaN (p : Poly) : Bool := p.terms.any Term.isNaN

def isZero (p : Poly) : Bool := p.terms.isEmpty

/-- The term with the largest exponent. -/
def lead? (p : Poly) : Option Term := p.terms.head?

/-- The largest exponent, zero for the zero polynomial. -/
def degree (p : Poly) : Nat := p.lead?.elim 0 Term.expt

/-- The term of exponent `e`, zero when there is none; terms after the first smaller exponent are not looked at. -/
def termAt (p : Poly) (e : Nat) : Term :=
  ((p.terms.takeWhile (e ≤ ·.expt)).find? (·.expt = e)).getD 0

/-! ## Equality -/

instance : BEq Poly := ⟨fun p q => if p.isNaN || q.isNaN then p.isNaN && q.isNaN else p.terms == q.terms⟩

/-- What the hash of a polynomial depends on: nothing for a NaN polynomial, the terms for any other. -/
def hashKey (p : Poly) : Option (List Term) := if p.isNaN then none else some p.terms

instance : Hashable Poly := ⟨fun p => hash p.hashKey⟩

/-! ## Well-formedness -/

/-- What is wrong with a list of terms, and where. -/
inductive Violation where
  | zeroCoefficient (index : Nat)
  | duplicateExponent (index expt : Nat)
  | outOfOrder (index : Nat)
  deriving DecidableEq

/-- The wording of the violation. -/
def Violation.message : Violation → String
  | .zeroCoefficient i => "term " ++ toString i ++ " has a zero coefficient"
  | .duplicateExponent i e =>
    "terms " ++ toString i ++ " and " ++ toString (i + 1) ++ " share exponent " ++ toString e
  | .outOfOrder i => "term " ++ toString (i + 1) ++ " has a larger exponent than term " ++ toString i

/-- The first place where the exponents do not descend, the first term of the list having index `i`. -/
def orderViolation? (i : Nat) : List Term → Option Violation
  | s :: t :: l =>
    if s.expt = t.expt then some (.duplicateExponent i s.expt)
    else if s.expt < t.expt then some (.outOfOrder i)
    else orderViolation? (i + 1) (t :: l)
  | _ => none

/-- The first violation; zero coefficients are looked for before the order, and a NaN polynomial has none. -/
def violation? (p : Poly) : Option Violation :=
  if p.isNaN then none
  else (p.terms.findIdx? Term.isZero).map .zeroCoefficient <|> orderViolation? 0 p.terms

end Poly

end ExactPoly
