import ExactPoly.Poly.Traced

/-!
# Arithmetic of polynomials

Sums, products and division with remainder are exact. An operation with a NaN operand gives NaN, and so does a product
with an exponent past the largest one. The functions whose names end in `M` are the operations with the lists they freeze.

* `-p`, `p + q`, `p - q`, `p * q`, and `mulTerm`, the product with one term;
* `nextStep?`, `longDivision` : the steps of long division;
* `divMod`, `p / q`, `p % q` : quotient and remainder, with `p = q * (p / q) + p % q` and a remainder that is zero or of a
  smaller degree than `q`; both are NaN when `q` is zero.
-/

namespace ExactPoly.Poly

def negM (p : Poly) : Traced Poly := if p.isNaN then pure nan else freeze (TermList.scale (-1) p.terms)

instance : Neg Poly := ⟨fun p => (negM p).value⟩

def addM (p q : Poly) : Traced Poly :=
  if p.isNaN || q.isNaN then pure nan else freeze (TermList.insertAll p.terms q.terms)

instance : Add Poly := ⟨fun p q => (addM p q).value⟩

def subM (p q : Poly) : Traced Poly := do addM p (← negM q)

instance : Sub Poly := ⟨fun p q => (subM p q).value⟩

def mulTermM (p : Poly) (t : Term) : Traced Poly := freeze (TermList.shift t.expt (TermList.scale t.coeff p.terms))

/-- The product with a single term. -/
def mulTerm (p : Poly) (t : Term) : Poly := (mulTermM p t).value

def mulM (p q : Poly) : Traced Poly :=
  if p.isNaN || q.isNaN then pure nan else p.terms.foldlM (fun sum t => do addM sum (← mulTermM q t)) 0

instance : Mul Poly := ⟨fun p q => (mulM p q).value⟩

/-! ## Division with remainder -/

/-- The term whose product with `v` has the leading term of `r`; there is none when `r` has the smaller degree. -/
def nextStep? (v r : Poly) : Option Term :=
  match r.lead?, v.lead? with
  | some a, some b => if a.expt < b.expt then none else some (.monomial (a.coeff / b.coeff) (a.expt - b.expt))
  | _, _ => none

/--
The terms of the quotient by `v` and the remainder after at most `fuel` steps. A step subtracts the product of `v` with
the term found by `nextStep?`, which cancels the leading term of `r`.
-/
def longDivisionM (v : Poly) : Nat → Poly → Traced (List Term × Poly)
  | 0, r => pure ([], r)
  | fuel + 1, r =>
    match nextStep? v r with
    | none => pure ([], r)
    | some t => do
      let rest ← longDivisionM v fuel (← subM r (← mulTermM v t))
      return (t :: rest.1, rest.2)

def longDivision (v : Poly) (fuel : Nat) (r : Poly) : List Term × Poly := (longDivisionM v fuel r).value

/-- The number of steps that is always enough: each one lowers the degree, which starts at that of `u`. -/
def stepBound (v u : Poly) : Nat := u.degree + 1 - v.degree

def divModM (u v : Poly) : Traced (Poly × Poly) :=
  if u.isNaN || v.isNaN || v.isZero then pure (nan, nan)
  else do
    let result ← longDivisionM v (stepBound v u) u
    return (← freeze result.1, result.2)

/-- Quotient and remainder. -/
def divMod (u v : Poly) : Poly × Poly := (divModM u v).value

instance : Div Poly := ⟨fun u v => (divMod u v).1⟩
instance : Mod Poly := ⟨fun u v => (divMod u v).2⟩

end ExactPoly.Poly
