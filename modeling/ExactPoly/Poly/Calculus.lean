import ExactPoly.Poly.Traced

/-!
# Calculus of polynomials

Derivatives and antiderivatives are exact; values and definite integrals are binary64 numbers. The functions whose names
end in `M` are the operations with the lists they freeze.

* `derivative p`, `antiderivative p c` : term by term, with the constant term `c` in the antiderivative;
* `eval p x` : the values of the terms added from the largest exponent down;
* `integrate p lo hi` : the difference of the antiderivative at the bounds, in either order.
-/

namespace ExactPoly.Poly

def derivativeM (p : Poly) : Traced Poly :=
  if p.isNaN then pure nan else freeze ((p.terms.map Term.derivative).filter (!·.isZero))

/-- The derivative. -/
def derivative (p : Poly) : Poly := (derivativeM p).value

def antiderivativeM (p : Poly) (c : Scalar) : Traced Poly :=
  if p.isNaN || c.isNaN then pure nan
  else
    let ts := p.terms.map Term.antiderivative
    if ts.any Term.isNaN then pure nan else freeze (ts ++ if c.isZero then [] else [.const c])

/-- The antiderivative with constant term `c`; NaN when the degree is the largest exponent. -/
def antiderivative (p : Poly) (c : Scalar) : Poly := (antiderivativeM p c).value

/-- The value at `x`. The sum starts at `-0.0`, to which any number can be added without a change. -/
def eval (p : Poly) (x : Float) : Float :=
  if p.isNaN then Binary64.nan else p.terms.foldl (fun sum t => sum + t.eval x) (-0.0)

/-- The definite integral from `lo` to `hi`. -/
def integrate (p : Poly) (lo hi : Float) : Float :=
  if lo.isNaN || hi.isNaN || p.isNaN then Binary64.nan
  else
    let q := p.antiderivative 0
    q.eval hi - q.eval lo

end ExactPoly.Poly
