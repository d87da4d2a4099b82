import ExactPoly.Binary64.Power
import ExactPoly.Scalar.Basic

/-!
# Terms: a coefficient times a power of `x`

* `Term` : the term `coeff * x ^ expt`, with exponents up to `maxExpt`; a zero or NaN coefficient has exponent zero, so
  there is one zero term and one NaN term;
* `Term.monomial c e` : the term `c * x ^ e`;
* `add?` : the sum, when it is a term; `neg`, `scale`, `withExpt`;
* `derivative`, `antiderivative`, `eval`.
-/

namespace ExactPoly

/-- The largest exponent of a term. -/
def maxExpt : Nat := 4294967295

/-- The term `coeff * x ^ expt`. -/
@[ext]
structure Term where
  coeff : Scalar
  expt : Nat
  expt_le : expt ≤ maxExpt
  expt_eq_zero : coeff = 0 ∨ coeff = .nan → expt = 0
  deriving DecidableEq, Hashable

namespace Term

/-- The NaN term. -/
def nan : Term := ⟨.nan, 0, Nat.zero_le _, fun _ => rfl⟩

/--
The term `c * x ^ e`. An exponent is a 32-bit number, so `e` counts modulo `maxExpt + 1`: an operation that can go past the
largest exponent has to look first.
-/
def monomial (c : Scalar) (e : Nat) : Term :=
  if hc : c = 0 ∨ c = .nan then ⟨c, 0, Nat.zero_le _, fun _ => rfl⟩
  else ⟨c, e % (maxExpt + 1), Nat.le_of_lt_succ (Nat.mod_lt _ (Nat.succ_pos _)), fun h => absurd h hc⟩

/-- The constant term `c`. -/
def const (c : Scalar) : Term := ⟨c, 0, Nat.zero_le _, fun _ => rfl⟩

instance : Zero Term := ⟨const 0⟩
instance : Inhabited Term := ⟨0⟩

def isZero (t : Term) : Bool := t.coeff.isZero

def isNaN (t : Term) : Bool := t.coeff.isNaN

/-! ## Arithmetic -/

/-- The sum, which is a term when one operand is NaN or zero or the exponents are equal. -/
def add? (s t : Term) : Option Term :=
  if s.isNaN || t.isNaN then some nan
  else if s.isZero then some t
  else if t.isZero then some s
  else if s.expt = t.expt then some (monomial (s.coeff + t.coeff) s.expt)
  else none

instance : Neg Term := ⟨fun t => monomial (-t.coeff) t.expt⟩

/-- The product with a scalar. -/
def scale (a : Scalar) (t : Term) : Term := monomial (t.coeff * a) t.expt

/-- The same coefficient at another exponent. -/
def withExpt (t : Term) (e : Nat) : Term := monomial t.coeff e

/-! ## Calculus -/

/-- The derivative `c * e * x ^ (e - 1)` of `c * x ^ e`; a constant has the derivative zero. -/
def derivative (t : Term) : Term :=
  if t.isNaN then nan
  else if t.expt = 0 then 0
  else monomial (t.coeff * .ofInt t.expt) (t.expt - 1)

/-- The antiderivative `c / (e + 1) * x ^ (e + 1)` of `c * x ^ e`, NaN when the exponent is the largest one. -/
def antiderivative (t : Term) : Term :=
  if t.isNaN then nan
  else if t.expt = maxExpt then nan
  else monomial (t.coeff / .ofInt (t.expt + 1)) (t.expt + 1)

/-- The value at `x`, with the coefficient and the power each rounded before they are multiplied. -/
def eval (t : Term) (x : Float) : Float :=
  if t.isNaN then Binary64.nan else t.coeff.toFloat * Binary64.pow x t.expt

end Term

end ExactPoly
