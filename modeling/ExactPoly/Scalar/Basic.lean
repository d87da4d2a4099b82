import ExactPoly.Binary64.Nearest

/-!
# Scalars: the rationals and one absorbing NaN

A scalar is an exact rational number or `nan`, which stands for every undefined result. It equals itself, so scalars
have decidable equality, and every operation with a `nan` operand gives `nan`.

* `+`, `-`, `*`, `/`, `⁻¹`, unary `-` and `abs` : exact arithmetic; a quotient by zero and the inverse of zero are `nan`;
* `fraction n d` : the scalar `n / d`, which is `nan` when `d = 0`;
* `num?`, `den?` : numerator and denominator in lowest terms;
* `isPositive`, `isNegative`, `sign` : zero is positive, so its sign is `1`;
* `toFloat` : the nearest binary64 number.
-/

namespace ExactPoly

/-- An exact rational number, or the value of an undefined result. -/
inductive Scalar where
  | nan
  | ofRat (q : Rat)
  deriving DecidableEq, Hashable

namespace Scalar

instance : Zero Scalar := ⟨.ofRat 0⟩
instance : One Scalar := ⟨.ofRat 1⟩
instance : Inhabited Scalar := ⟨0⟩

/-- The integer `n`. -/
def ofInt (n : Int) : Scalar := .ofRat n

/-- The fraction `n / d`. The sign of a negative denominator goes over to the numerator. -/
def fraction (n d : Int) : Scalar :=
  if d = 0 then .nan else .ofRat (mkRat (if d < 0 then -n else n) d.natAbs)

/-! ## Arithmetic -/

/-- Applies a function to a rational number. -/
def map (f : Rat → Rat) : Scalar → Scalar
  | .nan => .nan
  | .ofRat a => .ofRat (f a)

/-- Applies a function to two rational numbers. -/
def map₂ (f : Rat → Rat → Rat) : Scalar → Scalar → Scalar
  | .ofRat a, .ofRat b => .ofRat (f a b)
  | _, _ => .nan

instance : Add Scalar := ⟨map₂ (· + ·)⟩
instance : Sub Scalar := ⟨map₂ (· - ·)⟩
instance : Mul Scalar := ⟨map₂ (· * ·)⟩
instance : Neg Scalar := ⟨map (- ·)⟩
instance : Div Scalar := ⟨fun a b => if b = 0 then .nan else map₂ (· / ·) a b⟩
instance : Inv Scalar := ⟨fun a => if a = 0 then .nan else map (·⁻¹) a⟩

/-- The absolute value. -/
def abs : Scalar → Scalar := map Rat.abs

/-! ## Questions about a scalar -/

/-- The rational number, unless the scalar is `nan`. -/
def toRat? : Scalar → Option Rat
  | .nan => none
  | .ofRat q => some q

/-- The numerator in lowest terms. -/
def num? (a : Scalar) : Option Int := a.toRat?.map Rat.num

/-- The denominator in lowest terms, which is positive. -/
def den? (a : Scalar) : Option Nat := a.toRat?.map Rat.den

def isNaN (a : Scalar) : Bool := a.toRat?.isNone

def isZero (a : Scalar) : Bool := a == 0

def isOne (a : Scalar) : Bool := a == 1

/-- Whether the scalar is a whole number. -/
def isInteger (a : Scalar) : Bool := a.den? == some 1

/-- Whether the scalar is a number without a minus sign; zero counts as positive. -/
def isPositive (a : Scalar) : Bool := a.toRat?.any (0 ≤ ·)

/-- Whether the scalar is below zero. -/
def isNegative (a : Scalar) : Bool := a.toRat?.any (· < 0)

/-- The sign: `1` when the scalar is positive, `-1` when it is negative, and `0` when it is neither. -/
def sign (a : Scalar) : Int := if a.isPositive then 1 else if a.isNegative then -1 else 0

/-- The nearest binary64 number, ties to even. -/
def toFloat : Scalar → Float
  | .nan => Binary64.nan
  | .ofRat q => Binary64.ofRat q

end Scalar

end ExactPoly
