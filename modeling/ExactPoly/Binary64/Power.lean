import ExactPoly.Binary64.Nearest

/-!
# Powers of a binary64 number

`pow x e` is the exact power rounded once to the nearest binary64 number. The exact power has about `53 * e` bits, so it
is first enclosed between two numbers of a bounded working precision; when both round to the same word, the exact power,
which lies between them, rounds to it too.

* `Scaled` : the numbers `man * 2 ^ exp`, cut down to a precision by `Scaled.floor` and `Scaled.ceil`;
* `powWith round x e` : the power by repeated squaring with `round` after each squaring;
* `nearestPow` : the word nearest to the power, `pow` : the power with its sign and special values.
-/

namespace ExactPoly.Binary64

/-- The number `man * 2 ^ exp`. -/
structure Scaled where
  man : Nat
  exp : Int

namespace Scaled

instance : Mul Scaled := ⟨fun x y => ⟨x.man * y.man, x.exp + y.exp⟩⟩

/-- The number of low bits of the significand beyond the first `p`. -/
def excess (p : Nat) (x : Scaled) : Nat := x.man.log2 + 1 - p

/-- Drops the bits beyond the first `p`. -/
def floor (p : Nat) (x : Scaled) : Scaled :=
  ⟨x.man >>> x.excess p, x.exp + x.excess p⟩

/-- Drops the bits beyond the first `p`, rounding up when one of them is set. -/
def ceil (p : Nat) (x : Scaled) : Scaled :=
  ⟨(x.man + (1 <<< x.excess p - 1)) >>> x.excess p, x.exp + x.excess p⟩

/-- The magnitude word nearest to the number. -/
def nearest (x : Scaled) : Nat := Binary64.nearest x.man x.exp

end Scaled

/-- The power `x ^ e` by repeated squaring, with `round` after each squaring; exact when `round` is the identity. -/
def powWith (round : Scaled → Scaled) (x : Scaled) (e : Nat) : Scaled :=
  if e = 0 then ⟨1, 0⟩
  else
    let root := powWith round x (e / 2)
    let square := round (root * root)
    if e % 2 = 1 then square * x else square
termination_by e
decreasing_by omega

/--
The word nearest to `x ^ e`: the first precision decides at which both ends of the enclosure round to one word, and the
exact power where none does.
-/
def nearestPow (x : Scaled) (e : Nat) : List Nat → Nat
  | [] => (powWith id x e).nearest
  | p :: ps =>
    let lo := (powWith (.floor p) x e).nearest
    if lo = (powWith (.ceil p) x e).nearest then lo else nearestPow x e ps

/-- The working precisions tried before the exact power. -/
def precisions : List Nat := [128, 256, 512, 1024, 2048]

/-- The finite number of a magnitude word. -/
def scaledOfWord (w : Nat) : Scaled :=
  if w < leadingBit then ⟨w, -1074⟩ else ⟨leadingBit + w % leadingBit, (w / leadingBit : Nat) - 1075⟩

/--
The power `x ^ e` rounded to the nearest binary64 number. It is `1` for exponent zero whatever `x` is; otherwise it is
negative when `x` has a negative sign and the exponent is odd.
-/
def pow (x : Float) (e : Nat) : Float :=
  let bits := x.toBits.toNat
  let w := bits % signWord
  if e = 0 then 1
  else if infinityWord < w then nan
  else
    ofWord (signWord ≤ bits && e % 2 = 1)
      (if w = infinityWord then infinityWord else nearestPow (scaledOfWord w) e precisions)

end ExactPoly.Binary64
