/-!
# Rounding to binary64

The binary64 magnitudes are the words `0, 1, …, infinityWord` in the order of their values: a word holds a biased
exponent above 52 fraction bits, so a significand that rounds up to `2 ^ 53` carries into the exponent by itself.

* `roundShift m s` : `m / 2 ^ s` as a whole number, a half going to the even neighbour;
* `nearest m e` : the word of the magnitude nearest to `m * 2 ^ e`;
* `nearestRatio n d` : the word of the magnitude nearest to `n / d`;
* `ofRat q` : the binary64 number nearest to `q`, ties to even.
-/

namespace ExactPoly.Binary64

/-- The word of positive infinity, and the least word that is no finite magnitude. -/
def infinityWord : Nat := 0x7FF0000000000000

/-- The word of the sign bit. -/
def signWord : Nat := 0x8000000000000000

/-- The least significand of 53 bits; a normal number leaves this bit out of its word. -/
def leadingBit : Nat := 0x10000000000000

/-- Divides by `2 ^ s`, a half going to the even neighbour. -/
def roundShiftRight (m s : Nat) : Nat :=
  if m.log2 + 1 < s then 0
  else
    let q := m >>> s
    let unit := 1 <<< s
    let r := m % unit
    if unit < 2 * r ∨ 2 * r = unit ∧ q % 2 = 1 then q + 1 else q

/-- Divides by `2 ^ s`, a half going to the even neighbour; a negative `s` multiplies. -/
def roundShift (m : Nat) : Int → Nat
  | .ofNat s => roundShiftRight m s
  | .negSucc s => m <<< (s + 1)

/--
The word of the magnitude nearest to `m * 2 ^ e`, ties to even. The last place of the result is worth `2 ^ u`, where
`u` leaves 53 significant bits and is at least `-1074`, the exponent of the subnormal numbers.
-/
def nearest (m : Nat) (e : Int) : Nat :=
  if m = 0 then 0
  else if 1024 ≤ m.log2 + e then infinityWord
  else
    let u := max (m.log2 + e - 52) (-1074)
    min ((u + 1074).toNat * leadingBit + roundShift m (u - e)) infinityWord

/--
The word of the magnitude nearest to `n / d`, ties to even. The quotient is taken to at least 56 bits; the bit appended
to it says whether the division left a remainder, so no tie is seen where there is none.
-/
def nearestRatio (n d : Nat) : Nat :=
  let s := 56 + d.log2 - n.log2
  let m := n <<< s
  nearest (2 * (m / d) + if m % d = 0 then 0 else 1) (-s - 1)

/-- The binary64 number with the given magnitude word and sign. -/
def ofWord (negative : Bool) (w : Nat) : Float :=
  .ofBits (.ofNat (if negative then signWord + w else w))

/-- The one value that stands for all that is no number. -/
def nan : Float := .ofBits 0x7FF8000000000000

/-- The binary64 number nearest to `q`, ties to even; a negative number too small for the format gives `-0.0`. -/
def ofRat (q : Rat) : Float :=
  ofWord (q < 0) (nearestRatio q.num.natAbs q.den)

end ExactPoly.Binary64
