/-!
# Decimal numbers in text

Texts are lists of characters; a digit is one of `0` to `9`.

* `isDigits` : a non-empty run of digits, leading zeros allowed;
* `readNat?`, `readInt?` : the value of such a run, for `readInt?` after at most one minus sign;
* `renderNat`, `renderInt` : the text without leading zeros, which reads back as the number.
-/

namespace ExactPoly.Text

/-- Whether the text is a non-empty run of decimal digits. -/
def isDigits (cs : List Char) : Bool := !cs.isEmpty && cs.all Char.isDigit

/-- The value of a non-empty run of decimal digits. -/
def readNat? (cs : List Char) : Option Nat :=
  if isDigits cs then some (Nat.ofDigitChars 10 cs 0) else none

/-- The value of a non-empty run of decimal digits after at most one minus sign. -/
def readInt? : List Char → Option Int
  | '-' :: cs => (readNat? cs).map (-Int.ofNat ·)
  | cs => (readNat? cs).map Int.ofNat

/-- The decimal digits of a number. -/
def renderNat (n : Nat) : List Char := Nat.toDigits 10 n

/-- The decimal digits of a number, after a minus sign when it is negative. -/
def renderInt : Int → List Char
  | .ofNat n => renderNat n
  | .negSucc n => '-' :: renderNat (n + 1)

/-! ## What is written reads back -/

theorem isDigits_renderNat (n : Nat) : isDigits (renderNat n) = true := by
  have hne : Nat.toDigits 10 n ≠ [] := Nat.toDigits_ne_nil
  simp only [isDigits, renderNat, Bool.and_eq_true, List.all_eq_true]
  refine ⟨by simp [hne], fun c hc => Nat.isDigit_of_mem_toDigits (by decide) (by decide) hc⟩

theorem readNat?_renderNat (n : Nat) : readNat? (renderNat n) = some n := by
  rw [readNat?, if_pos (isDigits_renderNat n), renderNat, Nat.ofDigitChars_toDigits (by decide) (by decide)]

end ExactPoly.Text
