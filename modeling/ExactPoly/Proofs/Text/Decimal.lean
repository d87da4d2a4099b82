import Mathlib.Data.List.Induction
import ExactPoly.Text.Decimal

/-!
# Decimal numerals

* `Numeral cs n` : the digits `cs` have, from left to right, the value `n`;
* `exists_digitChar` : every digit is that of a number below ten;
* `readNat?_eq_some_iff`, `readNat?_eq_none_iff` : `readNat?` reads the numerals and no other text.
-/

namespace ExactPoly.Text

/-- A non-empty run of digits, leading zeros allowed, and its value. -/
inductive Numeral : List Char → Nat → Prop
  | digit {d : Nat} (hd : d < 10) : Numeral [d.digitChar] d
  | concat {cs : List Char} {n d : Nat} (h : Numeral cs n) (hd : d < 10) : Numeral (cs ++ [d.digitChar]) (10 * n + d)

theorem exists_digitChar {c : Char} (h : c.isDigit = true) : ∃ d < 10, c = d.digitChar := by
  have hbounds : 48 ≤ c.toNat ∧ c.toNat ≤ 57 := by simpa [Char.isDigit, UInt32.le_iff_toNat_le] using h
  obtain ⟨hlo, hhi⟩ := hbounds
  refine ⟨c.toNat - 48, by omega, ?_⟩
  rw [← Char.toNat_inj, Nat.toNat_digitChar_of_lt_ten (by omega)]
  omega

theorem isDigit_digitChar {d : Nat} (hd : d < 10) : d.digitChar.isDigit = true := by
  rw [Nat.isDigit_digitChar, decide_eq_true hd]

theorem ofDigitChars_concat (cs : List Char) {d : Nat} (hd : d < 10) :
    Nat.ofDigitChars 10 (cs ++ [d.digitChar]) 0 = 10 * Nat.ofDigitChars 10 cs 0 + d := by
  rw [Nat.ofDigitChars_append, Nat.ofDigitChars_cons, Nat.ofDigitChars_nil, Nat.toNat_digitChar_of_lt_ten hd]
  have h0 : '0'.toNat = 48 := rfl
  omega

theorem ofDigitChars_singleton {d : Nat} (hd : d < 10) : Nat.ofDigitChars 10 [d.digitChar] 0 = d := by
  have := ofDigitChars_concat [] hd
  simpa using this

theorem readNat?_eq_some_iff_digits {cs : List Char} {n : Nat} :
    readNat? cs = some n ↔ (cs ≠ [] ∧ ∀ c ∈ cs, c.isDigit = true) ∧ Nat.ofDigitChars 10 cs 0 = n := by
  simp [readNat?, isDigits]

theorem readNat?_eq_some {cs : List Char} {n : Nat} (h : readNat? cs = some n) :
    cs ≠ [] ∧ ∀ c ∈ cs, c.isDigit = true := (readNat?_eq_some_iff_digits.mp h).1

theorem numeral_ofDigitChars {cs : List Char} (hne : cs ≠ []) (h : ∀ c ∈ cs, c.isDigit = true) :
    Numeral cs (Nat.ofDigitChars 10 cs 0) := by
  induction cs using List.reverseRecOn with
  | nil => exact absurd rfl hne
  | append_singleton cs c ih =>
    obtain ⟨hcs, hc⟩ := List.forall_mem_append.mp h
    obtain ⟨d, hd, rfl⟩ := exists_digitChar (hc c (by simp))
    by_cases h0 : cs = []
    · subst h0
      rw [List.nil_append, ofDigitChars_singleton hd]
      exact .digit hd
    · rw [ofDigitChars_concat cs hd]
      exact .concat (ih h0 hcs) hd

theorem readNat?_eq_some_iff {cs : List Char} {n : Nat} : readNat? cs = some n ↔ Numeral cs n := by
  constructor
  · intro h
    obtain ⟨⟨hne, hdigits⟩, rfl⟩ := readNat?_eq_some_iff_digits.mp h
    exact numeral_ofDigitChars hne hdigits
  · intro h
    induction h with
    | digit hd =>
      exact readNat?_eq_some_iff_digits.mpr ⟨by simp [isDigit_digitChar hd], ofDigitChars_singleton hd⟩
    | concat h hd ih =>
      obtain ⟨⟨hne, hdigits⟩, rfl⟩ := readNat?_eq_some_iff_digits.mp ih
      refine readNat?_eq_some_iff_digits.mpr ⟨⟨by simp, ?_⟩, ofDigitChars_concat _ hd⟩
      exact List.forall_mem_append.mpr ⟨hdigits, by simp [isDigit_digitChar hd]⟩

theorem readNat?_eq_none_iff {cs : List Char} : readNat? cs = none ↔ ¬ ∃ n, Numeral cs n := by
  simp only [← readNat?_eq_some_iff, Option.eq_none_iff_forall_ne_some, not_exists, ne_eq]

end ExactPoly.Text
