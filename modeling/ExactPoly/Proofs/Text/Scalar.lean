import Mathlib.Algebra.Order.Ring.Unbundled.Rat
import Mathlib.Data.List.TakeWhile
import ExactPoly.Proofs.Scalar
import ExactPoly.Scalar.Text

/-!
# The text of a scalar

* `isDigit_of_mem_renderNat`, `mem_renderInt`, `Scalar.mem_render` : the characters that are written;
* `readInt?_renderInt` : a number in decimal digits reads back;
* `Scalar.parse_render` : the text of a scalar reads back.
-/

namespace ExactPoly

open Text

namespace Text

theorem isDigit_of_mem_renderNat {n : Nat} {c : Char} (h : c ∈ renderNat n) : c.isDigit = true :=
  Nat.isDigit_of_mem_toDigits (by decide) (by decide) h

theorem renderNat_ne_nil (n : Nat) : renderNat n ≠ [] := Nat.toDigits_ne_nil

theorem mem_renderInt {n : Int} {c : Char} (h : c ∈ renderInt n) : c.isDigit = true ∨ c = '-' ∧ n < 0 := by
  cases n with
  | ofNat n => exact .inl (isDigit_of_mem_renderNat h)
  | negSucc n =>
    rcases List.mem_cons.mp h with rfl | h
    · exact .inr ⟨rfl, Int.negSucc_lt_zero n⟩
    · exact .inl (isDigit_of_mem_renderNat h)

theorem renderInt_ne_nil (n : Int) : renderInt n ≠ [] := by
  cases n with
  | ofNat n => exact renderNat_ne_nil n
  | negSucc n => exact List.cons_ne_nil _ _

theorem renderInt_of_neg {n : Int} (h : n < 0) : renderInt n = '-' :: renderInt (-n) := by
  cases n with
  | ofNat n => exact absurd h (Int.not_lt.mpr (Int.natCast_nonneg n))
  | negSucc n => rfl

theorem readInt?_of_not_mem {cs : List Char} (h : '-' ∉ cs) : readInt? cs = (readNat? cs).map Int.ofNat := by
  unfold readInt?
  split
  · exact absurd List.mem_cons_self h
  · rfl

theorem readInt?_renderInt (n : Int) : readInt? (renderInt n) = some n := by
  cases n with
  | ofNat n =>
    have hminus : '-' ∉ renderNat n := fun h => absurd (isDigit_of_mem_renderNat h) (by decide)
    rw [renderInt, readInt?_of_not_mem hminus, readNat?_renderNat]
    rfl
  | negSucc n =>
    rw [renderInt, readInt?, readNat?_renderNat]
    rfl

theorem before_of_not_mem {sep : Char} {cs : List Char} (h : sep ∉ cs) : before sep cs = cs := by
  rw [before, List.takeWhile_eq_self_iff]
  intro c hc
  rw [bne_iff_ne]
  rintro rfl
  exact h hc

end Text

namespace Scalar

theorem render_ofRat (q : ℚ) :
    (ofRat q).render = if q.den = 1 then renderInt q.num else renderInt q.num ++ '/' :: renderNat q.den := rfl

theorem mem_render {q : ℚ} {c : Char} (h : c ∈ (ofRat q).render) : c.isDigit = true ∨ c = '/' ∨ c = '-' ∧ q < 0 := by
  have hnum : ∀ c ∈ renderInt q.num, c.isDigit = true ∨ c = '/' ∨ c = '-' ∧ q < 0 := by
    intro c hc
    rcases mem_renderInt hc with hd | ⟨rfl, hq⟩
    · exact .inl hd
    · exact .inr (.inr ⟨rfl, Rat.num_neg.mp hq⟩)
  rw [render_ofRat] at h
  split at h
  · exact hnum c h
  · rcases List.mem_append.mp h with h | h
    · exact hnum c h
    · rcases List.mem_cons.mp h with rfl | h
      · exact .inr (.inl rfl)
      · exact .inl (isDigit_of_mem_renderNat h)

theorem render_ne_nil (a : Scalar) : a.render ≠ [] := by
  cases a with
  | nan => exact List.cons_ne_nil _ _
  | ofRat q =>
    rw [render_ofRat]
    split
    · exact renderInt_ne_nil q.num
    · exact List.append_ne_nil_of_left_ne_nil (renderInt_ne_nil q.num) _

theorem not_mem_render {c : Char} (hd : c.isDigit = false) (hslash : c ≠ '/') (hminus : c ≠ '-') (q : ℚ) :
    c ∉ (ofRat q).render := by
  intro h
  rcases mem_render h with h | h | ⟨h, -⟩
  · rw [hd] at h
    exact Bool.false_ne_true h
  · exact hslash h
  · exact hminus h

theorem parseFraction_render (q : ℚ) : parseFraction (ofRat q).render = .ok (ofRat q) := by
  have hslash : '/' ∉ renderInt q.num := by
    intro h
    rcases mem_renderInt h with h | ⟨h, -⟩ <;> exact absurd h (by decide)
  rw [render_ofRat]
  split
  · next hden =>
    have hq : (q.num : ℚ) = q := Rat.coe_int_num_of_den_eq_one hden
    rw [parseFraction, before_of_not_mem hslash, after?_eq_none_iff.mpr hslash, readInt?_renderInt]
    exact congrArg (Except.ok ∘ ofRat) hq
  · rw [parseFraction, before_append_cons _ hslash, after?_append_cons _ hslash, readInt?_renderInt]
    simp only [readNat?_renderNat]
    rw [fraction_natCast _ q.den_nz, Rat.mkRat_self]

theorem parse_render (a : Scalar) : parse a.render = .ok a := by
  rw [parse, if_neg a.render_ne_nil]
  cases a with
  | nan => rfl
  | ofRat q =>
    have hnan : (ofRat q).render ≠ ['N', 'a', 'N'] := by
      intro h
      have hmem : 'N' ∈ (ofRat q).render := h ▸ List.mem_cons_self
      exact not_mem_render (by decide) (by decide) (by decide) q hmem
    rw [if_neg hnan, parseFraction_render]

end Scalar

end ExactPoly
