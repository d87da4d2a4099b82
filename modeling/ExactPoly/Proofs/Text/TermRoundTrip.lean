import ExactPoly.Proofs.Scalar.Exact
import ExactPoly.Proofs.Text.Agreement

/-!
# The texts of scalars and terms read back

A term is written with its sign first and the absolute value of its coefficient after it. Before a power, that is nothing for
the coefficient `1`, a minus sign for `-1`, and any other coefficient in full, with its own sign, and a star.

* `Term.renderCoeff`, `Term.coeffText_renderCoeff` : this text, which means the coefficient;
* `Term.render_eq` : the text of a term from it;
* `Term.parse_render` : the text of a term reads back;
* `Term.toString_reads_back` : so do the strings of scalars and terms.
-/

namespace ExactPoly

open Text

namespace Text

/-- A text that reads back from its characters reads back as a string, also where an error is only its wording. -/
theorem reads_back {α ε : Type} {parse : List Char → Except ε α} {cs : List Char} {a : α} (h : parse cs = .ok a)
    (message : ε → String) :
    parse (String.ofList cs).toList = .ok a ∧ (parse (String.ofList cs).toList).mapError message = .ok a := by
  rw [String.toList_ofList, h]
  exact ⟨rfl, rfl⟩

end Text

namespace Scalar

theorem abs_eq_one_iff {a : Scalar} : a.abs = 1 ↔ a = 1 ∨ a = -1 := by
  cases a with
  | nan => decide
  | ofRat q =>
    show ofRat q.abs = ofRat 1 ↔ ofRat q = ofRat 1 ∨ ofRat q = ofRat (-1)
    rw [ofRat.injEq, ofRat.injEq, ofRat.injEq, rat_abs_eq]
    exact abs_eq zero_le_one

end Scalar

namespace Term

/-- The text of a coefficient before a power. -/
def renderCoeff (a : Scalar) : List Char :=
  if a = 1 then [] else if a = -1 then ['-'] else a.render ++ ['*']

theorem coeffText_renderCoeff (a : Scalar) : CoeffText (renderCoeff a) a := by
  unfold renderCoeff
  split
  · next h => exact h ▸ .one
  · split
    · next h => exact h ▸ .minusOne
    · exact .scalar (.inl rfl) a.parse_render

/-- The sign of the coefficient and its absolute value are written one after the other. -/
theorem renderCoeff_eq (a : Scalar) :
    renderCoeff a = (if a.isNegative then ['-'] else []) ++ if a.abs = 1 then [] else a.abs.render ++ ['*'] := by
  by_cases h1 : a = 1
  · subst h1
    rfl
  by_cases h2 : a = -1
  · subst h2
    rfl
  have habs : a.abs ≠ 1 := by
    rw [Ne, Scalar.abs_eq_one_iff, not_or]
    exact ⟨h1, h2⟩
  rw [renderCoeff, if_neg h1, if_neg h2, if_neg habs, Scalar.render_eq, List.append_assoc]

theorem render_eq (t : Term) :
    t.render = if t.expt = 0 then t.coeff.render else renderCoeff t.coeff ++ renderPower t.expt := by
  rw [render, renderMagnitude]
  by_cases he : t.expt = 0
  · rw [if_pos he, if_pos he, ← Scalar.render_eq]
  · rw [if_neg he, if_neg he, renderCoeff_eq, List.append_assoc]
    split_ifs <;> simp

theorem x_not_mem_renderCoeff (a : Scalar) : 'x' ∉ renderCoeff a := by
  have := a.x_not_mem_render
  unfold renderCoeff
  split_ifs <;> simp [this]

theorem parse_render (t : Term) : parse t.render = .ok t := by
  rw [render_eq]
  split
  · next h =>
    rw [parse_of_scalar t.coeff.parse_render, ← monomial_zero_expt, ← h, monomial_eta]
  · rw [renderPower_eq, parse_append_cons_eq_ok_iff (x_not_mem_renderCoeff t.coeff)]
    refine ⟨t.coeff, t.expt, coeffText_renderCoeff _, ?_, (monomial_eta t).symm⟩
    exact parsePower_eq_ok_iff.mp (parsePower_renderPower t.expt_le [])

/-! ## Strings -/

theorem toString_reads_back :
    (∀ a : Scalar, Scalar.ofString (toString a) = .ok a ∧ Scalar.deserialize (toString a) = .ok a) ∧
    (∀ t : Term, ofString (toString t) = .ok t ∧ deserialize (toString t) = .ok t) := by
  constructor
  · intro a
    exact reads_back a.parse_render Scalar.ParseError.message
  · intro t
    exact reads_back t.parse_render ParseError.message

example : (monomial (.fraction (-6) 4) 4294967295).render = "-3/2*x^4294967295".toList := by decide +kernel

end Term

end ExactPoly
