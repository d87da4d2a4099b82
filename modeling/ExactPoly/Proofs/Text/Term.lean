import ExactPoly.Proofs.Term
import ExactPoly.Proofs.Text.Scalar
import ExactPoly.Term.Text

/-!
# The text of a term

* `Term.renderMagnitude_ne_nil`, `Term.not_mem_renderMagnitude` : the text without the sign is not empty and holds no sign;
* `Term.parsePower_renderPower` : the text of a power reads back;
* `Term.parse_of_not_mem`, `Term.parse_append_cons` : a text without `x`, and one that is cut at its first `x`;
* `Term.parse_renderMagnitude` : the text without the sign reads back as the term without the sign;
* `Term.signed_magnitude` : the term from its sign and the rest.
-/

namespace ExactPoly

open Text

namespace Scalar

theorem not_mem_render_abs {c : Char} (hd : c.isDigit = false) (hslash : c ≠ '/') (hN : c ≠ 'N') (ha : c ≠ 'a')
    (a : Scalar) : c ∉ a.abs.render := by
  intro h
  cases a with
  | nan =>
    have : c ∈ ['N', 'a', 'N'] := h
    simp [hN, ha] at this
  | ofRat q =>
    rcases mem_render h with h | h | ⟨-, hq⟩
    · rw [hd] at h
      exact Bool.false_ne_true h
    · exact hslash h
    · exact absurd Rat.abs_nonneg hq.not_ge

theorem x_not_mem_render (a : Scalar) : 'x' ∉ a.render := by
  cases a with
  | nan => decide
  | ofRat q => exact not_mem_render (by decide) (by decide) (by decide) q

end Scalar

namespace Term

theorem renderPower_eq (e : Nat) : renderPower e = 'x' :: if e = 1 then [] else '^' :: renderNat e := by
  unfold renderPower
  split <;> rfl

theorem parsePower_renderPower {e : Nat} (he : e ≤ maxExpt) (whole : List Char) :
    parsePower whole (if e = 1 then [] else '^' :: renderNat e) = .ok e := by
  split
  · next h =>
    rw [h]
    rfl
  · show parseExpt (renderNat e) = .ok e
    rw [parseExpt, readNat?_renderNat]
    exact if_pos he

theorem parseCoeff_concat_star {cs : List Char} {a : Scalar} (h : Scalar.parse cs = .ok a) :
    parseCoeff (cs ++ ['*']) = .ok a := by
  have hminus : cs ++ ['*'] ≠ ['-'] := by
    intro h
    have := congrArg List.getLast? h
    rw [List.getLast?_concat] at this
    cases this
  rw [parseCoeff, if_neg (by simp), if_neg hminus, if_pos (by rw [List.getLast?_concat]), List.dropLast_concat, h]
  rfl

theorem parse_of_not_mem {cs : List Char} (hne : cs ≠ []) (hx : 'x' ∉ cs) :
    parse cs = ((Scalar.parse cs).mapError .coefficient).map const := by
  rw [parse, if_neg hne, after?_eq_none_iff.mpr hx]

theorem parse_append_cons {cs : List Char} (rest : List Char) (hx : 'x' ∉ cs) :
    parse (cs ++ 'x' :: rest) =
      parseCoeff cs >>= fun c => parsePower (cs ++ 'x' :: rest) rest >>= fun e => .ok (monomial c e) := by
  rw [parse, if_neg (by simp), after?_append_cons _ hx, before_append_cons _ hx]
  rfl

theorem parse_cut {cs rest : List Char} (h : 'x' ∉ cs) {c : Scalar} {e : Nat} (hc : parseCoeff cs = .ok c)
    (he : parsePower (cs ++ 'x' :: rest) rest = .ok e) : parse (cs ++ 'x' :: rest) = .ok (monomial c e) := by
  rw [parse_append_cons rest h, hc, he]
  rfl

theorem parse_renderMagnitude (a : Scalar) {e : Nat} (he : e ≤ maxExpt) :
    parse (renderMagnitude a e) = .ok (monomial a e) := by
  unfold renderMagnitude
  split
  · next h =>
    subst h
    rw [parse_of_not_mem a.render_ne_nil a.x_not_mem_render, Scalar.parse_render, monomial_zero_expt]
    rfl
  · rw [renderPower_eq]
    split
    · next h =>
      subst h
      have hx : 'x' ∉ ([] : List Char) := List.not_mem_nil
      exact parse_cut hx rfl (parsePower_renderPower he _)
    · have hx : 'x' ∉ a.render ++ ['*'] := by simp [a.x_not_mem_render]
      have := parse_cut hx (parseCoeff_concat_star a.parse_render) (parsePower_renderPower he _)
      rwa [List.append_assoc] at this

/-! ## Signs -/

theorem renderMagnitude_ne_nil (a : Scalar) (e : Nat) : renderMagnitude a e ≠ [] := by
  unfold renderMagnitude
  split
  · exact a.render_ne_nil
  · split
    · rw [renderPower_eq]
      exact List.cons_ne_nil _ _
    · exact List.append_ne_nil_of_left_ne_nil a.render_ne_nil _

theorem not_mem_renderPower {c : Char} (hd : c.isDigit = false) (hx : c ≠ 'x') (hcaret : c ≠ '^') (e : Nat) :
    c ∉ renderPower e := by
  have hnat : c ∉ renderNat e := by
    intro h
    rw [isDigit_of_mem_renderNat h] at hd
    cases hd
  rw [renderPower_eq]
  split <;> simp [hx, hcaret, hnat]

theorem not_mem_renderMagnitude {c : Char} (h : c = '+' ∨ c = '-') (a : Scalar) (e : Nat) :
    c ∉ renderMagnitude a.abs e := by
  have hscalar : c ∉ a.abs.render := by
    rcases h with rfl | rfl <;> exact Scalar.not_mem_render_abs (by decide) (by decide) (by decide) (by decide) a
  have hpower : c ∉ renderPower e := by
    rcases h with rfl | rfl <;> exact not_mem_renderPower (by decide) (by decide) (by decide) e
  have hstar : c ≠ '*' := by
    rcases h with rfl | rfl <;> decide
  unfold renderMagnitude
  split
  · exact hscalar
  · split
    · exact hpower
    · simp [hscalar, hpower, hstar]

theorem signed_magnitude (t : Term) :
    (if t.coeff.isNegative then -monomial t.coeff.abs t.expt else monomial t.coeff.abs t.expt) = t := by
  split
  · next h => rw [Scalar.abs_of_isNegative h, neg_monomial _ t.expt_le, neg_neg, monomial_eta]
  · next h => rw [Scalar.abs_of_not_isNegative h, monomial_eta]

end Term

end ExactPoly
