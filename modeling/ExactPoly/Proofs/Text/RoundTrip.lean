import ExactPoly.Proofs.Poly.Reachable
import ExactPoly.Proofs.Text.Signed
import ExactPoly.Proofs.Text.Term

/-!
# The text of a polynomial reads back

A text that is written is a run of magnitudes with a sign before each but the first, which has one only if it is negative.

* `bodyOf`, `bodyOf_reads` : a written term as a signed body, which reads back;
* `render_cons`, `flatMap_renderNext` : the text in this form;
* `mapM_bodies_render` : the bodies of the text are the terms;
* `ofString_toString` : the text reads back.
-/

namespace ExactPoly.Poly

open Text

/-! ## The text as signed bodies -/

/-- The magnitude of a term, after its sign. -/
def bodyOf (t : Term) : Body where
  before := [if t.coeff.isNegative then '-' else '+']
  text := Term.renderMagnitude t.coeff.abs t.expt

theorem bodyOf_negative (t : Term) : (bodyOf t).negative = t.coeff.isNegative := by
  rw [Body.negative, bodyOf]
  cases t.coeff.isNegative <;> rfl

theorem bodyOf_run (t : Term) : (bodyOf t).Run := by
  refine ⟨Term.renderMagnitude_ne_nil _ _, fun c hc => isSign_eq_false ?_ ?_⟩
  · rintro rfl
    exact Term.not_mem_renderMagnitude (.inl rfl) _ _ hc
  · rintro rfl
    exact Term.not_mem_renderMagnitude (.inr rfl) _ _ hc

theorem bodyOf_reads (t : Term) : (bodyOf t).Reads t := by
  refine ⟨_, Term.parse_renderMagnitude _ t.expt_le, ?_⟩
  rw [bodyOf_negative, Term.signed_magnitude]

theorem renderNext_eq (t : Term) : renderNext t = (bodyOf t).signed := by
  rw [Body.signed, Body.sign, bodyOf_negative, renderNext, Term.render, bodyOf]
  split <;> rfl

theorem flatMap_renderNext (ts : List Term) : ts.flatMap renderNext = (ts.map bodyOf).flatMap Body.signed := by
  rw [List.flatMap_map, funext renderNext_eq]

theorem render_cons {t : Term} {ts : List Term} (hn : (⟨t :: ts⟩ : Poly).isNaN = false) :
    (⟨t :: ts⟩ : Poly).render =
      (if t.coeff.isNegative then ['-'] else []) ++ ((bodyOf t).text ++ ts.flatMap renderNext) := by
  show (if (⟨t :: ts⟩ : Poly).isNaN then ['N', 'a', 'N'] else t.render ++ ts.flatMap renderNext) = _
  rw [hn, if_neg Bool.false_ne_true, Term.render, bodyOf, List.append_assoc]

/-! ## What is read -/

theorem run_of_mem_map (ts : List Term) : ∀ b ∈ ts.map bodyOf, b.Run :=
  List.forall_mem_map.mpr fun t _ => bodyOf_run t

theorem mapM_bodies_render {t : Term} {ts : List Term} (hn : (⟨t :: ts⟩ : Poly).isNaN = false) :
    (bodies (⟨t :: ts⟩ : Poly).render).mapM Body.toTerm = .ok (t :: ts) := by
  -- a plus sign of the first term is not written, so the text before its magnitude is not always its sign
  have hfirst : ∀ before : List Char, (before.getLast? == some '-') = t.coeff.isNegative →
      (bodiesFrom before [] ((bodyOf t).text ++ ts.flatMap renderNext)).mapM Body.toTerm = .ok (t :: ts) := by
    intro before hbefore
    rw [flatMap_renderNext]
    have hlater : List.Forall₂ Body.Reads (ts.map bodyOf) ts := by simp [bodyOf_reads, List.forall₂_same]
    exact mapM_bodiesFrom_text (bodyOf_run t) (bodyOf_reads t) (hbefore.trans (bodyOf_negative t).symm)
      (Body.head?_flatMap_signed _) (mapM_bodiesFrom_signed (run_of_mem_map ts) hlater _)
  rw [render_cons hn, bodies]
  by_cases h : t.coeff.isNegative = true
  · rw [if_pos h]
    exact hfirst ['-'] (h ▸ rfl)
  · rw [if_neg h]
    exact hfirst [] (by simpa using h)

/-- The last body does not change when the first one has its sign in front. -/
theorem getLast?_render {t : Term} {ts : List Term} (hn : (⟨t :: ts⟩ : Poly).isNaN = false) :
    (⟨t :: ts⟩ : Poly).render.getLast?.any isSign = false := by
  have hne : (bodyOf t).text ++ ts.flatMap renderNext ≠ [] := List.append_ne_nil_of_left_ne_nil (bodyOf_run t).1 _
  have hsigned : ((t :: ts).map bodyOf).flatMap Body.signed =
      [(bodyOf t).sign] ++ ((bodyOf t).text ++ ts.flatMap renderNext) := by
    rw [flatMap_renderNext]
    rfl
  have hlast := getLast?_flatMap_signed (run_of_mem_map (t :: ts))
  rw [hsigned, List.getLast?_append_of_ne_nil _ hne] at hlast
  rw [render_cons hn, List.getLast?_append_of_ne_nil _ hne, hlast]

theorem parse_render {p : Poly} (h : p.Canonical) : parse p.render = .ok p := by
  rcases canonical_iff.mp h with rfl | ⟨P, hp⟩
  · rfl
  obtain ⟨l⟩ := p
  cases l with
  | nil => rfl
  | cons t ts =>
    have hne : (⟨t :: ts⟩ : Poly).render ≠ [] := by simp [render_cons hp.not_nan, (bodyOf_run t).1]
    have hl : TermList.insertAll [] (t :: ts) = t :: ts := TermList.insertAll_nil hp.canonical
    apply parse_eq_ok_iff.mpr
    refine ⟨hne, getLast?_render hp.not_nan, t :: ts, mapM_bodies_render hp.not_nan, ?_⟩
    rw [hl]
    exact hp.ofList_terms.symm

theorem ofString_toString {p : Poly} (hp : Reachable p) :
    ofString (toString p) = .ok p ∧ deserialize (toString p) = .ok p := by
  have h : ofString (toString p) = .ok p := by
    show parse (String.ofList p.render).toList = .ok p
    rw [String.toList_ofList]
    exact parse_render hp.canonical
  refine ⟨h, ?_⟩
  rw [deserialize, h]
  rfl

theorem ofString_toString_quadratic :
    let p := ofInt (-3) 2 + ofInt 1 1
    p.render = ['-', '3', '*', 'x', '^', '2', '+', 'x'] ∧ ofString (toString p) = .ok p := by
  have h2 : Reachable (ofInt (-3) 2) := .ofInt (-3) (by decide)
  have h1 : Reachable (ofInt 1 1) := .ofInt 1 (by decide)
  exact ⟨by decide +kernel, (ofString_toString (h2.add h1)).1⟩

end ExactPoly.Poly
