import ExactPoly.Proofs.Poly.Frozen

/-!
# Reachable polynomials

* `Reachable`, `reachable_iff_canonical` : the polynomials that the operations build from nothing are the canonical ones;
* `Frozen`, `Frozen.canonical` : the lists that an operation freezes, also those in the middle of a product or of a division;
* `reachable_invariant` : no reachable polynomial and no frozen list has a violation.
-/

open Polynomial

namespace ExactPoly.Poly

open Text

/-- The polynomials that a finite sequence of operations builds. -/
inductive Reachable : Poly → Prop
  | zero : Reachable 0
  | nan : Reachable nan
  | ofInt (c : Int) {e : Nat} (he : e ≤ maxExpt) : Reachable (ofInt c e)
  | ofTerm (t : Term) : Reachable (ofTerm t)
  | ofString {s : String} {p : Poly} (h : ofString s = .ok p) : Reachable p
  | neg {p : Poly} (hp : Reachable p) : Reachable (-p)
  | add {p q : Poly} (hp : Reachable p) (hq : Reachable q) : Reachable (p + q)
  | sub {p q : Poly} (hp : Reachable p) (hq : Reachable q) : Reachable (p - q)
  | mul {p q : Poly} (hp : Reachable p) (hq : Reachable q) : Reachable (p * q)
  | div {u v : Poly} (hu : Reachable u) (hv : Reachable v) : Reachable (u / v)
  | quotient {u v : Poly} (hu : Reachable u) (hv : Reachable v) : Reachable (divMod u v).1
  | remainder {u v : Poly} (hu : Reachable u) (hv : Reachable v) : Reachable (divMod u v).2
  | derivative {p : Poly} (hp : Reachable p) : Reachable p.derivative
  | antiderivative {p : Poly} (hp : Reachable p) (c : Scalar) : Reachable (p.antiderivative c)

theorem Reachable.canonical {p : Poly} (h : Reachable p) : p.Canonical := by
  induction h with
  | zero => exact represents_zero.isCanonical
  | nan => exact canonical_nan
  | ofInt c he => exact canonical_ofTerm _
  | ofTerm t => exact canonical_ofTerm t
  | ofString h => exact canonical_of_parse h
  | neg _ hp => exact hp.neg
  | add _ _ hp hq => exact hp.add hq
  | sub _ _ hp hq =>
    rw [sub_def]
    exact hp.add hq.neg
  | mul _ _ hp hq => exact hp.mul hq
  | div _ _ hu hv => exact (hu.divMod hv).1
  | quotient _ _ hu hv => exact (hu.divMod hv).1
  | remainder _ _ hu hv => exact (hu.divMod hv).2
  | derivative _ hp => exact hp.derivative
  | antiderivative _ c hp => exact hp.antiderivative c

theorem Reachable.represents {p : Poly} (h : Reachable p) (hn : p.isNaN = false) : ∃ P : ℚ[X], p.Represents P :=
  h.canonical.represents hn

theorem reachable_foldl_ofTerm {p : Poly} (hp : Reachable p) (ts : List Term) :
    Reachable (ts.foldl (fun p t => p + ofTerm t) p) := by
  induction ts generalizing p with
  | nil => exact hp
  | cons t ts ih => exact ih (hp.add (.ofTerm t))

/-- A canonical polynomial is the sum of its terms. -/
theorem reachable_iff_canonical {p : Poly} : Reachable p ↔ p.Canonical := by
  refine ⟨Reachable.canonical, fun h => ?_⟩
  rcases canonical_iff.mp h with rfl | ⟨P, hp⟩
  · exact .nan
  have hsum : p = p.terms.foldl (fun p t => p + ofTerm t) 0 := by
    have := foldl_ofTerm [] p.terms
    rwa [TermList.insertAll_nil hp.canonical, hp.ofList_terms] at this
  rw [hsum]
  exact reachable_foldl_ofTerm .zero _

/-! ## Frozen lists -/

/-- The lists that the operations freeze when they are applied to reachable polynomials, on the way to a result as well. -/
inductive Frozen : List Term → Prop
  | neg {p : Poly} (hp : Reachable p) {l : List Term} (h : l ∈ (negM p).frozen) : Frozen l
  | add {p q : Poly} (hp : Reachable p) (hq : Reachable q) {l : List Term} (h : l ∈ (addM p q).frozen) : Frozen l
  | sub {p q : Poly} (hp : Reachable p) (hq : Reachable q) {l : List Term} (h : l ∈ (subM p q).frozen) : Frozen l
  | mul {p q : Poly} (hp : Reachable p) (hq : Reachable q) {l : List Term} (h : l ∈ (mulM p q).frozen) : Frozen l
  | divMod {u v : Poly} (hu : Reachable u) (hv : Reachable v) {l : List Term} (h : l ∈ (divModM u v).frozen) : Frozen l
  | derivative {p : Poly} (hp : Reachable p) {l : List Term} (h : l ∈ (derivativeM p).frozen) : Frozen l
  | antiderivative {p : Poly} (hp : Reachable p) {c : Scalar} {l : List Term} (h : l ∈ (antiderivativeM p c).frozen) :
      Frozen l
  | parse {text : List Char} {x : Traced Poly} (hx : parseM text = .ok x) {l : List Term} (h : l ∈ x.frozen) : Frozen l

theorem Frozen.canonical {l : List Term} (h : Frozen l) : (⟨l⟩ : Poly).Canonical := by
  cases h with
  | neg hp h => exact hp.canonical.allCanonical_negM l h
  | add hp hq h => exact hp.canonical.allCanonical_addM hq.canonical l h
  | sub hp hq h => exact hp.canonical.allCanonical_subM hq.canonical l h
  | mul hp hq h => exact hp.canonical.allCanonical_mulM hq.canonical l h
  | divMod hu hv h => exact hu.canonical.allCanonical_divModM hv.canonical l h
  | derivative hp h => exact hp.canonical.allCanonical_derivativeM l h
  | antiderivative hp h => exact hp.canonical.allCanonical_antiderivativeM _ l h
  | parse hx h => exact allCanonical_parseM hx l h

theorem reachable_invariant :
    (∀ p, Reachable p → p.Canonical ∧ p.violation? = none) ∧
    (∀ l, Frozen l → (⟨l⟩ : Poly).Canonical ∧ (⟨l⟩ : Poly).violation? = none) ∧
    ∀ t : Term, t.isZero = true ∨ t.isNaN = true → t.expt = 0 := by
  refine ⟨fun p hp => ⟨hp.canonical, hp.canonical.violation?_eq_none⟩, fun l hl => ?_, fun t ht => t.expt_eq_zero ?_⟩
  · exact ⟨hl.canonical, hl.canonical.violation?_eq_none⟩
  · rwa [Term.isZero_iff, Term.isNaN_iff] at ht

theorem reachable_invariant_cancelled_sum :
    (ofInt 1 1 * ofInt 1 1 - ofInt 1 2).violation? = none ∧
    (⟨TermList.insertAll (ofInt 1 2).terms (ofInt (-1) 2).terms⟩ : Poly).violation? = none ∧ (0 : Term).expt = 0 := by
  have he : ∀ e ≤ 2, e ≤ maxExpt := fun e he => he.trans (by decide)
  have h1 : Reachable (ofInt 1 1) := .ofInt 1 (he 1 (by decide))
  have h2 : Reachable (ofInt 1 2) := .ofInt 1 (he 2 (by decide))
  have h3 : Reachable (ofInt (-1) 2) := .ofInt (-1) (he 2 (by decide))
  refine ⟨(reachable_invariant.1 _ ((h1.mul h1).sub h2)).2, ?_, reachable_invariant.2.2 0 (.inl (by decide))⟩
  exact (reachable_invariant.2.1 _ (.add h2 h3 (by decide +kernel))).2

end ExactPoly.Poly
