import ExactPoly.Proofs.Poly.Calculus
import ExactPoly.Proofs.Poly.Division
import ExactPoly.Proofs.Poly.Violation
import ExactPoly.Proofs.Text.Scan

/-!
# The canonical form

A polynomial is canonical when its list is `[nan]`, or has no NaN and no zero term and strictly descending exponents.

* `Canonical`, `canonical_iff` : the canonical polynomials are `nan` and those that represent a polynomial;
* `Canonical.violation?_eq_none` : they have no violation;
* `Canonical.neg`, ..., `Canonical.antiderivative` : one lemma for each operation;
* `Scan.canonical_run` : a scan keeps a canonical list, in which a NaN term may stand;
* `foldl_ofTerm` : inserting terms into a list is adding polynomials of one term.
-/

open Polynomial

namespace ExactPoly.Poly

/-- The list `[nan]`, or no NaN, no zero and strictly descending exponents. -/
def Canonical (p : Poly) : Prop :=
  p.terms = [.nan] ∨ (∀ t ∈ p.terms, t.isNaN = false ∧ t.isZero = false) ∧ p.terms.Pairwise fun s t => t.expt < s.expt

theorem Represents.isCanonical {p : Poly} {P : ℚ[X]} (hp : p.Represents P) : p.Canonical := by
  refine .inr ⟨fun t ht => ⟨?_, ?_⟩, hp.canonical.descending⟩
  · exact Term.isNaN_eq_false_iff.mpr (hp.coeff_ne_nan ht)
  · exact Term.isZero_eq_false_iff.mpr (hp.canonical.ne_zero t ht)

theorem canonical_nan : nan.Canonical := .inl rfl

theorem canonical_iff {p : Poly} : p.Canonical ↔ p = nan ∨ ∃ P : ℚ[X], p.Represents P := by
  constructor
  · rintro (h | ⟨h, hlt⟩)
    · exact .inl (Poly.ext h)
    · refine .inr ⟨_, ?_, ⟨fun t ht => Term.isZero_eq_false_iff.mp (h t ht).2, hlt⟩, rfl⟩
      exact List.any_eq_false.mpr fun t ht => by simp [(h t ht).1]
  · rintro (rfl | ⟨P, hp⟩)
    · exact canonical_nan
    · exact hp.isCanonical

theorem Canonical.represents {p : Poly} (h : p.Canonical) (hn : p.isNaN = false) : ∃ P : ℚ[X], p.Represents P := by
  rcases canonical_iff.mp h with rfl | h
  · exact absurd hn (by decide)
  · exact h

theorem Canonical.violation?_eq_none {p : Poly} (h : p.Canonical) : p.violation? = none := by
  rw [violation?_eq_none_iff]
  rcases canonical_iff.mp h with rfl | ⟨P, hp⟩
  · exact .inl rfl
  · exact .inr hp.canonical

/-! ## The operations -/

theorem canonical_ofTerm (t : Term) : (ofTerm t).Canonical := by
  by_cases hn : t.coeff = .nan
  · rw [Term.eq_nan hn]
    exact canonical_nan
  · exact (represents_ofTerm hn).isCanonical

theorem Canonical.neg {p : Poly} (hp : p.Canonical) : (-p).Canonical := by
  rcases canonical_iff.mp hp with rfl | ⟨P, hp⟩
  · exact canonical_nan
  · exact hp.neg.isCanonical

theorem Canonical.add {p q : Poly} (hp : p.Canonical) (hq : q.Canonical) : (p + q).Canonical := by
  rcases canonical_iff.mp hp with rfl | ⟨P, hp⟩
  · rw [nan_add]
    exact canonical_nan
  rcases canonical_iff.mp hq with rfl | ⟨Q, hq⟩
  · rw [add_nan]
    exact canonical_nan
  exact (hp.add hq).isCanonical

theorem Represents.canonical_mulTerm {q : Poly} {Q : ℚ[X]} (hq : q.Represents Q) {t : Term} (ht : t.coeff ≠ .nan) :
    (q.mulTerm t).Canonical := by
  rcases le_or_gt (Q * t.toPolynomial).natDegree maxExpt with h | h
  · exact (hq.mulTerm ht h).isCanonical
  · rw [hq.mulTerm_eq_nan ht h]
    exact canonical_nan

/-- The partial sums of a product, also after one of them is NaN. -/
theorem canonical_foldl_mulTerm {q s : Poly} (hs : s.Canonical) {l : List Term} (h : ∀ t ∈ l, (q.mulTerm t).Canonical) :
    (l.foldl (fun sum t => sum + q.mulTerm t) s).Canonical := by
  induction l generalizing s with
  | nil => exact hs
  | cons t l ih => exact ih (hs.add (h t (by simp))) fun u hu => h u (by simp [hu])

theorem Canonical.mul {p q : Poly} (hp : p.Canonical) (hq : q.Canonical) : (p * q).Canonical := by
  rcases canonical_iff.mp hp with rfl | ⟨P, hp⟩
  · rw [nan_mul]
    exact canonical_nan
  rcases canonical_iff.mp hq with rfl | ⟨Q, hq⟩
  · rw [mul_nan]
    exact canonical_nan
  rw [mul_def hp.not_nan hq.not_nan]
  exact canonical_foldl_mulTerm represents_zero.isCanonical fun t ht => hq.canonical_mulTerm (hp.coeff_ne_nan ht)

theorem Canonical.divMod {u v : Poly} (hu : u.Canonical) (hv : v.Canonical) :
    (divMod u v).1.Canonical ∧ (divMod u v).2.Canonical := by
  by_cases h : u.isNaN = true ∨ v.isNaN = true ∨ v.isZero = true
  · rw [divMod_of_isNaN h]
    exact ⟨canonical_nan, canonical_nan⟩
  · obtain ⟨hun, hvn, h0⟩ : ¬ u.isNaN = true ∧ ¬ v.isNaN = true ∧ ¬ v.isZero = true := by simpa using h
    obtain ⟨U, hu⟩ := hu.represents (by simpa using hun)
    obtain ⟨V, hv⟩ := hv.represents (by simpa using hvn)
    rw [hv.isZero_iff] at h0
    exact ⟨(hu.divMod hv h0).1.isCanonical, (hu.divMod hv h0).2.isCanonical⟩

theorem Canonical.derivative {p : Poly} (hp : p.Canonical) : p.derivative.Canonical := by
  rcases canonical_iff.mp hp with rfl | ⟨P, hp⟩
  · exact canonical_nan
  · exact hp.derivative.isCanonical

theorem Canonical.antiderivative {p : Poly} (hp : p.Canonical) (c : Scalar) : (p.antiderivative c).Canonical := by
  rcases canonical_iff.mp hp with rfl | ⟨P, hp⟩
  · exact canonical_nan
  by_cases hc : c = .nan
  · rw [antiderivative_of_isNaN (.inr (by simpa using hc))]
    exact canonical_nan
  by_cases h : P = 0 ∨ P.natDegree < maxExpt
  · obtain ⟨A, hA, -, -⟩ := hp.antiderivative hc h
    exact hA.isCanonical
  · rw [not_or] at h
    have := hp.natDegree_le
    rw [hp.antiderivative_eq_nan c h.1 (by omega)]
    exact canonical_nan

/-! ## Lists that are read from a text -/

theorem ofList_of_isNaN {l : List Term} (h : l.any Term.isNaN = true) : ofList l = nan := by
  rw [ofList, ofListM, if_pos h]
  rfl

theorem ofList_of_not_isNaN {l : List Term} (h : l.any Term.isNaN = false) : ofList l = ⟨l⟩ := by
  rw [ofList, ofListM, h]
  rfl

theorem canonical_ofList {l : List Term} (h : TermList.Canonical l) : (ofList l).Canonical := by
  cases hn : l.any Term.isNaN with
  | true =>
    rw [ofList_of_isNaN hn]
    exact canonical_nan
  | false =>
    rw [ofList_of_not_isNaN hn]
    exact (represents_mk hn h rfl).isCanonical

theorem Represents.ofList_terms {p : Poly} {P : ℚ[X]} (hp : p.Represents P) : ofList p.terms = p :=
  ofList_of_not_isNaN hp.not_nan

theorem ofList_insert (t : Term) (l : List Term) : ofList (TermList.insert t l) = ofList l + ofTerm t := by
  have hinsert := TermList.any_isNaN_insert t l
  cases ht : t.isNaN with
  | true =>
    obtain rfl := Term.eq_nan (Term.isNaN_iff.mp ht)
    have hn : (ofTerm .nan).isNaN = true := rfl
    rw [ofList_of_isNaN (by rw [hinsert, ht, Bool.true_or]), add_of_isNaN (.inr hn)]
  | false =>
  cases hl : l.any Term.isNaN with
  | true =>
    rw [ofList_of_isNaN (by rw [hinsert, hl, Bool.or_true]), ofList_of_isNaN hl, nan_add]
  | false =>
    have htn : t.coeff ≠ .nan := by simpa using ht
    rw [ofList_of_not_isNaN (by rw [hinsert, ht, hl, Bool.or_false]), ofList_of_not_isNaN hl,
      add_def hl (represents_ofTerm htn).not_nan, ofTerm, TermList.insert]
    split
    · rfl
    · next h0 =>
      show _ = (⟨TermList.insert t l⟩ : Poly)
      rw [TermList.insert, if_neg h0]

theorem foldl_ofTerm (l ts : List Term) :
    ofList (TermList.insertAll l ts) = ts.foldl (fun p t => p + ofTerm t) (ofList l) := by
  induction ts generalizing l with
  | nil => rfl
  | cons t ts ih =>
    rw [List.foldl_cons, ← ofList_insert, ← ih]
    rfl

theorem Scan.canonical_pushBody {text : List Char} {stop : Nat} {s s' : Scan} (h : s.pushBody text stop = .ok s')
    (hs : TermList.Canonical s.terms) : TermList.Canonical s'.terms := by
  obtain ⟨t, -, rfl⟩ := Scan.pushBody_eq_ok h
  exact hs.insert _

theorem Scan.canonical_step {text : List Char} {i : Nat} {c : Char} {s s' : Scan} (h : s.step text i c = .ok s')
    (hs : TermList.Canonical s.terms) : TermList.Canonical s'.terms := by
  rcases Scan.step_eq_ok h with ⟨-, rfl⟩ | ⟨-, r, ⟨-, hr⟩ | ⟨-, rfl⟩, rfl⟩
  · exact hs
  · show TermList.Canonical r.terms
    exact Scan.canonical_pushBody hr hs
  · exact hs

theorem Scan.canonical_run {text : List Char} {s : Scan} (h : Scan.init.run text 0 text = .ok s) :
    TermList.Canonical s.terms := by
  have hstep : ∀ pre c (s s' : Scan), TermList.Canonical s.terms → s.step text (Text.byteSize pre) c = .ok s' →
      TermList.Canonical s'.terms := fun _ _ _ _ hs h => Scan.canonical_step h hs
  have hrun : Scan.init.run text (Text.byteSize []) text = .ok s := h
  exact Scan.run_induction (P := fun _ s => TermList.Canonical s.terms) hstep .nil hrun

theorem canonical_readTerms {text : List Char} {ts : List Term} (h : readTerms text = .ok ts) : TermList.Canonical ts := by
  obtain ⟨s, s', hrun, hpush, rfl⟩ := readTerms_eq_ok h
  exact Scan.canonical_pushBody hpush (Scan.canonical_run hrun)

theorem canonical_of_parse {text : List Char} {p : Poly} (h : parse text = .ok p) : p.Canonical := by
  obtain ⟨ts, hts, rfl⟩ := parse_eq_ok h
  exact canonical_ofList (canonical_readTerms hts)

end ExactPoly.Poly
