import ExactPoly.Proofs.Poly.Coefficients

/-!
# Equality

The Boolean equality `==` sees a polynomial through its hash key: the terms, or nothing when it is NaN.

* `beq_iff_hashKey_eq` : `==` compares hash keys, so it is an equivalence to which the hash is lawful;
* `Canonical.beq_iff` : on canonical polynomials `==` is equality;
* `Represents.eq_of_termAt_eq` : a canonical polynomial is determined by what `termAt` gives at the exponents in range;
* `AbsorbsNaN` : operations that give `nan` for every NaN operand cannot tell two NaN operands apart;
* `beq_laws` : `==` between reachable polynomials and between lists of any content.
-/

open Polynomial

namespace ExactPoly.Poly

/-! ## Hash keys -/

theorem beq_eq (p q : Poly) : (p == q) = if p.isNaN || q.isNaN then p.isNaN && q.isNaN else p.terms == q.terms := rfl

theorem beq_iff_hashKey_eq {p q : Poly} : (p == q) = true ↔ p.hashKey = q.hashKey := by
  rw [beq_eq, hashKey, hashKey]
  cases p.isNaN <;> cases q.isNaN <;> simp

theorem hash_def (p : Poly) : hash p = hash p.hashKey := rfl

instance : EquivBEq Poly where
  rfl := beq_iff_hashKey_eq.mpr rfl
  symm h := beq_iff_hashKey_eq.mpr (beq_iff_hashKey_eq.mp h).symm
  trans h h' := beq_iff_hashKey_eq.mpr ((beq_iff_hashKey_eq.mp h).trans (beq_iff_hashKey_eq.mp h'))

instance : LawfulHashable Poly where
  hash_eq p q h := by rw [hash_def, hash_def, beq_iff_hashKey_eq.mp h]

theorem beq_of_isNaN {p q : Poly} (hp : p.isNaN = true) (hq : q.isNaN = true) : (p == q) = true := by
  rw [beq_iff_hashKey_eq, hashKey, hashKey, if_pos hp, if_pos hq]

/-! ## Canonical polynomials -/

theorem Represents.ne_nan {p : Poly} {P : ℚ[X]} (hp : p.Represents P) : p ≠ nan := by
  rintro rfl
  exact absurd hp.not_nan (by decide)

theorem Canonical.beq_iff {p q : Poly} (hp : p.Canonical) (hq : q.Canonical) : (p == q) = true ↔ p = q := by
  rw [beq_eq]
  rcases canonical_iff.mp hp with rfl | ⟨P, hp⟩ <;> rcases canonical_iff.mp hq with rfl | ⟨Q, hq⟩
  · exact iff_of_true rfl rfl
  · rw [hq.not_nan, isNaN_nan]
    exact iff_of_false Bool.false_ne_true hq.ne_nan.symm
  · rw [hp.not_nan, isNaN_nan]
    exact iff_of_false Bool.false_ne_true hp.ne_nan
  · rw [hp.not_nan, hq.not_nan, Poly.ext_iff]
    exact beq_iff_eq

/-- Past the largest exponent both polynomials have the coefficient zero. -/
theorem Represents.eq_of_termAt_eq {p q : Poly} {P Q : ℚ[X]} (hp : p.Represents P) (hq : q.Represents Q)
    (h : ∀ e ≤ maxExpt, p.termAt e = q.termAt e) : p = q := by
  refine hp.congr hq (Polynomial.ext fun e => ?_)
  by_cases he : e ≤ maxExpt
  · have hcoeff := congrArg Term.coeff (h e he)
    rw [hp.coeff_termAt, hq.coeff_termAt] at hcoeff
    exact Scalar.ofRat.inj hcoeff
  · rw [not_le] at he
    rw [coeff_eq_zero_of_natDegree_lt (hp.natDegree_le.trans_lt he),
      coeff_eq_zero_of_natDegree_lt (hq.natDegree_le.trans_lt he)]

theorem Canonical.beq_iff_termAt {p q : Poly} (hp : p.Canonical) (hq : q.Canonical) :
    (p == q) = true ↔
      (p.isNaN = true ∧ q.isNaN = true) ∨
      (p.isNaN = false ∧ q.isNaN = false ∧ ∀ e ≤ maxExpt, p.termAt e = q.termAt e) := by
  rw [hp.beq_iff hq]
  constructor
  · rintro rfl
    cases p.isNaN with
    | true => exact .inl ⟨rfl, rfl⟩
    | false => exact .inr ⟨rfl, rfl, fun _ _ => rfl⟩
  · rintro (⟨hpn, hqn⟩ | ⟨hpn, hqn, h⟩)
    · exact (hp.beq_iff hq).mp (beq_of_isNaN hpn hqn)
    · obtain ⟨P, hP⟩ := hp.represents hpn
      obtain ⟨Q, hQ⟩ := hq.represents hqn
      exact hP.eq_of_termAt_eq hQ h

/-! ## NaN operands -/

theorem sub_of_isNaN {p q : Poly} (h : p.isNaN = true ∨ q.isNaN = true) : p - q = nan := by
  rw [sub_def, add_of_isNaN]
  rwa [isNaN_neg]

/-- The operation gives `nan` as soon as one operand is NaN. -/
def AbsorbsNaN (f : Poly → Poly → Poly) : Prop := ∀ p q, p.isNaN = true ∨ q.isNaN = true → f p q = nan

section NaN
variable {n n' : Poly} (hn : n.isNaN = true) (hn' : n'.isNaN = true)
include hn hn'

theorem beq_of_eq_nan {f : Poly → Poly} (hf : ∀ p, p.isNaN = true → f p = nan) : (f n == f n') = true := by
  rw [hf n hn, hf n' hn']
  exact BEq.rfl

theorem AbsorbsNaN.beq {f : Poly → Poly → Poly} (hf : AbsorbsNaN f) (p : Poly) :
    (f n p == f n' p) = true ∧ (f p n == f p n') = true :=
  ⟨beq_of_eq_nan hn hn' fun q hq => hf q p (.inl hq), beq_of_eq_nan hn hn' fun q hq => hf p q (.inr hq)⟩

end NaN

theorem divMod_of_isNaN_operand {p q : Poly} (h : p.isNaN = true ∨ q.isNaN = true) : divMod p q = (nan, nan) :=
  divMod_of_isNaN (or_assoc.mp (.inl h))

/-- The lists of `p`, `q`, `r`, `n` and `n'` are any lists of terms; only `a` and `b` are canonical. -/
theorem beq_laws :
    (∀ a b : Poly, Reachable a → Reachable b →
      ((a == b) = true ↔
        (a.isNaN = true ∧ b.isNaN = true) ∨
        (a.isNaN = false ∧ b.isNaN = false ∧ ∀ e ≤ maxExpt, a.termAt e = b.termAt e))) ∧
    (∀ p : Poly, (p == p) = true) ∧
    (∀ p q : Poly, (p == q) = true → (q == p) = true) ∧
    (∀ p q r : Poly, (p == q) = true → (q == r) = true → (p == r) = true) ∧
    (∀ p q : Poly, (p == q) = true → p.hashKey = q.hashKey ∧ hash p = hash q) ∧
    (∀ n n' : Poly, n.isNaN = true → n'.isNaN = true → ∀ (p : Poly) (c : Scalar),
      ((n + p == n' + p) = true ∧ (p + n == p + n') = true) ∧
      ((n - p == n' - p) = true ∧ (p - n == p - n') = true) ∧
      ((n * p == n' * p) = true ∧ (p * n == p * n') = true) ∧
      (((divMod n p).1 == (divMod n' p).1) = true ∧ ((divMod p n).1 == (divMod p n').1) = true) ∧
      (((divMod n p).2 == (divMod n' p).2) = true ∧ ((divMod p n).2 == (divMod p n').2) = true) ∧
      (-n == -n') = true ∧
      (n.derivative == n'.derivative) = true ∧
      (n.antiderivative c == n'.antiderivative c) = true) := by
  refine ⟨fun a b ha hb => ha.canonical.beq_iff_termAt hb.canonical, fun p => BEq.rfl, fun p q => BEq.symm,
    fun p q r => BEq.trans, fun p q h => ⟨beq_iff_hashKey_eq.mp h, hash_eq h⟩, fun n n' hn hn' p c => ?_⟩
  have hadd : AbsorbsNaN (· + ·) := fun _ _ => add_of_isNaN
  have hsub : AbsorbsNaN (· - ·) := fun _ _ => sub_of_isNaN
  have hmul : AbsorbsNaN (· * ·) := fun _ _ => mul_of_isNaN
  have hdiv : AbsorbsNaN fun p q => (divMod p q).1 := fun _ _ h => congrArg Prod.fst (divMod_of_isNaN_operand h)
  have hmod : AbsorbsNaN fun p q => (divMod p q).2 := fun _ _ h => congrArg Prod.snd (divMod_of_isNaN_operand h)
  have hneg : (-n == -n') = true := beq_of_eq_nan hn hn' fun _ => neg_of_isNaN
  have hder : (n.derivative == n'.derivative) = true := beq_of_eq_nan hn hn' fun _ => derivative_of_isNaN
  have hanti : (n.antiderivative c == n'.antiderivative c) = true :=
    beq_of_eq_nan hn hn' fun _ h => antiderivative_of_isNaN (.inl h)
  exact ⟨hadd.beq hn hn' p, hsub.beq hn hn' p, hmul.beq hn hn' p, hdiv.beq hn hn' p, hmod.beq hn hn' p, hneg, hder, hanti⟩

/-- `n` and `m` have NaN terms in different places; one has a zero term, the other none. -/
theorem beq_laws_square_sub_one :
    let a := (ofInt 1 1 - ofInt 1 0) * (ofInt 1 1 + ofInt 1 0)
    let b := ofInt 1 2 - ofInt 1 0
    let n : Poly := ⟨[.monomial 1 3, .nan, 0]⟩
    let m : Poly := ⟨[.nan, .monomial 1 3, .nan]⟩
    (∀ e ≤ maxExpt, a.termAt e = b.termAt e) ∧ (m == n) = true ∧ (nan == n) = true ∧ n.hashKey = m.hashKey ∧
    (b + n == b + m) = true ∧ ((divMod n b).2 == (divMod m b).2) = true := by
  intro a b n m
  have h0 : Reachable (ofInt 1 0) := .ofInt 1 (by decide)
  have h1 : Reachable (ofInt 1 1) := .ofInt 1 (by decide)
  have h2 : Reachable (ofInt 1 2) := .ofInt 1 (by decide)
  obtain ⟨hterms, -, hsymm, htrans, hhash, hnan⟩ := beq_laws
  have hab := (hterms a b ((h1.sub h0).mul (h1.add h0)) (h2.sub h0)).mp (by decide +kernel)
  have han : ¬ (a.isNaN = true ∧ b.isNaN = true) := by decide +kernel
  have hnm : (n == m) = true := by decide +kernel
  have hmn := hsymm n m hnm
  obtain ⟨⟨-, hadd⟩, -, -, -, ⟨hmod, -⟩, -⟩ := hnan n m (by decide +kernel) (by decide +kernel) b 0
  exact ⟨(hab.resolve_left han).2.2, hmn, htrans nan m n (by decide +kernel) hmn, (hhash n m hnm).1, hadd, hmod⟩

end ExactPoly.Poly
