import Mathlib.Order.Bounds.Defs
import ExactPoly.Poly.Basic
import ExactPoly.Proofs.TermList.Canonical

/-!
# The first violation

Only neighbours are compared, which is enough for the order of the whole list. Zero coefficients are looked for in the whole
list before the first pair is compared, so an earlier pair out of order is not reported when a zero follows.

* `BreakAt`, `pairwise_iff_forall_not_breakAt` : the places where the exponents do not descend;
* `orderViolation?_of_isLeast`, `orderViolation?_eq_some_iff` : the first such place is the one that is reported;
* `violation?_of_zero`, `violation?_of_forall_ne_zero` : which of the two scans decides;
* `violation?_eq_zeroCoefficient_iff`, `violation?_eq_duplicateExponent_iff`, `violation?_eq_outOfOrder_iff` : the three kinds;
* `violation?_eq_none_iff` : when there is no violation;
* `first_violation` : which violation is reported, for every list.
-/

namespace ExactPoly.Poly

/-- The exponent at `i` is not greater than the next one. -/
def BreakAt (l : List Term) (i : Nat) : Prop := ∃ s t, l[i]? = some s ∧ l[i + 1]? = some t ∧ s.expt ≤ t.expt

theorem breakAt_zero {s t : Term} {l : List Term} : BreakAt (s :: t :: l) 0 ↔ s.expt ≤ t.expt := by
  simp [BreakAt]

theorem breakAt_succ {s : Term} {l : List Term} {i : Nat} : BreakAt (s :: l) (i + 1) ↔ BreakAt l i := Iff.rfl

/-- Neighbours decide the order of the whole list. -/
theorem pairwise_iff_forall_not_breakAt {l : List Term} :
    (l.Pairwise fun s t => t.expt < s.expt) ↔ ∀ i, ¬ BreakAt l i := by
  have htrans : IsTrans Term fun s t => t.expt < s.expt := ⟨fun _ _ _ h h' => h'.trans h⟩
  rw [← List.isChain_iff_pairwise, List.isChain_iff_getElem]
  constructor
  · rintro h i ⟨s, t, hs, ht, hle⟩
    obtain ⟨hi, rfl⟩ := List.getElem?_eq_some_iff.mp hs
    obtain ⟨hi', rfl⟩ := List.getElem?_eq_some_iff.mp ht
    exact absurd (h i hi') (not_lt.mpr hle)
  · intro h i hi
    by_contra hlt
    exact h i ⟨_, _, List.getElem?_eq_getElem (by omega), List.getElem?_eq_getElem hi, not_lt.mp hlt⟩

theorem exists_isLeast_breakAt {l : List Term} (h : ∃ i, BreakAt l i) : ∃ i, IsLeast {i | BreakAt l i} i := by
  classical
  exact ⟨Nat.find h, Nat.find_spec h, fun _ hj => Nat.find_min' h hj⟩

/-! ## The scan for the order -/

theorem orderViolation?_of_forall_not_breakAt {l : List Term} (h : ∀ i, ¬ BreakAt l i) (k : Nat) :
    orderViolation? k l = none := by
  induction k, l using orderViolation?.induct with
  | case1 k s t l he => exact absurd (breakAt_zero.mpr he.le) (h 0)
  | case2 k s t l _ hlt => exact absurd (breakAt_zero.mpr hlt.le) (h 0)
  | case3 k s t l he hlt ih =>
    rw [orderViolation?, if_neg he, if_neg hlt]
    exact ih fun i => h (i + 1)
  | case4 k l hl =>
    unfold orderViolation?
    split
    · exact absurd rfl (hl _ _ _)
    · rfl

/-- Induction on the index; `k` is that of the first term that is left. -/
theorem orderViolation?_of_isLeast {l : List Term} {i : Nat} (h : IsLeast {i | BreakAt l i} i) {s t : Term}
    (hs : l[i]? = some s) (ht : l[i + 1]? = some t) (k : Nat) :
    orderViolation? k l =
      some (if s.expt = t.expt then .duplicateExponent (k + i) s.expt else .outOfOrder (k + i)) := by
  induction i generalizing k l with
  | zero =>
    match l, hs, ht with
    | a :: b :: l, rfl, rfl =>
      have hle := breakAt_zero.mp h.1
      rw [orderViolation?]
      split
      · rfl
      · next he =>
        rw [if_pos (by omega)]
        rfl
  | succ i ih =>
    match l, hs, ht with
    | a :: b :: l, hs, ht =>
      have h0 : ¬ BreakAt (a :: b :: l) 0 := fun h0 => absurd (h.2 h0) (by omega)
      rw [breakAt_zero] at h0
      have hleast : IsLeast {j | BreakAt (b :: l) j} i :=
        ⟨h.1, fun j hj => Nat.le_of_succ_le_succ (h.2 (breakAt_succ.mpr hj))⟩
      rw [orderViolation?, if_neg (by omega), if_neg (by omega), ih hleast hs ht, Nat.add_right_comm k 1 i]
      rfl

theorem orderViolation?_eq_none_iff {l : List Term} {k : Nat} : orderViolation? k l = none ↔ ∀ i, ¬ BreakAt l i := by
  refine ⟨fun h i hi => ?_, fun h => orderViolation?_of_forall_not_breakAt h k⟩
  obtain ⟨j, hj⟩ := exists_isLeast_breakAt ⟨i, hi⟩
  obtain ⟨s, t, hs, ht, -⟩ := hj.1
  rw [orderViolation?_of_isLeast hj hs ht] at h
  cases h

/-- The first place where the exponents do not descend is the one that is reported. -/
theorem orderViolation?_eq_some_iff {l : List Term} {k : Nat} {v : Violation} :
    orderViolation? k l = some v ↔
      ∃ i s t, IsLeast {i | BreakAt l i} i ∧ l[i]? = some s ∧ l[i + 1]? = some t ∧
        v = if s.expt = t.expt then .duplicateExponent (k + i) s.expt else .outOfOrder (k + i) := by
  constructor
  · intro h
    have hbreak : ∃ i, BreakAt l i := by
      by_contra hno
      rw [orderViolation?_of_forall_not_breakAt (not_exists.mp hno)] at h
      cases h
    obtain ⟨i, hi⟩ := exists_isLeast_breakAt hbreak
    obtain ⟨s, t, hs, ht, -⟩ := hi.1
    rw [orderViolation?_of_isLeast hi hs ht] at h
    exact ⟨i, s, t, hi, hs, ht, (Option.some.inj h).symm⟩
  · rintro ⟨i, s, t, hi, hs, ht, rfl⟩
    exact orderViolation?_of_isLeast hi hs ht k

/-! ## Both scans -/

theorem findIdx?_isZero_eq_some_iff {l : List Term} {i : Nat} :
    l.findIdx? Term.isZero = some i ↔ IsLeast {i | ∃ t, l[i]? = some t ∧ t.coeff = 0} i := by
  rw [List.findIdx?_eq_some_iff_getElem]
  constructor
  · rintro ⟨hi, hz, hmin⟩
    refine ⟨⟨_, List.getElem?_eq_getElem hi, Term.isZero_iff.mp hz⟩, ?_⟩
    rintro j ⟨t, ht, h0⟩
    by_contra hlt
    obtain ⟨hj, rfl⟩ := List.getElem?_eq_some_iff.mp ht
    exact hmin j (not_le.mp hlt) (Term.isZero_iff.mpr h0)
  · rintro ⟨⟨t, ht, h0⟩, hmin⟩
    obtain ⟨hi, rfl⟩ := List.getElem?_eq_some_iff.mp ht
    refine ⟨hi, Term.isZero_iff.mpr h0, fun j hj hz => ?_⟩
    exact absurd (hmin ⟨_, List.getElem?_eq_getElem (hj.trans hi), Term.isZero_iff.mp hz⟩) (not_le.mpr hj)

theorem findIdx?_isZero_eq_none_iff {l : List Term} : l.findIdx? Term.isZero = none ↔ ∀ t ∈ l, t.coeff ≠ 0 := by
  rw [List.findIdx?_eq_none_iff]
  exact forall₂_congr fun t _ => Term.isZero_eq_false_iff

theorem violation?_of_isNaN {p : Poly} (h : p.isNaN = true) : p.violation? = none := if_pos h

section Numbers
variable {p : Poly} (hn : p.isNaN = false)
include hn

theorem violation?_of_not_isNaN :
    p.violation? = ((p.terms.findIdx? Term.isZero).map .zeroCoefficient <|> orderViolation? 0 p.terms) := by
  rw [violation?, hn, if_neg Bool.false_ne_true]

theorem violation?_of_forall_ne_zero (h0 : ∀ t ∈ p.terms, t.coeff ≠ 0) : p.violation? = orderViolation? 0 p.terms := by
  rw [violation?_of_not_isNaN hn, findIdx?_isZero_eq_none_iff.mpr h0]
  rfl

theorem violation?_of_zero {i : Nat} (hi : p.terms.findIdx? Term.isZero = some i) :
    p.violation? = some (.zeroCoefficient i) := by
  rw [violation?_of_not_isNaN hn, hi]
  rfl

/-- The scan for the order never reports a zero coefficient. -/
theorem violation?_eq_zeroCoefficient_iff {i : Nat} :
    p.violation? = some (.zeroCoefficient i) ↔ IsLeast {i | ∃ t, p.terms[i]? = some t ∧ t.coeff = 0} i := by
  rw [← findIdx?_isZero_eq_some_iff]
  refine ⟨fun h => ?_, violation?_of_zero hn⟩
  cases hz : p.terms.findIdx? Term.isZero with
  | some j =>
    rw [violation?_of_zero hn hz] at h
    cases h
    rfl
  | none =>
    rw [violation?_of_forall_ne_zero hn (findIdx?_isZero_eq_none_iff.mp hz), orderViolation?_eq_some_iff] at h
    obtain ⟨j, s, t, -, -, -, h⟩ := h
    split at h <;> cases h

section NoZero
variable (h0 : ∀ t ∈ p.terms, t.coeff ≠ 0) {i : Nat}
include h0

theorem violation?_eq_duplicateExponent_iff {e : Nat} :
    p.violation? = some (.duplicateExponent i e) ↔
      IsLeast {i | BreakAt p.terms i} i ∧
        ∃ s t, p.terms[i]? = some s ∧ p.terms[i + 1]? = some t ∧ s.expt = e ∧ t.expt = e := by
  rw [violation?_of_forall_ne_zero hn h0, orderViolation?_eq_some_iff]
  constructor
  · rintro ⟨j, s, t, hj, hs, ht, hv⟩
    split at hv
    · next he =>
      rw [Nat.zero_add] at hv
      cases hv
      exact ⟨hj, s, t, hs, ht, rfl, he.symm⟩
    · cases hv
  · rintro ⟨hi, s, t, hs, ht, rfl, he⟩
    exact ⟨i, s, t, hi, hs, ht, by rw [if_pos he.symm, Nat.zero_add]⟩

theorem violation?_eq_outOfOrder_iff :
    p.violation? = some (.outOfOrder i) ↔
      IsLeast {i | BreakAt p.terms i} i ∧
        ∃ s t, p.terms[i]? = some s ∧ p.terms[i + 1]? = some t ∧ s.expt < t.expt := by
  rw [violation?_of_forall_ne_zero hn h0, orderViolation?_eq_some_iff]
  constructor
  · rintro ⟨j, s, t, hj, hs, ht, hv⟩
    split at hv
    · cases hv
    · next he =>
      rw [Nat.zero_add] at hv
      cases hv
      obtain ⟨s', t', hs', ht', hle⟩ := hj.1
      rw [hs] at hs'
      rw [ht] at ht'
      cases hs'
      cases ht'
      exact ⟨hj, s, t, hs, ht, lt_of_le_of_ne hle he⟩
  · rintro ⟨hi, s, t, hs, ht, hlt⟩
    exact ⟨i, s, t, hi, hs, ht, by rw [if_neg hlt.ne, Nat.zero_add]⟩

end NoZero

end Numbers

theorem violation?_eq_none_iff {p : Poly} : p.violation? = none ↔ p.isNaN = true ∨ TermList.Canonical p.terms := by
  by_cases hn : p.isNaN = true
  · exact iff_of_true (violation?_of_isNaN hn) (.inl hn)
  have hn' : p.isNaN = false := by simpa using hn
  rw [or_iff_right hn]
  cases hz : p.terms.findIdx? Term.isZero with
  | some i =>
    rw [violation?_of_zero hn' hz]
    refine iff_of_false (by simp) fun h => ?_
    rw [findIdx?_isZero_eq_none_iff.mpr h.ne_zero] at hz
    cases hz
  | none =>
    have h0 := findIdx?_isZero_eq_none_iff.mp hz
    rw [violation?_of_forall_ne_zero hn' h0, orderViolation?_eq_none_iff, ← pairwise_iff_forall_not_breakAt]
    exact ⟨fun h => ⟨h0, h⟩, TermList.Canonical.descending⟩

theorem isNaN_iff_exists {p : Poly} : p.isNaN = true ↔ ∃ t ∈ p.terms, t.coeff = .nan := by
  simp [isNaN]

theorem pairwise_iff_getElem? {l : List Term} :
    (l.Pairwise fun s t => t.expt < s.expt) ↔
      ∀ (i j : Nat) (s t : Term), i < j → l[i]? = some s → l[j]? = some t → t.expt < s.expt := by
  rw [List.pairwise_iff_getElem]
  constructor
  · intro h i j s t hij hs ht
    obtain ⟨hi, rfl⟩ := List.getElem?_eq_some_iff.mp hs
    obtain ⟨hj, rfl⟩ := List.getElem?_eq_some_iff.mp ht
    exact h i j hi hj hij
  · intro h i j hi hj hij
    exact h i j _ _ hij (List.getElem?_eq_getElem hi) (List.getElem?_eq_getElem hj)

/-- Nothing is assumed of the list, so it may break the rules in many places and ways at once. -/
theorem first_violation (p : Poly) :
    (p.violation? = none ↔
      (∃ t ∈ p.terms, t.coeff = .nan) ∨
      (∀ t ∈ p.terms, t.coeff ≠ 0) ∧
        ∀ (i j : Nat) (s t : Term), i < j → p.terms[i]? = some s → p.terms[j]? = some t → t.expt < s.expt) ∧
    ((∀ t ∈ p.terms, t.coeff ≠ .nan) →
      (∀ i, p.violation? = some (.zeroCoefficient i) ↔ IsLeast {i | ∃ t, p.terms[i]? = some t ∧ t.coeff = 0} i) ∧
      ((∀ t ∈ p.terms, t.coeff ≠ 0) → ∀ i,
        (∀ e, p.violation? = some (.duplicateExponent i e) ↔
          IsLeast {i | BreakAt p.terms i} i ∧
            ∃ s t, p.terms[i]? = some s ∧ p.terms[i + 1]? = some t ∧ s.expt = e ∧ t.expt = e) ∧
        (p.violation? = some (.outOfOrder i) ↔
          IsLeast {i | BreakAt p.terms i} i ∧
            ∃ s t, p.terms[i]? = some s ∧ p.terms[i + 1]? = some t ∧ s.expt < t.expt))) := by
  refine ⟨?_, fun h => ?_⟩
  · rw [violation?_eq_none_iff, isNaN_iff_exists, ← pairwise_iff_getElem?]
    exact or_congr_right ⟨fun h => ⟨h.ne_zero, h.descending⟩, fun h => ⟨h.1, h.2⟩⟩
  · have hn : p.isNaN = false := TermList.any_isNaN_eq_false_iff.mpr h
    refine ⟨fun i => violation?_eq_zeroCoefficient_iff hn, fun h0 i => ⟨fun e => ?_, ?_⟩⟩
    · exact violation?_eq_duplicateExponent_iff hn h0
    · exact violation?_eq_outOfOrder_iff hn h0

/-- A zero after a pair out of order, an equal pair before one out of order, and a NaN term among zeros. -/
theorem first_violation_several :
    let zeroLate : Poly := ⟨[.monomial 1 1, .monomial 1 2, 0, 0]⟩
    let equalFirst : Poly := ⟨[.monomial 1 3, .monomial 1 2, .monomial (-1) 2, .monomial 1 5]⟩
    let someNaN : Poly := ⟨[0, .monomial 1 1, .nan, .monomial 1 2]⟩
    zeroLate.violation? = some (.zeroCoefficient 2) ∧ equalFirst.violation? = some (.duplicateExponent 1 2) ∧
    equalFirst.violation? ≠ some (.outOfOrder 2) ∧ someNaN.violation? = none := by
  intro zeroLate equalFirst someNaN
  have hlate := (first_violation zeroLate).2 (by decide +kernel)
  have hequal := (first_violation equalFirst).2 (by decide +kernel)
  have hleast : IsLeast {i | BreakAt equalFirst.terms i} 1 := by
    refine ⟨⟨_, _, rfl, rfl, by decide +kernel⟩, fun j hj => ?_⟩
    cases j with
    | zero => exact absurd (breakAt_zero.mp hj) (by decide +kernel)
    | succ j => omega
  have hsecond : ¬ IsLeast {i | BreakAt equalFirst.terms i} 2 := fun h => absurd (h.unique hleast) (by decide)
  refine ⟨(hlate.1 2).mpr ⟨⟨0, rfl, rfl⟩, ?_⟩, ?_, ?_, (first_violation someNaN).1.mpr (.inl ⟨.nan, by simp [someNaN], rfl⟩)⟩
  · rintro j ⟨t, ht, h0⟩
    match j, ht with
    | 0, rfl => exact absurd h0 (by decide +kernel)
    | 1, rfl => exact absurd h0 (by decide +kernel)
    | j + 2, _ => omega
  · exact ((hequal.2 (by decide +kernel) 1).1 2).mpr ⟨hleast, _, _, rfl, rfl, by decide +kernel, by decide +kernel⟩
  · exact fun h => hsecond ((hequal.2 (by decide +kernel) 2).2.mp h).1

end ExactPoly.Poly
