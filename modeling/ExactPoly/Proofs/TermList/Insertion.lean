import Mathlib.Data.List.GetD
import ExactPoly.Proofs.TermList.Coefficients

/-!
# Insertion as a search and a change in place

A term can be inserted into a canonical list by a binary search for its exponent: a term found there takes up the sum and
is removed when the sum is zero; otherwise the search ends where the new term belongs.

* `stored?`, `storedCoeff` : the stored term of an exponent and its coefficient; `Canonical.storedCoeff_eq` : in a canonical
  list this is the sum `coeffAt`;
* `IsPlace`, `isPlace_search` : where a search for an exponent may end, and that the binary search ends there;
* `insert_eq_update` : the change at that place gives what `insert` gives;
* `stored?_insert_of_ne`, `filter_insert` : the terms of other exponents stay, in their order;
* `insert_merges` : all that an insertion does to a canonical list.
-/

namespace ExactPoly.TermList

/-! ## Stored terms -/

/-- The stored term of exponent `e`. -/
def stored? (l : List Term) (e : Nat) : Option Term := l.find? (·.expt = e)

/-- The coefficient of the stored term of exponent `e`, zero when there is none. -/
def storedCoeff (l : List Term) (e : Nat) : Scalar := (stored? l e).elim 0 Term.coeff

theorem stored?_eq_none_iff {l : List Term} {e : Nat} : stored? l e = none ↔ ∀ s ∈ l, s.expt ≠ e := by
  rw [stored?, List.find?_eq_none]
  simp only [decide_eq_true_eq, ne_eq]

/-- A term found by its exponent is the only one, since exponents do not repeat in a descending list. -/
theorem stored?_eq_some_iff {l : List Term} (hl : l.Pairwise fun s t => t.expt < s.expt) {e : Nat} {t : Term} :
    stored? l e = some t ↔ t ∈ l ∧ t.expt = e := by
  constructor
  · intro h
    exact ⟨List.mem_of_find?_eq_some h, by simpa using List.find?_some h⟩
  · rintro ⟨ht, rfl⟩
    cases h : stored? l t.expt with
    | none => exact absurd rfl (stored?_eq_none_iff.mp h t ht)
    | some u =>
      have hu : u.expt = t.expt := by simpa using List.find?_some h
      rw [List.inj_on_of_nodup_map (nodup_expt hl) (List.mem_of_find?_eq_some h) ht hu]

section Stored
variable {l : List Term} (hl : Canonical l)
include hl

theorem Canonical.storedCoeff_eq (e : Nat) : storedCoeff l e = coeffAt l e := by
  unfold storedCoeff
  cases h : stored? l e with
  | none => exact (coeffAt_of_ne (stored?_eq_none_iff.mp h)).symm
  | some t =>
    obtain ⟨ht, rfl⟩ := (stored?_eq_some_iff hl.descending).mp h
    exact (hl.coeffAt_expt ht).symm

theorem Canonical.stored?_eq_none_iff_coeffAt {e : Nat} : stored? l e = none ↔ coeffAt l e = 0 := by
  constructor
  · intro h
    exact coeffAt_of_ne (stored?_eq_none_iff.mp h)
  · intro h
    rw [stored?_eq_none_iff]
    rintro s hs rfl
    exact hl.ne_zero s hs ((hl.coeffAt_expt hs).symm.trans h)

end Stored

/-! ## The terms of other exponents -/

theorem Canonical.filter {l : List Term} (hl : Canonical l) (p : Term → Bool) : Canonical (l.filter p) :=
  ⟨fun t ht => hl.ne_zero t (List.mem_of_mem_filter ht), hl.descending.filter p⟩

section Insert
variable {l : List Term} (hl : Canonical l) (t : Term)
include hl

theorem mem_insert_of_ne {u : Term} (hu : u.expt ≠ t.expt) : u ∈ insert t l ↔ u ∈ l := by
  rw [(hl.insert t).mem_iff_coeffAt, hl.mem_iff_coeffAt, coeffAt_insert, Term.coeffAt_of_ne hu.symm, zero_add]

theorem stored?_insert_of_ne {e : Nat} (he : e ≠ t.expt) : stored? (insert t l) e = stored? l e := by
  apply Option.ext
  intro u
  rw [stored?_eq_some_iff (hl.insert t).descending, stored?_eq_some_iff hl.descending]
  exact and_congr_left fun hu => mem_insert_of_ne hl t (hu ▸ he)

/-- The terms of other exponents stay, in their order. -/
theorem filter_insert : (insert t l).filter (·.expt ≠ t.expt) = l.filter (·.expt ≠ t.expt) := by
  apply ((hl.insert t).filter _).eq_of_mem_iff (hl.filter _)
  intro u
  rw [List.mem_filter, List.mem_filter]
  exact and_congr_left fun hu => mem_insert_of_ne hl t (by simpa using hu)

end Insert

/-! ## Search -/

/-- A search for the exponent `e` may end at the index of its term, or at the index where such a term belongs. -/
def IsPlace (l : List Term) (e : Nat) : Except Nat Nat → Prop
  | .ok i => ∃ s, l[i]? = some s ∧ s.expt = e
  | .error i => i ≤ l.length ∧ (∀ s ∈ l.take i, e < s.expt) ∧ ∀ s ∈ l.drop i, s.expt < e

section Search
variable {l : List Term} (hl : l.Pairwise fun s t => t.expt < s.expt) {e i : Nat} (hi : i < l.length)
include hl

theorem lt_of_mem_take_succ (h : e < l[i].expt) : ∀ s ∈ l.take (i + 1), e < s.expt := by
  have htake : (l.take (i + 1)).Pairwise fun s t => t.expt < s.expt := hl.sublist (List.take_sublist _ _)
  rw [List.take_succ_eq_append_getElem hi] at htake ⊢
  intro s hs
  rcases List.mem_append.mp hs with hs | hs
  · exact h.trans ((List.pairwise_append.mp htake).2.2 s hs _ (by simp))
  · rwa [List.mem_singleton.mp hs]

theorem lt_of_mem_drop (h : l[i].expt < e) : ∀ s ∈ l.drop i, s.expt < e := by
  have hdrop : (l.drop i).Pairwise fun s t => t.expt < s.expt := hl.sublist (List.drop_sublist _ _)
  rw [List.drop_eq_getElem_cons hi] at hdrop ⊢
  intro s hs
  rcases List.mem_cons.mp hs with rfl | hs
  · exact h
  · exact ((List.pairwise_cons.mp hdrop).1 s hs).trans h

/-- The exponents before `lo` are larger than `e` and those from `hi` on are smaller, at every step of the search. -/
theorem isPlace_search_of_bounds {lo hi : Nat} (hle : lo ≤ hi) (hlen : hi ≤ l.length) (hbefore : ∀ s ∈ l.take lo, e < s.expt)
    (hafter : ∀ s ∈ l.drop hi, s.expt < e) : IsPlace l e (search l e lo hi) := by
  fun_induction search l e lo hi with
  | case1 lo hi hlt mid hcmp ih =>
    have hmid : mid < l.length := by omega
    rw [List.getD_eq_getElem l 0 hmid, Nat.compare_eq_lt] at hcmp
    exact ih (by omega) hlen (lt_of_mem_take_succ hl hmid hcmp) hafter
  | case2 lo hi hlt mid hcmp =>
    have hmid : mid < l.length := by omega
    rw [List.getD_eq_getElem l 0 hmid, Nat.compare_eq_eq] at hcmp
    exact ⟨l[mid], List.getElem?_eq_getElem hmid, hcmp.symm⟩
  | case3 lo hi hlt mid hcmp ih =>
    have hmid : mid < l.length := by omega
    rw [List.getD_eq_getElem l 0 hmid, Nat.compare_eq_gt] at hcmp
    exact ih (by omega) hmid.le hbefore (lt_of_mem_drop hl hmid hcmp)
  | case4 lo hi hlt =>
    obtain rfl : lo = hi := by omega
    exact ⟨hlen, hbefore, hafter⟩

theorem isPlace_search (e : Nat) : IsPlace l e (search l e 0 l.length) :=
  isPlace_search_of_bounds hl (Nat.zero_le _) le_rfl (by simp) (by simp)

end Search

/-! ## The change in place -/

theorem update_cons_ok (t s : Term) (l : List Term) (i : Nat) :
    update t (s :: l) (.ok (i + 1)) = s :: update t l (.ok i) := by
  simp only [update, List.getD_cons_succ]
  cases (l.getD i 0).add? t with
  | none => rfl
  | some sum =>
    dsimp only
    split <;> rfl

/-- The term that a search finds has a sum with the term it looks for. -/
theorem IsPlace.add?_ne_none {l : List Term} {t : Term} {i : Nat} (h : IsPlace l t.expt (.ok i)) :
    (l.getD i 0).add? t ≠ none := by
  obtain ⟨s, hs, he⟩ := h
  rw [List.getD_eq_getElem?_getD, hs, Option.getD_some, Term.add?_eq_monomial he]
  exact Option.some_ne_none _

theorem merge_eq_update_ok {l : List Term} (hl : l.Pairwise fun s t => t.expt < s.expt) {t : Term} {i : Nat}
    (h : IsPlace l t.expt (.ok i)) : merge t l = update t l (.ok i) := by
  induction l generalizing i with
  | nil =>
    obtain ⟨s, hs, -⟩ := h
    cases hs
  | cons s l ih =>
    obtain ⟨hlt, hl'⟩ := List.pairwise_cons.mp hl
    obtain ⟨u, hu, he⟩ := h
    cases i with
    | zero =>
      obtain rfl : s = u := Option.some.inj hu
      rw [merge_cons_of_eq l he, update, List.getD_cons_zero, Term.add?_eq_monomial he]
      simp only [Term.isZero_iff, Term.coeff_monomial, List.eraseIdx_cons_zero, List.set_cons_zero]
    | succ i =>
      rw [List.getElem?_cons_succ] at hu
      have hus : u.expt < s.expt := hlt u (List.mem_of_getElem? hu)
      rw [merge_cons_of_lt l (he ▸ hus), update_cons_ok, ih hl' ⟨u, hu, he⟩]

theorem merge_eq_update_error {l : List Term} {t : Term} {i : Nat} (h : IsPlace l t.expt (.error i)) :
    merge t l = update t l (.error i) := by
  show merge t l = l.insertIdx i t
  induction l generalizing i with
  | nil =>
    obtain rfl : i = 0 := Nat.le_zero.mp h.1
    rfl
  | cons s l ih =>
    obtain ⟨hle, hbefore, hafter⟩ := h
    cases i with
    | zero => rw [merge_cons_of_gt l (hafter s (by simp)), List.insertIdx_zero]
    | succ i =>
      rw [merge_cons_of_lt l (hbefore s (by simp)), List.insertIdx_succ_cons, ih]
      exact ⟨Nat.le_of_succ_le_succ hle, fun u hu => hbefore u (by simp [hu]), hafter⟩

/-- Whatever search is used, the change at its place is the insertion. -/
theorem insert_eq_update {l : List Term} (hl : Canonical l) {t : Term} (ht : t.isZero = false) {r : Except Nat Nat}
    (h : IsPlace l t.expt r) : insert t l = update t l r := by
  rw [insert, if_neg (by simp [ht])]
  cases r with
  | ok i => exact merge_eq_update_ok hl.descending h
  | error i => exact merge_eq_update_error h

/-! ## What an insertion does -/

/--
The first five parts compare the list after an insertion with the list before it. The others say how the insertion can be
carried out: by a change at the place where any search for the exponent ends, such as the binary search does.
-/
theorem insert_merges {l : List Term} (hl : Canonical l) (t : Term) :
    Canonical (insert t l) ∧
    (∀ e, e ≠ t.expt → stored? (insert t l) e = stored? l e) ∧
    (insert t l).filter (·.expt ≠ t.expt) = l.filter (·.expt ≠ t.expt) ∧
    storedCoeff (insert t l) t.expt = storedCoeff l t.expt + t.coeff ∧
    (stored? (insert t l) t.expt = none ↔ storedCoeff l t.expt + t.coeff = 0) ∧
    (t.isZero = true → insert t l = l) ∧
    (t.isZero = false → ∀ r, IsPlace l t.expt r → insert t l = update t l r) ∧
    IsPlace l t.expt (search l t.expt 0 l.length) ∧
    ∀ i, IsPlace l t.expt (.ok i) → (l.getD i 0).add? t ≠ none := by
  have hcoeff : coeffAt (insert t l) t.expt = storedCoeff l t.expt + t.coeff := by
    rw [coeffAt_insert, Term.coeffAt_expt, hl.storedCoeff_eq, add_comm]
  refine ⟨hl.insert t, fun e he => stored?_insert_of_ne hl t he, filter_insert hl t, ?_, ?_, fun h0 => if_pos h0,
    fun h0 r hr => insert_eq_update hl h0 hr, isPlace_search hl.descending _, fun i hi => hi.add?_ne_none⟩
  · rw [(hl.insert t).storedCoeff_eq, hcoeff]
  · rw [(hl.insert t).stored?_eq_none_iff_coeffAt, hcoeff]

/-- A term cancels in front of a NaN term. -/
theorem insert_merges_cancelled :
    let l := [.monomial (.ofInt 3) 2, .monomial (-1) 1, .nan]
    let t := Term.monomial 1 1
    Canonical l ∧ stored? (insert t l) 1 = none ∧ stored? (insert t l) 0 = some .nan ∧
    search l 1 0 3 = .ok 1 ∧ insert t l = [.monomial (.ofInt 3) 2, .nan] := by
  intro l t
  have hl : Canonical l := ⟨by decide +kernel, by decide +kernel⟩
  obtain ⟨-, hother, -, -, hnone, -, hupdate, hplace, -⟩ := insert_merges hl t
  have hsearch : search l t.expt 0 l.length = .ok 1 := by decide +kernel
  have hzero : storedCoeff l t.expt + t.coeff = 0 := by decide +kernel
  refine ⟨hl, hnone.mpr hzero, ?_, hsearch, ?_⟩
  · rw [hother 0 (by decide)]
    decide +kernel
  · rw [hupdate (by decide) _ hplace, hsearch]
    decide +kernel

end ExactPoly.TermList
