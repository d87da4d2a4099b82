import ExactPoly.Proofs.TermList.Canonical

/-!
# Scripts of list operations

A script is a list of insertions, scalings and shifts, applied one after another to one list of terms.

* `Step`, `run` : the steps of a script and the list after them;
* `Step.Poisons`, `any_isNaN_apply_iff` : a list holds a NaN term after a step exactly if it held one or the step brings
  one in, unless the step scales by zero;
* `nan_infects_run` : through a script; `nan_cleared_by_zero_scale` : a scaling by zero leaves no NaN term;
* `Descends.apply`, `Descends.run` : the order that every step keeps, in which NaN terms may repeat;
* `canonical_apply_iff` : only a scaling of two or more terms by NaN makes a canonical list lose its form;
* `run_descends` : through a script; `nan_repeated_by_nan_scale` : two terms scaled by NaN.
-/

namespace ExactPoly.TermList

/-- One operation on a list of terms. -/
inductive Step where
  | insert (t : Term)
  | scale (a : Scalar)
  | shift (d : Int)
  deriving DecidableEq

def Step.apply : Step → List Term → List Term
  | .insert t => TermList.insert t
  | .scale a => TermList.scale a
  | .shift d => TermList.shift d

/-- The list after the steps of a script. -/
def run (l : List Term) (steps : List Step) : List Term := steps.foldl (fun l s => s.apply l) l

theorem run_append (l : List Term) (before later : List Step) : run l (before ++ later) = run (run l before) later :=
  List.foldl_append

/-- What every step preserves, a whole script preserves. -/
theorem run_induction {P : List Term → Prop} {l : List Term} {steps : List Step} (hl : P l)
    (hstep : ∀ s ∈ steps, ∀ l, P l → P (s.apply l)) : P (run l steps) :=
  List.foldlRecOn steps _ hl fun l hl s hs => hstep s hs l hl

/-! ## NaN terms -/

/-- The step brings a NaN term into the list: its own term, a NaN scalar that some term meets, or an exponent past the
largest one. -/
def Step.Poisons (l : List Term) : Step → Prop
  | .insert t => t.coeff = .nan
  | .scale a => a = .nan ∧ l ≠ []
  | .shift d => ∃ t ∈ l, (maxExpt : Int) < t.expt + d

theorem any_isNaN_apply_iff {s : Step} {l : List Term} :
    (s.apply l).any Term.isNaN = true ↔ s ≠ .scale 0 ∧ (l.any Term.isNaN = true ∨ s.Poisons l) := by
  cases s with
  | insert t =>
    have hinsert : (insert t l).any Term.isNaN = true ↔ l.any Term.isNaN = true ∨ t.coeff = .nan := by
      rw [any_isNaN_insert, Bool.or_eq_true, Term.isNaN_iff, or_comm]
    simpa [Step.apply, Step.Poisons] using hinsert
  | scale a =>
    by_cases h0 : a = 0
    · simp [Step.apply, h0, scale_zero]
    · simpa [Step.apply, Step.Poisons, h0] using any_isNaN_scale_iff h0
  | shift d =>
    by_cases h : ∃ t ∈ l, (maxExpt : Int) < t.expt + d
    · have hnan : (shift d l).any Term.isNaN = true := by
        rw [shift_of_overflow h]
        rfl
      exact iff_of_true hnan ⟨by simp, .inr h⟩
    · have hle : ∀ t ∈ l, (t.expt : Int) + d ≤ maxExpt := fun t ht => not_lt.mp fun hlt => h ⟨t, ht, hlt⟩
      have hshift : (shift d l).any Term.isNaN = l.any Term.isNaN := any_isNaN_shift hle
      simp [Step.apply, Step.Poisons, hshift, h]

/--
The first part follows a NaN term through a script. The second says for each step when there is one after it: the routes
by which it gets in, and the only step by which it gets lost. A step `shift d` is over all integers; it stands for the one
that adds 64-bit numbers where `|d| ≤ 2 ^ 62` (`Term.toInt_expt_add`).
-/
theorem nan_infects_run (l : List Term) (before : List Step) :
    (∀ later : List Step, (run l before).any Term.isNaN = true → .scale 0 ∉ later →
      (run l (before ++ later)).any Term.isNaN = true) ∧
    ∀ s : Step, (run l (before ++ [s])).any Term.isNaN = true ↔
      s ≠ .scale 0 ∧ ((run l before).any Term.isNaN = true ∨ s.Poisons (run l before)) := by
  refine ⟨fun later hn h0 => ?_, fun s => ?_⟩
  · rw [run_append]
    apply run_induction (P := fun l => l.any Term.isNaN = true) hn
    intro s hs l hl
    have hs0 : s ≠ .scale 0 := fun h => h0 (h ▸ hs)
    exact any_isNaN_apply_iff.mpr ⟨hs0, .inl hl⟩
  · rw [run_append]
    exact any_isNaN_apply_iff

/-- A NaN term that an overflow brings in, through an insertion, a scaling and a shift downwards. -/
theorem nan_infects_run_overflow :
    let l := [.monomial 1 4294967295, .const (.ofInt 2)]
    let later : List Step := [.insert (.const (.ofInt (-2))), .scale (.ofInt 3), .shift (-7)]
    (run l [.shift 1]).any Term.isNaN = true ∧ .scale 0 ∉ later ∧
    (run l ([.shift 1] ++ later)).any Term.isNaN = true := by
  intro l later
  have hn : (run l [.shift 1]).any Term.isNaN = true := by decide +kernel
  have h0 : .scale 0 ∉ later := by decide +kernel
  exact ⟨hn, h0, (nan_infects_run l [.shift 1]).1 later hn h0⟩

/-- The list `[nan]` is canonical, holds a NaN term, and holds none after a scaling by zero. -/
theorem nan_cleared_by_zero_scale :
    ¬ ∀ l : List Term, Canonical l → ∀ before later : List Step,
      (run l before).any Term.isNaN = true → (run l (before ++ later)).any Term.isNaN = true := by
  intro h
  have hn : (run [.nan] [.scale 0]).any Term.isNaN = true :=
    h [.nan] (Canonical.singleton Scalar.nan_ne_zero) [] [.scale 0] rfl
  exact absurd hn (by decide +kernel)

/-! ## Order -/

/-- Scaling by NaN makes every term NaN, so it needs a place for more than one of them. -/
theorem Descends.apply {many : Prop} {l : List Term} (hl : Descends many l) {s : Step} (hs : s = .scale .nan → many) :
    Descends many (s.apply l) := by
  cases s with
  | insert t => exact hl.insert t
  | scale a => exact hl.scale fun ha => hs (ha ▸ rfl)
  | shift d => exact hl.shift d

theorem Descends.run {many : Prop} {l : List Term} (hl : Descends many l) {steps : List Step}
    (h : .scale .nan ∈ steps → many) : Descends many (run l steps) :=
  run_induction hl fun _ hs _ hl => hl.apply fun he => h (he ▸ hs)

theorem canonical_replicate_nan_iff {n : Nat} : Canonical (List.replicate n .nan) ↔ n ≤ 1 := by
  constructor
  · intro h
    rcases List.pairwise_replicate.mp h.descending with hn | hlt
    · exact hn
    · exact absurd hlt (lt_irrefl _)
  · intro h
    refine ⟨fun t ht => ?_, List.pairwise_replicate.mpr (.inl h)⟩
    rw [List.eq_of_mem_replicate ht]
    exact Scalar.nan_ne_zero

theorem canonical_apply_iff {l : List Term} (hl : Canonical l) {s : Step} :
    Canonical (s.apply l) ↔ (s = .scale .nan → l.length ≤ 1) := by
  constructor
  · rintro h rfl
    have hcanonical : Canonical (scale .nan l) := h
    rwa [scale_nan, canonical_replicate_nan_iff] at hcanonical
  · intro h
    by_cases hs : s = .scale .nan
    · subst hs
      show Canonical (scale .nan l)
      rw [scale_nan, canonical_replicate_nan_iff]
      exact h rfl
    · exact ((hl.descends False).apply fun he => absurd he hs).canonical

/-- Nothing follows a NaN term in a canonical list. -/
theorem Canonical.eq_nil_of_append_nan {a b : List Term} (h : Canonical (a ++ .nan :: b)) : b = [] := by
  rw [List.eq_nil_iff_forall_not_mem]
  intro t ht
  have hlt := (List.pairwise_cons.mp (List.pairwise_append.mp h.descending).2.1).1 t ht
  exact absurd hlt (Nat.not_lt_zero _)

/--
The list after a script: in general no coefficient is zero and the exponents descend except from NaN to NaN; it is
canonical, with at most one NaN term and that at its end, unless a step has scaled two or more terms by NaN. As above, a
step `shift d` stands for the one that adds 64-bit numbers where `|d| ≤ 2 ^ 62`.
-/
theorem run_descends {l : List Term} (hl : Canonical l) (steps : List Step) :
    (∀ t ∈ run l steps, t.coeff ≠ 0) ∧
    (run l steps).Pairwise (fun s t => t.expt < s.expt ∨ s = .nan ∧ t = .nan) ∧
    (.scale .nan ∉ steps → Canonical (run l steps)) ∧
    (Canonical (run l steps) →
      (∀ a b, run l steps = a ++ .nan :: b → b = []) ∧
      ∀ s : Step, Canonical (run l (steps ++ [s])) ↔ (s = .scale .nan → (run l steps).length ≤ 1)) := by
  have hmany : Descends True (run l steps) := (hl.descends True).run fun _ => trivial
  refine ⟨hmany.ne_zero, hmany.descending.imp fun h => h.imp_right And.right, fun h => ?_,
    fun hrun => ⟨?_, fun s => ?_⟩⟩
  · exact ((hl.descends False).run h).canonical
  · intro a b he
    rw [he] at hrun
    exact hrun.eq_nil_of_append_nan
  · rw [run_append]
    exact canonical_apply_iff hrun

/-- Terms are added up at exponent zero, a term cancels, and a NaN term meets the constant. -/
theorem run_descends_constant_term :
    let steps : List Step := [.shift (-1), .insert (.monomial (-1) 1), .insert .nan]
    Canonical [.monomial 1 2, .monomial (.ofInt 3) 1, .const (.ofInt 2)] ∧ .scale .nan ∉ steps ∧
    run [.monomial 1 2, .monomial (.ofInt 3) 1, .const (.ofInt 2)] steps = [.nan] ∧
    Canonical (run [.monomial 1 2, .monomial (.ofInt 3) 1, .const (.ofInt 2)] steps) := by
  intro steps
  have hl : Canonical [.monomial 1 2, .monomial (.ofInt 3) 1, .const (.ofInt 2)] :=
    ⟨by decide +kernel, by decide +kernel⟩
  have hs : .scale .nan ∉ steps := by decide +kernel
  exact ⟨hl, hs, by decide +kernel, (run_descends hl steps).2.2.1 hs⟩

/-- The list `3 * x ^ 2 + 2 * x` is canonical, and becomes two NaN terms when it is scaled by NaN. -/
theorem nan_repeated_by_nan_scale :
    ¬ ∀ l : List Term, Canonical l → ∀ steps : List Step, Canonical (run l steps) := by
  intro h
  have hl : Canonical [.monomial (.ofInt 3) 2, .monomial (.ofInt 2) 1] := ⟨by decide +kernel, by decide +kernel⟩
  have hcanonical : Canonical (run [.monomial (.ofInt 3) 2, .monomial (.ofInt 2) 1] [.scale .nan]) := h _ hl _
  have htwo : run [.monomial (.ofInt 3) 2, .monomial (.ofInt 2) 1] [.scale .nan] = [.nan, .nan] := by decide +kernel
  rw [htwo] at hcanonical
  exact absurd hcanonical.descending (by decide +kernel)

end ExactPoly.TermList
