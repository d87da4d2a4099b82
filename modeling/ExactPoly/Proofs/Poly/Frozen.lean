import ExactPoly.Proofs.Poly.Canonical

/-!
# Frozen lists are canonical

* `Traced.AllCanonical` : every list that was frozen on the way to a result is canonical;
* `allCanonical_pure`, `allCanonical_freeze`, `allCanonical_bind`, `AllCanonical.foldlM` : how a computation keeps this;
* `allCanonical_guard` : an operation that freezes nothing but its result needs no more than a canonical result;
* `Canonical.allCanonical_negM`, ..., `Canonical.allCanonical_antiderivativeM`, `allCanonical_parseM` : one lemma for each
  operation.
-/

open Polynomial

namespace ExactPoly

namespace Traced

/-- Every list that was frozen on the way to the result is canonical. -/
def AllCanonical {α : Type} (x : Traced α) : Prop := ∀ l ∈ x.frozen, (⟨l⟩ : Poly).Canonical

section Computation
variable {α β : Type}

theorem allCanonical_pure (a : α) : (pure a : Traced α).AllCanonical := fun _ h => absurd h List.not_mem_nil

theorem allCanonical_freeze {l : List Term} : (Poly.freeze l).AllCanonical ↔ (⟨l⟩ : Poly).Canonical :=
  List.forall_mem_singleton

theorem allCanonical_bind {x : Traced α} {f : α → Traced β} :
    (x >>= f).AllCanonical ↔ x.AllCanonical ∧ (f x.value).AllCanonical := List.forall_mem_append

/-- The predicate is about the value between two steps of the fold. -/
theorem AllCanonical.foldlM {P : β → Prop} {f : β → α → Traced β} {l : List α}
    (hstep : ∀ b, P b → ∀ a ∈ l, (f b a).AllCanonical ∧ P (f b a).value) {b : β} (hb : P b) :
    (l.foldlM f b).AllCanonical := by
  induction l generalizing b with
  | nil => exact allCanonical_pure b
  | cons a l ih =>
    obtain ⟨hfrozen, hvalue⟩ := hstep b hb a (by simp)
    rw [List.foldlM_cons, allCanonical_bind]
    exact ⟨hfrozen, ih (fun b hb u hu => hstep b hb u (by simp [hu])) hvalue⟩

theorem allCanonical_guard {c : Prop} [Decidable c] {p : Poly} {l : List Term}
    (h : (if c then pure p else Poly.freeze l : Traced Poly).value.Canonical) :
    (if c then pure p else Poly.freeze l : Traced Poly).AllCanonical := by
  split at h
  · next hc =>
    rw [if_pos hc]
    exact allCanonical_pure p
  · next hc =>
    rw [if_neg hc]
    exact allCanonical_freeze.mpr h

end Computation

end Traced

namespace Poly

open Traced

/-! ## Operations that freeze their result -/

theorem Canonical.allCanonical_negM {p : Poly} (hp : p.Canonical) : (negM p).AllCanonical := allCanonical_guard hp.neg

theorem Canonical.allCanonical_addM {p q : Poly} (hp : p.Canonical) (hq : q.Canonical) : (addM p q).AllCanonical :=
  allCanonical_guard (hp.add hq)

theorem Canonical.allCanonical_derivativeM {p : Poly} (hp : p.Canonical) : (derivativeM p).AllCanonical :=
  allCanonical_guard hp.derivative

theorem Canonical.allCanonical_antiderivativeM {p : Poly} (hp : p.Canonical) (c : Scalar) :
    (antiderivativeM p c).AllCanonical := by
  have hvalue : (antiderivativeM p c).value.Canonical := hp.antiderivative c
  unfold antiderivativeM at hvalue ⊢
  split at hvalue
  · next hn =>
    rw [if_pos hn]
    exact allCanonical_pure nan
  · next hn =>
    rw [if_neg hn]
    exact allCanonical_guard hvalue

theorem allCanonical_parseM {text : List Char} {x : Traced Poly} (h : parseM text = .ok x) : x.AllCanonical := by
  obtain ⟨ts, hts, rfl⟩ := parseM_eq_ok h
  exact allCanonical_guard (canonical_ofList (canonical_readTerms hts))

/-! ## Operations that call others -/

theorem Canonical.allCanonical_subM {p q : Poly} (hp : p.Canonical) (hq : q.Canonical) : (subM p q).AllCanonical :=
  allCanonical_bind.mpr ⟨hq.allCanonical_negM, hp.allCanonical_addM hq.neg⟩

/-- The products with the terms of `p` and the sums of these products. -/
theorem Canonical.allCanonical_mulM {p q : Poly} (hp : p.Canonical) (hq : q.Canonical) : (mulM p q).AllCanonical := by
  unfold mulM
  split
  · exact allCanonical_pure nan
  · next hn =>
    obtain ⟨hpn, hqn⟩ : p.isNaN = false ∧ q.isNaN = false := by simpa using hn
    obtain ⟨P, hp⟩ := hp.represents hpn
    obtain ⟨Q, hq⟩ := hq.represents hqn
    have hmul : ∀ t ∈ p.terms, (q.mulTerm t).Canonical := fun t ht => hq.canonical_mulTerm (hp.coeff_ne_nan ht)
    refine AllCanonical.foldlM (P := Poly.Canonical) (fun s hs t ht => ⟨?_, ?_⟩) represents_zero.isCanonical
    · exact allCanonical_bind.mpr ⟨allCanonical_freeze.mpr (hmul t ht), hs.allCanonical_addM (hmul t ht)⟩
    · exact hs.add (hmul t ht)

/-- Each step starts from a remainder that represents a polynomial. -/
theorem Represents.allCanonical_longDivisionM {v : Poly} {V : ℚ[X]} (hv : v.Represents V) (hV : V ≠ 0) (fuel : Nat)
    {r : Poly} {R : ℚ[X]} (hr : r.Represents R) : (longDivisionM v fuel r).AllCanonical := by
  induction fuel generalizing r R with
  | zero => exact allCanonical_pure _
  | succ fuel ih =>
    rw [longDivisionM]
    cases ht : nextStep? v r with
    | none => exact allCanonical_pure _
    | some t =>
      obtain ⟨hmul, hsub, -⟩ := represents_step hv hr hV ht
      refine allCanonical_bind.mpr ⟨allCanonical_freeze.mpr hmul.isCanonical, ?_⟩
      refine allCanonical_bind.mpr ⟨hr.isCanonical.allCanonical_subM hmul.isCanonical, ?_⟩
      exact allCanonical_bind.mpr ⟨ih hsub, allCanonical_pure _⟩

theorem Canonical.allCanonical_divModM {u v : Poly} (hu : u.Canonical) (hv : v.Canonical) : (divModM u v).AllCanonical := by
  have hquotient : (divModM u v).value.1.Canonical := (hu.divMod hv).1
  unfold divModM at hquotient ⊢
  split
  · exact allCanonical_pure _
  · next hn =>
    rw [if_neg hn] at hquotient
    obtain ⟨⟨hun, hvn⟩, h0⟩ : (u.isNaN = false ∧ v.isNaN = false) ∧ v.isZero = false := by simpa using hn
    obtain ⟨U, hu⟩ := hu.represents hun
    obtain ⟨V, hv⟩ := hv.represents hvn
    refine allCanonical_bind.mpr ⟨hv.allCanonical_longDivisionM (hv.ne_zero h0) _ hu, ?_⟩
    exact allCanonical_bind.mpr ⟨allCanonical_freeze.mpr hquotient, allCanonical_pure _⟩

end Poly

end ExactPoly
