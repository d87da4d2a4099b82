import Mathlib.Data.List.Perm.Basic
import ExactPoly.Proofs.TermList.Coefficients
import ExactPoly.Proofs.Text.Signed

/-!
# The order of the terms

* `nodup_bodies` : the bodies of a text have different places, so an order of them is a list without repetition;
* `parse_signed_perm` : the signed bodies of a text that is read may be written in any order;
* `accumulate_perm` : the order of the terms of a list, of a sum and of a text does not matter.
-/

namespace ExactPoly.Poly

open Text

theorem nodup_bodies (text : List Char) : (bodies text).Nodup := by
  apply (pairwise_bodies text).imp
  rintro b _ hlt rfl
  exact lt_irrefl _ hlt

theorem parse_signed_perm {text : List Char} {p : Poly} (h : parse text = .ok p) {bs : List Body}
    (hperm : bs.Perm (bodies text)) : parse (bs.flatMap Body.signed) = .ok p := by
  obtain ⟨hne, hlast, ts, hts, rfl⟩ := parse_eq_ok_iff.mp h
  -- the order of the bodies is an order of the terms
  obtain ⟨us, hus, husts⟩ := List.perm_comp_forall₂ hperm (mapM_toTerm_eq_ok hts)
  have hbs : ∀ b ∈ bs, b.Run := by
    intro b hb
    have hbody := mem_bodies_iff.mp (hperm.mem_iff.mp hb)
    exact ⟨hbody.ne_nil, hbody.not_sign⟩
  apply parse_eq_ok_iff.mpr
  refine ⟨?_, getLast?_flatMap_signed hbs, us, mapM_bodiesFrom_signed hbs hus [], ?_⟩
  · intro hnil
    cases bs with
    | nil => exact bodies_ne_nil hne hlast hperm.nil_eq.symm
    | cons b bs => cases hnil
  · rw [TermList.insertAll_perm .nil husts]

/-- The bodies in the third part are those of the text in any order: a body has its own place, so none is repeated. -/
theorem accumulate_perm :
    (∀ l ts ts' : List Term, TermList.Canonical l → ts.Perm ts' →
      ts.foldl (fun l t => TermList.insert t l) l = ts'.foldl (fun l t => TermList.insert t l) l) ∧
    (∀ ts ts' : List Term, ts.Perm ts' →
      ts.foldl (fun p t => p + ofTerm t) 0 = ts'.foldl (fun p t => p + ofTerm t) 0) ∧
    ∀ (s : String) (p : Poly), ofString s = .ok p →
      ∀ bs : List Body, bs.Nodup → (∀ b, b ∈ bs ↔ IsBody s.toList b) →
        ofString (.ofList (bs.flatMap Body.signed)) = .ok p := by
  refine ⟨fun l ts ts' hl h => TermList.insertAll_perm hl h, fun ts ts' h => ?_, fun s p h bs hbs hmem => ?_⟩
  · have hsum : ∀ ts : List Term, ts.foldl (fun p t => p + ofTerm t) 0 = ofList (TermList.insertAll [] ts) :=
      fun ts => (foldl_ofTerm [] ts).symm
    rw [hsum, hsum, TermList.insertAll_perm .nil h]
  · have hperm : bs.Perm (bodies s.toList) :=
      (List.perm_ext_iff_of_nodup hbs (nodup_bodies _)).mpr fun b => (hmem b).trans mem_bodies_iff.symm
    rw [ofString, String.toList_ofList]
    exact parse_signed_perm h hperm

/-- Terms that cancel before or after a NaN term is met, and the text `x-2+x^3` with its bodies in another order. -/
theorem accumulate_perm_signs :
    let l : List Term := [.monomial 1 3, .const (.ofInt 2)]
    let ts : List Term := [.const (.ofInt (-2)), .monomial (-1) 3, .nan, .monomial 1 1]
    let bs : List Body := [⟨['x', '-'], ['2']⟩, ⟨['x', '-', '2', '+'], ['x', '^', '3']⟩, ⟨[], ['x']⟩]
    let p : Poly := ⟨[.monomial 1 3, .monomial 1 1, .const (.ofInt (-2))]⟩
    ts.foldl (fun l t => TermList.insert t l) l = ts.reverse.foldl (fun l t => TermList.insert t l) l ∧
    ts.foldl (fun p t => p + ofTerm t) 0 = ts.reverse.foldl (fun p t => p + ofTerm t) 0 ∧
    ofString "x-2+x^3" = .ok p ∧ String.ofList (bs.flatMap Body.signed) = "-2+x^3+x" ∧ ofString "-2+x^3+x" = .ok p := by
  intro l ts bs p
  have hl : TermList.Canonical l := ⟨by decide +kernel, by decide +kernel⟩
  have hts : ts.Perm ts.reverse := (List.reverse_perm ts).symm
  have hparse : ofString "x-2+x^3" = .ok p := by rfl
  have hbs : bs.Perm (bodies "x-2+x^3".toList) := by decide +kernel
  have htext : String.ofList (bs.flatMap Body.signed) = "-2+x^3+x" := by decide +kernel
  have hread := accumulate_perm.2.2 _ p hparse bs (hbs.nodup_iff.mpr (nodup_bodies _)) fun b =>
    hbs.mem_iff.trans mem_bodies_iff
  rw [htext] at hread
  exact ⟨accumulate_perm.1 l ts _ hl hts, accumulate_perm.2.1 ts _ hts, hparse, htext, hread⟩

end ExactPoly.Poly
