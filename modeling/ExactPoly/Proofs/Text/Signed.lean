import ExactPoly.Proofs.Text.Grammar

/-!
# Texts of signed bodies

A text can be written body by body, each after its sign. Its bodies have other places than before, but the same texts
and signs, so they are read as the same terms.

* `bodiesFrom_append`, `bodiesFrom_run` : the bodies of a text part by part;
* `Body.signed` : a body with its sign in front; `Body.Reads.toTerm` : only its text and its sign decide how it is read;
* `mapM_bodiesFrom_text`, `mapM_bodiesFrom_signed` : the terms of one body and of all;
* `parse_eq_ok_iff` : a text is read exactly if it ends in a body and each of its bodies is read.
-/

namespace ExactPoly.Poly

open Text

/-! ## The bodies of a text in parts -/

theorem bodiesFrom_append {m : List Char} (h : ∀ c ∈ m, isSign c = false) (before cur cs : List Char) :
    bodiesFrom before cur (m ++ cs) = bodiesFrom before (cur ++ m) cs := by
  induction m generalizing cur with
  | nil => rw [List.nil_append, List.append_nil]
  | cons c m ih =>
    have hc : ¬ isSign c = true := by simp [h c (by simp)]
    rw [List.cons_append, bodiesFrom, if_neg hc, ih (fun d hd => h d (by simp [hd])), List.append_assoc]
    rfl

/-- A run that ends at a sign or with the text is a body, and the others are those of the rest. -/
theorem bodiesFrom_run {cur cs : List Char} (hcur : cur ≠ []) (hcs : ∀ c ∈ cs.head?, isSign c = true)
    (before : List Char) : bodiesFrom before cur cs = ⟨before, cur⟩ :: bodiesFrom (before ++ cur) [] cs := by
  cases cs with
  | nil => rw [bodiesFrom, if_neg hcur, bodiesFrom, if_pos rfl]
  | cons c cs =>
    have hc := hcs c rfl
    rw [bodiesFrom, if_pos hc, if_neg hcur, bodiesFrom, if_pos hc, if_pos rfl, List.append_nil]

/-- A text without bodies has only signs. -/
theorem isSign_of_bodiesFrom_eq_nil {before cur cs : List Char} (h : bodiesFrom before cur cs = []) :
    cur = [] ∧ ∀ c ∈ cs, isSign c = true := by
  induction cs generalizing before cur with
  | nil =>
    rw [bodiesFrom] at h
    split at h
    · next hcur => exact ⟨hcur, by simp⟩
    · cases h
  | cons c cs ih =>
    rw [bodiesFrom] at h
    split at h
    · next hc =>
      split at h
      · next hcur => exact ⟨hcur, List.forall_mem_cons.mpr ⟨hc, (ih h).2⟩⟩
      · cases h
    · exact absurd (ih h).1 (by simp)

theorem bodies_ne_nil {text : List Char} (hne : text ≠ []) (hlast : text.getLast?.any isSign = false) :
    bodies text ≠ [] := by
  intro h
  have hsign := (isSign_of_bodiesFrom_eq_nil h).2 _ (List.getLast_mem hne)
  rw [List.getLast?_eq_some_getLast hne, Option.any_some, hsign] at hlast
  cases hlast

/-! ## A body and its sign -/

namespace Body

def sign (b : Body) : Char := if b.negative then '-' else '+'

/-- The body with its sign in front. -/
def signed (b : Body) : List Char := b.sign :: b.text

/-- The text is a run without signs that is not empty. -/
def Run (b : Body) : Prop := b.text ≠ [] ∧ ∀ c ∈ b.text, isSign c = false

theorem isSign_sign (b : Body) : isSign b.sign = true := by
  unfold sign
  split <;> rfl

theorem getLast?_sign (b : Body) (before : List Char) :
    ((before ++ [b.sign]).getLast? == some '-') = b.negative := by
  rw [List.getLast?_concat, sign]
  cases b.negative <;> rfl

theorem head?_flatMap_signed (bs : List Body) : ∀ c ∈ (bs.flatMap signed).head?, isSign c = true := by
  cases bs with
  | nil => simp
  | cons b bs =>
    rintro c ⟨⟩
    exact b.isSign_sign

/-- How a body is read depends on its text and its sign, not on its place. -/
theorem Reads.toTerm {b : Body} {t : Term} (h : b.Reads t) {before : List Char}
    (hbefore : (before.getLast? == some '-') = b.negative) : Body.toTerm ⟨before, b.text⟩ = .ok t := by
  obtain ⟨u, hu, rfl⟩ := h
  have hnegative : negative ⟨before, b.text⟩ = b.negative := hbefore
  rw [Body.toTerm, hu, hnegative]

end Body

/-! ## Bodies one after another -/

theorem mapM_bodiesFrom_text {b : Body} (hb : b.Run) {t : Term} (ht : b.Reads t) {before cs : List Char}
    (hbefore : (before.getLast? == some '-') = b.negative) (hcs : ∀ c ∈ cs.head?, isSign c = true) {ts : List Term}
    (hts : (bodiesFrom (before ++ b.text) [] cs).mapM Body.toTerm = .ok ts) :
    (bodiesFrom before [] (b.text ++ cs)).mapM Body.toTerm = .ok (t :: ts) := by
  rw [bodiesFrom_append hb.2, List.nil_append, bodiesFrom_run hb.1 hcs, List.mapM_cons, ht.toTerm hbefore, hts]
  rfl

section Signed
variable {bs : List Body} (hbs : ∀ b ∈ bs, b.Run)
include hbs

/-- Induction on the bodies that are left; `before` is the text of the others. -/
theorem mapM_bodiesFrom_signed {ts : List Term} (h : List.Forall₂ Body.Reads bs ts) (before : List Char) :
    (bodiesFrom before [] (bs.flatMap Body.signed)).mapM Body.toTerm = .ok ts := by
  induction h generalizing before with
  | nil => rfl
  | @cons b t bs ts hb _ ih =>
    obtain ⟨hrun, hbs⟩ := List.forall_mem_cons.mp hbs
    rw [List.flatMap_cons, Body.signed, List.cons_append, bodiesFrom, if_pos b.isSign_sign, if_pos rfl, List.append_nil]
    exact mapM_bodiesFrom_text hrun hb (b.getLast?_sign before) (Body.head?_flatMap_signed bs) (ih hbs _)

theorem getLast?_flatMap_signed : (bs.flatMap Body.signed).getLast?.any isSign = false := by
  rcases List.eq_nil_or_concat' bs with rfl | ⟨as, b, rfl⟩
  · rfl
  · obtain ⟨hne, hsign⟩ := hbs b (by simp)
    have hsplit : (as ++ [b]).flatMap Body.signed = as.flatMap Body.signed ++ [b.sign] ++ b.text := by
      simp [Body.signed]
    rw [hsplit, List.getLast?_append_of_ne_nil _ hne, List.getLast?_eq_some_getLast hne]
    exact hsign _ (List.getLast_mem hne)

end Signed

/-! ## The parser -/

theorem parse_eq_ok_iff {text : List Char} {p : Poly} :
    parse text = .ok p ↔ text ≠ [] ∧ text.getLast?.any isSign = false ∧
      ∃ ts, (bodies text).mapM Body.toTerm = .ok ts ∧ p = ofList (TermList.insertAll [] ts) := by
  by_cases hne : text = []
  · subst hne
    exact iff_of_false (fun h => by cases h) fun h => h.1 rfl
  rw [parse_eq hne]
  constructor
  · intro h
    obtain ⟨ts, hts, hclose⟩ := bind_eq_ok h
    cases hlast : text.getLast?.any isSign with
    | true =>
      rw [close_of_sign hlast] at hclose
      cases hclose
    | false =>
      rw [close_of_not_sign hlast] at hclose
      exact ⟨hne, rfl, ts, hts, (Except.ok.inj hclose).symm⟩
  · rintro ⟨-, hlast, ts, hts, rfl⟩
    rw [hts]
    exact close_of_not_sign hlast ts

end ExactPoly.Poly
