import ExactPoly.Proofs.Poly.Ring
import ExactPoly.Proofs.Text.Signed

/-!
# Two texts with a plus sign between them

The sign at the seam ends the last body of the first text. After it the second text is scanned as from its start, only that its
bodies stand further on.

* `bodiesFrom_append_sign`, `bodiesFrom_prefix`, `bodies_join` : the bodies of the two texts;
* `ParseError.move`, `Body.toTerm_after` : errors in the second text have their positions moved;
* `mapM_bodies_join` : the terms of the two texts;
* `ofList_insertAll_append` : the terms of two lists accumulate to the sum of the polynomials;
* `parse_eq_error` : the two ways a text fails that is not empty;
* `ofString_join` : the polynomial of the two texts, or the first error.
-/

namespace ExactPoly.Poly

open Text

/-! ## The bodies -/

theorem bodiesFrom_append_sign {c : Char} (hc : isSign c = true) (before cur a b : List Char) :
    bodiesFrom before cur (a ++ c :: b) = bodiesFrom before cur a ++ bodiesFrom (before ++ cur ++ a ++ [c]) [] b := by
  induction a generalizing before cur with
  | nil =>
    rw [List.nil_append, List.append_nil, bodiesFrom, bodiesFrom, if_pos hc]
    split <;> rfl
  | cons d a ih =>
    have hassoc : before ++ cur ++ [d] ++ [] ++ a ++ [c] = before ++ cur ++ d :: a ++ [c] := by simp
    have hassoc' : before ++ (cur ++ [d]) ++ a ++ [c] = before ++ cur ++ d :: a ++ [c] := by simp
    rw [List.cons_append, bodiesFrom, bodiesFrom, ih, ih, hassoc, hassoc']
    split_ifs <;> rfl

namespace Body

/-- The body with the text `pre` before all the text that is before it. -/
def after (pre : List Char) (b : Body) : Body := ⟨pre ++ b.before, b.text⟩

end Body

theorem bodiesFrom_prefix (pre before cur cs : List Char) :
    bodiesFrom (pre ++ before) cur cs = (bodiesFrom before cur cs).map (Body.after pre) := by
  induction cs generalizing before cur with
  | nil =>
    rw [bodiesFrom, bodiesFrom]
    split <;> rfl
  | cons c cs ih =>
    have hassoc : pre ++ before ++ cur ++ [c] = pre ++ (before ++ cur ++ [c]) := by simp
    rw [bodiesFrom, bodiesFrom, hassoc, ih, ih]
    split_ifs <;> rfl

/-- The text of two polynomials with a plus sign between them. -/
def join (s t : List Char) : List Char := s ++ '+' :: t

theorem bodies_join (s t : List Char) : bodies (join s t) = bodies s ++ (bodies t).map (Body.after (s ++ ['+'])) := by
  have hpre := bodiesFrom_prefix (s ++ ['+']) [] [] t
  rw [List.append_nil] at hpre
  rw [join, bodies, bodiesFrom_append_sign rfl, List.nil_append, List.nil_append, hpre]
  rfl

/-! ## Errors further on -/

/-- The error `n` bytes further on. -/
def ParseError.move (n : Nat) : ParseError → ParseError
  | .empty => .empty
  | .danglingSign i => .danglingSign (n + i)
  | .term i cause => .term (n + i) cause

namespace Body

/-- After a plus sign, a body without a sign of its own is not negative, as at the start of a text. -/
theorem negative_after {pre : List Char} (hpre : pre.getLast? = some '+') (b : Body) : (b.after pre).negative = b.negative := by
  show ((pre ++ b.before).getLast? == some '-') = (b.before.getLast? == some '-')
  by_cases h : b.before = []
  · rw [h, List.append_nil, hpre]
    rfl
  · rw [List.getLast?_append_of_ne_nil _ h]

theorem toTerm_after {pre : List Char} (hpre : pre.getLast? = some '+') (b : Body) :
    (b.after pre).toTerm = b.toTerm.mapError (ParseError.move (byteSize pre)) := by
  have htext : (b.after pre).text = b.text := rfl
  have hposition : (b.after pre).position = byteSize pre + b.position := byteSize_append pre b.before
  rw [toTerm, toTerm, htext, negative_after hpre, hposition]
  cases Term.parse b.text <;> rfl

end Body

theorem mapM_toTerm_map_after {pre : List Char} (hpre : pre.getLast? = some '+') (bs : List Body) :
    (bs.map (Body.after pre)).mapM Body.toTerm = (bs.mapM Body.toTerm).mapError (ParseError.move (byteSize pre)) := by
  induction bs with
  | nil => rfl
  | cons b bs ih =>
    rw [List.map_cons, List.mapM_cons, List.mapM_cons, ih, b.toTerm_after hpre]
    cases b.toTerm with
    | error e => rfl
    | ok t => cases bs.mapM Body.toTerm <;> rfl

/-! ## The terms -/

theorem mapM_bodies_join (s t : List Char) :
    (bodies (join s t)).mapM Body.toTerm =
      ((bodies s).mapM Body.toTerm >>= fun ts =>
        ((bodies t).mapM Body.toTerm).mapError (ParseError.move (byteSize s + 1)) >>= fun us => .ok (ts ++ us)) := by
  have hpre : (s ++ ['+']).getLast? = some '+' := List.getLast?_concat
  have hsize : byteSize (s ++ ['+']) = byteSize s + 1 := byteSize_append s ['+']
  rw [bodies_join, List.mapM_append, mapM_toTerm_map_after hpre, hsize]
  rfl

/-- Adding up terms from a polynomial is adding their sum to it. -/
theorem Canonical.foldl_ofTerm {p q : Poly} (hp : p.Canonical) (hq : q.Canonical) (ts : List Term) :
    ts.foldl (fun p t => p + ofTerm t) (p + q) = p + ts.foldl (fun p t => p + ofTerm t) q := by
  induction ts generalizing q with
  | nil => rfl
  | cons t ts ih =>
    have ht := canonical_ofTerm t
    rw [List.foldl_cons, List.foldl_cons, hp.add_assoc hq ht, ih (hq.add ht)]

theorem ofList_insertAll_append (ts us : List Term) :
    ofList (TermList.insertAll [] (ts ++ us)) =
      ofList (TermList.insertAll [] ts) + ofList (TermList.insertAll [] us) := by
  have hts : (ofList (TermList.insertAll [] ts)).Canonical := canonical_ofList (TermList.Canonical.nil.insertAll ts)
  have happend : TermList.insertAll [] (ts ++ us) = TermList.insertAll (TermList.insertAll [] ts) us := List.foldl_append
  have hsum := hts.foldl_ofTerm represents_zero.isCanonical us
  rw [hts.add_zero] at hsum
  rw [happend, Poly.foldl_ofTerm, hsum, Poly.foldl_ofTerm [] us]
  rfl

/-! ## The parser -/

theorem parse_eq_error {text : List Char} (hne : text ≠ []) {e : ParseError} (h : parse text = .error e) :
    (bodies text).mapM Body.toTerm = .error e ∨
    ∃ ts, (bodies text).mapM Body.toTerm = .ok ts ∧ text.getLast?.any isSign = true ∧
      e = .danglingSign (byteSize text - 1) := by
  rw [parse_eq hne] at h
  rcases bind_eq_error h with h | ⟨ts, hts, hclose⟩
  · exact .inl h
  · cases hlast : text.getLast?.any isSign with
    | true =>
      rw [close_of_sign hlast] at hclose
      exact .inr ⟨ts, hts, rfl, (Except.error.inj hclose).symm⟩
    | false =>
      rw [close_of_not_sign hlast] at hclose
      cases hclose

theorem join_ne_nil (s t : List Char) : join s t ≠ [] := by simp [join]

theorem getLast?_join (s : List Char) {t : List Char} (ht : t ≠ []) : (join s t).getLast? = t.getLast? := by
  have hsplit : join s t = s ++ ['+'] ++ t := by simp [join]
  rw [hsplit, List.getLast?_append_of_ne_nil _ ht]

theorem byteSize_join (s t : List Char) : byteSize (join s t) = byteSize s + 1 + byteSize t := by
  rw [join, byteSize_append, byteSize_cons, utf8Size_of_isSign rfl, Nat.add_assoc]

theorem parse_join_of_ok {s t : List Char} {a b : Poly} (ha : parse s = .ok a) (hb : parse t = .ok b) :
    parse (join s t) = .ok (a + b) := by
  obtain ⟨-, -, ts, hts, rfl⟩ := parse_eq_ok_iff.mp ha
  obtain ⟨hne, hlast, us, hus, rfl⟩ := parse_eq_ok_iff.mp hb
  apply parse_eq_ok_iff.mpr
  refine ⟨join_ne_nil s t, ?_, ts ++ us, ?_, (ofList_insertAll_append ts us).symm⟩
  · rw [getLast?_join s hne, hlast]
  · rw [mapM_bodies_join, hts, hus]
    rfl

theorem parse_join_of_error {s t : List Char} (hne : t ≠ []) {a : Poly} {e : ParseError} (ha : parse s = .ok a)
    (he : parse t = .error e) : parse (join s t) = .error (e.move (byteSize s + 1)) := by
  obtain ⟨-, -, ts, hts, -⟩ := parse_eq_ok_iff.mp ha
  rw [parse_eq (join_ne_nil s t), mapM_bodies_join, hts]
  rcases parse_eq_error hne he with hus | ⟨us, hus, hlast, rfl⟩
  · rw [hus]
    rfl
  · have hpos := byteSize_pos hne
    have hend : byteSize (join s t) - 1 = byteSize s + 1 + (byteSize t - 1) := by
      rw [byteSize_join]
      omega
    have hlast' : (join s t).getLast?.any isSign = true := by rw [getLast?_join s hne, hlast]
    rw [hus]
    show close (join s t) (ts ++ us) = _
    rw [close_of_sign hlast', hend]
    rfl

/-- A sign at the end of a text is not followed by a term. -/
theorem parse_join_nil {s : List Char} {a : Poly} (ha : parse s = .ok a) :
    parse (join s []) = .error (.danglingSign (byteSize s)) := by
  obtain ⟨-, -, ts, hts, -⟩ := parse_eq_ok_iff.mp ha
  have hlast : (join s []).getLast?.any isSign = true := by
    rw [join, List.getLast?_concat]
    rfl
  rw [parse_eq (join_ne_nil s []), mapM_bodies_join, hts]
  show close (join s []) (ts ++ []) = _
  rw [close_of_sign hlast, byteSize_join]
  rfl

theorem parse_join_of_term_error {s : List Char} {i : Nat} {cause : Term.ParseError}
    (h : parse s = .error (.term i cause)) (t : List Char) : parse (join s t) = .error (.term i cause) := by
  have hne : s ≠ [] := by
    rintro rfl
    cases h
  have hts := (parse_eq_error hne h).resolve_right (by rintro ⟨_, -, -, h⟩; cases h)
  rw [parse_eq (join_ne_nil s t), mapM_bodies_join, hts]
  rfl

/-- The text `t` may start with signs of its own, of which the last one counts. -/
theorem ofString_join (s t : String) :
    (∀ a b, ofString s = .ok a → ofString t = .ok b → ofString (s ++ "+" ++ t) = .ok (a + b)) ∧
    (∀ a e, ofString s = .ok a → ofString t = .error e →
      ofString (s ++ "+" ++ t) =
        .error (if t = "" then .danglingSign s.utf8ByteSize else e.move (s.utf8ByteSize + 1))) ∧
    ∀ i cause, ofString s = .error (.term i cause) → ofString (s ++ "+" ++ t) = .error (.term i cause) := by
  have hjoin : (s ++ "+" ++ t).toList = join s.toList t.toList := by simp [join]
  simp only [ofString, hjoin]
  refine ⟨fun a b => parse_join_of_ok, fun a e ha he => ?_, fun i cause h => parse_join_of_term_error h _⟩
  rw [← byteSize_toList]
  split
  · next ht =>
    rw [ht]
    exact parse_join_nil ha
  · next ht => exact parse_join_of_error (fun h => ht (String.toList_eq_nil_iff.mp h)) ha he

/-- A run of signs at the seam, a NaN term, an empty text, and a bad term after and before the seam. -/
theorem ofString_join_seam :
    let a : Poly := ⟨[.monomial 1 1, .const (.ofInt (-2))]⟩
    let b : Poly := ⟨[.monomial (-1) 1]⟩
    ofString "x-2" = .ok a ∧ ofString "+-x" = .ok b ∧ ofString "x-2++-x" = .ok (a + b) ∧
    ofString "NaN*x+x-2" = .ok (nan + a) ∧ ofString "x-2+" = .error (.danglingSign 3) ∧
    (∃ cause, ofString "x-2+7-é" = .error (.term 6 cause)) ∧ ∃ cause, ofString "é+x-2" = .error (.term 0 cause) := by
  intro a b
  have ha : ofString "x-2" = .ok a := by rfl
  have hb : ofString "+-x" = .ok b := by rfl
  have hnan : ofString "NaN*x" = .ok nan := by rfl
  have hempty : ofString "" = .error .empty := rfl
  have hbad : ofString "7-é" = .error (.term 2 (.coefficient (.numerator "é"))) := by rfl
  have hbad' : ofString "é" = .error (.term 0 (.coefficient (.numerator "é"))) := by rfl
  exact ⟨ha, hb, (ofString_join "x-2" "+-x").1 a b ha hb, (ofString_join "NaN*x" "x-2").1 nan a hnan ha,
    (ofString_join "x-2" "").2.1 a _ ha hempty, ⟨_, (ofString_join "x-2" "7-é").2.1 a _ ha hbad⟩,
    ⟨_, (ofString_join "é" "x-2").2.2 _ _ hbad'⟩⟩

end ExactPoly.Poly
