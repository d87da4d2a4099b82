import ExactPoly.Proofs.Text.Decimal
import ExactPoly.Proofs.Text.Scan
import ExactPoly.Proofs.Text.Term

/-!
# The texts of scalars and terms that are read

* `readInt?_eq_some` : numbers in decimal digits, with or without a minus sign;
* `Scalar.Magnitude`, `Scalar.parse_eq_ok_iff` : the texts of scalars, as a magnitude with at most one minus sign, or NaN;
* `Term.CoeffText`, `Term.PowerText`, `Term.parse_eq_ok_iff` : the texts of terms, as a coefficient before the first `x` and a
  power after it;
* `Term.parse_of_scalar` : the text of a scalar is the text of a constant term.
-/

namespace ExactPoly

open Text

/-! ## Numbers -/

namespace Text

theorem minus_not_mem_of_readNat? {cs : List Char} {n : Nat} (h : readNat? cs = some n) : '-' ∉ cs := fun hm =>
  absurd ((readNat?_eq_some h).2 _ hm) (by decide)

theorem readInt?_of_readNat? {cs : List Char} {n : Nat} (h : readNat? cs = some n) : readInt? cs = some (n : Int) := by
  rw [readInt?_of_not_mem (minus_not_mem_of_readNat? h), h]
  rfl

theorem readInt?_minus {cs : List Char} {n : Nat} (h : readNat? cs = some n) : readInt? ('-' :: cs) = some (-n : Int) := by
  rw [readInt?, h]
  rfl

theorem readInt?_eq_some {cs : List Char} {n : Int} (h : readInt? cs = some n) :
    ∃ ds m, readNat? ds = some m ∧ (cs = ds ∧ n = m ∨ cs = '-' :: ds ∧ n = -m) := by
  unfold readInt? at h
  split at h
  · obtain ⟨m, hm, rfl⟩ := Option.map_eq_some_iff.mp h
    exact ⟨_, m, hm, .inr ⟨rfl, rfl⟩⟩
  · obtain ⟨m, hm, rfl⟩ := Option.map_eq_some_iff.mp h
    exact ⟨_, m, hm, .inl ⟨rfl, rfl⟩⟩

/-- A text either lacks the character or is cut at the first one. -/
theorem not_mem_or_cut (sep : Char) (cs : List Char) : sep ∉ cs ∨ ∃ a b, cs = a ++ sep :: b ∧ sep ∉ a := by
  by_cases h : sep ∈ cs
  · exact .inr (List.eq_append_cons_of_mem h)
  · exact .inl h

end Text

/-! ## Scalars -/

namespace Scalar

/-- The text of a number without a sign, and the number. -/
inductive Magnitude : List Char → Scalar → Prop
  | whole {ns : List Char} {n : Nat} (hn : readNat? ns = some n) : Magnitude ns (.ofInt n)
  | quotient {ns ds : List Char} {n d : Nat} (hn : readNat? ns = some n) (hd : readNat? ds = some d) :
      Magnitude (ns ++ '/' :: ds) (fraction n d)

theorem Magnitude.isDigit_or_slash {cs : List Char} {a : Scalar} (h : Magnitude cs a) {c : Char} (hc : c ∈ cs) :
    c.isDigit = true ∨ c = '/' := by
  cases h with
  | whole hn => exact .inl ((readNat?_eq_some hn).2 c hc)
  | quotient hn hd =>
    rcases List.mem_append.mp hc with hc | hc
    · exact .inl ((readNat?_eq_some hn).2 c hc)
    · rcases List.mem_cons.mp hc with rfl | hc
      · exact .inr rfl
      · exact .inl ((readNat?_eq_some hd).2 c hc)

theorem Magnitude.not_mem {cs : List Char} {a : Scalar} (h : Magnitude cs a) {c : Char} (hd : c.isDigit = false)
    (hslash : c ≠ '/') : c ∉ cs := by
  intro hc
  rcases h.isDigit_or_slash hc with hc | hc
  · rw [hd] at hc
    exact Bool.false_ne_true hc
  · exact hslash hc

theorem Magnitude.ne_nil {cs : List Char} {a : Scalar} (h : Magnitude cs a) : cs ≠ [] := by
  cases h with
  | whole hn => exact (readNat?_eq_some hn).1
  | quotient hn hd => simp

theorem parseFraction_whole {ns : List Char} {n : Int} (hn : readInt? ns = some n) (hslash : '/' ∉ ns) :
    parseFraction ns = .ok (ofInt n) := by
  rw [parseFraction, before_of_not_mem hslash, after?_eq_none_iff.mpr hslash, hn]

theorem parseFraction_quotient {ns ds : List Char} {n : Int} {d : Nat} (hn : readInt? ns = some n) (hslash : '/' ∉ ns)
    (hd : readNat? ds = some d) : parseFraction (ns ++ '/' :: ds) = .ok (fraction n d) := by
  rw [parseFraction, before_append_cons _ hslash, after?_append_cons _ hslash, hn]
  simp only [hd]

theorem parseFraction_of_magnitude {cs : List Char} {a : Scalar} (h : Magnitude cs a) :
    parseFraction cs = .ok a ∧ parseFraction ('-' :: cs) = .ok (-a) := by
  have hslash : ∀ {ns n}, readNat? ns = some n → '/' ∉ ns ∧ '/' ∉ '-' :: ns := by
    intro ns n hn
    have hno : '/' ∉ ns := fun hc => absurd ((readNat?_eq_some hn).2 _ hc) (by decide)
    exact ⟨hno, by simp [hno]⟩
  cases h with
  | whole hn =>
    rw [neg_ofInt]
    exact ⟨parseFraction_whole (readInt?_of_readNat? hn) (hslash hn).1, parseFraction_whole (readInt?_minus hn) (hslash hn).2⟩
  | quotient hn hd =>
    rw [neg_fraction, ← List.cons_append]
    exact ⟨parseFraction_quotient (readInt?_of_readNat? hn) (hslash hn).1 hd,
      parseFraction_quotient (readInt?_minus hn) (hslash hn).2 hd⟩

theorem parseFraction_eq_ok {cs : List Char} {a : Scalar} (h : parseFraction cs = .ok a) :
    Magnitude cs a ∨ ∃ ds b, cs = '-' :: ds ∧ Magnitude ds b ∧ a = -b := by
  rcases not_mem_or_cut '/' cs with hslash | ⟨num, den, rfl, hslash⟩
  · rw [parseFraction, before_of_not_mem hslash, after?_eq_none_iff.mpr hslash] at h
    cases hnum : readInt? cs with
    | none => simp [hnum] at h
    | some n =>
      obtain rfl : ofInt n = a := by simpa [hnum] using h
      obtain ⟨ns, m, hm, ⟨rfl, rfl⟩ | ⟨rfl, rfl⟩⟩ := readInt?_eq_some hnum
      · exact .inl (.whole hm)
      · exact .inr ⟨ns, _, rfl, .whole hm, (neg_ofInt m).symm⟩
  · rw [parseFraction, before_append_cons _ hslash, after?_append_cons _ hslash] at h
    cases hnum : readInt? num with
    | none => simp [hnum] at h
    | some n =>
      cases hden : readNat? den with
      | none => simp [hnum, hden] at h
      | some d =>
        obtain rfl : fraction n d = a := by simpa [hnum, hden] using h
        obtain ⟨ns, m, hm, ⟨rfl, rfl⟩ | ⟨rfl, rfl⟩⟩ := readInt?_eq_some hnum
        · exact .inl (.quotient hm hden)
        · exact .inr ⟨ns ++ '/' :: den, _, rfl, .quotient hm hden, (neg_fraction m d).symm⟩

theorem parse_eq_ok_iff {cs : List Char} {a : Scalar} :
    parse cs = .ok a ↔
      (cs = ['N', 'a', 'N'] ∧ a = nan) ∨ Magnitude cs a ∨ ∃ ds b, cs = '-' :: ds ∧ Magnitude ds b ∧ a = -b := by
  constructor
  · intro h
    unfold parse at h
    split_ifs at h with hnil hnan
    · exact .inl ⟨hnan, (Except.ok.inj h).symm⟩
    · exact .inr (parseFraction_eq_ok h)
  · rintro (⟨rfl, rfl⟩ | h | ⟨ds, b, rfl, h, rfl⟩)
    · rfl
    · have hnan : cs ≠ ['N', 'a', 'N'] := by
        rintro rfl
        exact h.not_mem (c := 'N') (by decide) (by decide) (by simp)
      rw [parse, if_neg h.ne_nil, if_neg hnan, (parseFraction_of_magnitude h).1]
    · rw [parse, if_neg (by simp), if_neg (by simp), (parseFraction_of_magnitude h).2]

theorem ne_nil_of_parse {cs : List Char} {a : Scalar} (h : parse cs = .ok a) : cs ≠ [] := by
  rintro rfl
  cases h

theorem not_mem_of_parse {cs : List Char} {a : Scalar} (h : parse cs = .ok a) {c : Char} (hd : c.isDigit = false)
    (hc : c ∉ ['/', '-', 'N', 'a']) : c ∉ cs := by
  simp only [List.mem_cons, not_or, List.not_mem_nil, not_false_eq_true, and_true] at hc
  rcases parse_eq_ok_iff.mp h with ⟨rfl, -⟩ | h | ⟨ds, b, rfl, h, -⟩
  · simp [hc]
  · exact h.not_mem hd hc.1
  · simp [hc, h.not_mem hd hc.1]

end Scalar

/-! ## Terms -/

namespace Term

theorem mapError_eq_ok_iff {ε δ α : Type} {f : ε → δ} {x : Except ε α} {a : α} : x.mapError f = .ok a ↔ x = .ok a := by
  cases x <;> simp [Except.mapError]

theorem parseCoeff_of_parse {cs : List Char} {c : Scalar} (h : Scalar.parse cs = .ok c) : parseCoeff cs = .ok c := by
  have hminus : cs ≠ ['-'] := by
    rintro rfl
    cases h
  have hstar : ¬ cs.getLast? = some '*' := fun hlast =>
    Scalar.not_mem_of_parse h (by decide) (by decide) (List.mem_of_getLast? hlast)
  rw [parseCoeff, if_neg (Scalar.ne_nil_of_parse h), if_neg hminus, if_neg hstar, h]
  rfl

/-- The text `ds` is `cs` without a star at its end; one star is left out, not more. -/
def Unstarred (cs ds : List Char) : Prop := cs = ds ++ ['*'] ∨ cs = ds ∧ cs.getLast? ≠ some '*'

/-- What may stand before the `x`, and the coefficient that it means. -/
inductive CoeffText : List Char → Scalar → Prop
  | one : CoeffText [] 1
  | minusOne : CoeffText ['-'] (-1)
  | scalar {cs ds : List Char} {a : Scalar} (hds : Unstarred cs ds) (h : Scalar.parse ds = .ok a) : CoeffText cs a

/-- What may follow the `x`, and the exponent that it means. -/
inductive PowerText : List Char → Nat → Prop
  | one : PowerText [] 1
  | caret {ds : List Char} {e : Nat} (h : Numeral ds e) (he : e ≤ maxExpt) : PowerText ('^' :: ds) e

/-- A coefficient that is written out is a scalar, whose errors are passed on. -/
theorem exists_unstarred {cs : List Char} (hnil : cs ≠ []) (hminus : cs ≠ ['-']) :
    ∃ ds, Unstarred cs ds ∧ parseCoeff cs = (Scalar.parse ds).mapError .coefficient := by
  rw [parseCoeff, if_neg hnil, if_neg hminus]
  split
  · next hstar => exact ⟨_, .inl (List.dropLast_append_getLast? _ hstar).symm, rfl⟩
  · next hstar => exact ⟨_, .inr ⟨rfl, hstar⟩, rfl⟩

theorem parseCoeff_eq_ok_iff {cs : List Char} {c : Scalar} : parseCoeff cs = .ok c ↔ CoeffText cs c := by
  constructor
  · intro h
    by_cases hnil : cs = []
    · subst hnil
      obtain rfl := Except.ok.inj h
      exact .one
    by_cases hminus : cs = ['-']
    · subst hminus
      obtain rfl := Except.ok.inj h
      exact .minusOne
    obtain ⟨ds, hds, heq⟩ := exists_unstarred hnil hminus
    exact .scalar hds (mapError_eq_ok_iff.mp (heq.symm.trans h))
  · intro h
    cases h with
    | one => rfl
    | minusOne => rfl
    | scalar hds h =>
      rcases hds with rfl | ⟨rfl, -⟩
      · exact parseCoeff_concat_star h
      · exact parseCoeff_of_parse h

theorem parseExpt_eq_ok_iff {cs : List Char} {e : Nat} : parseExpt cs = .ok e ↔ Numeral cs e ∧ e ≤ maxExpt := by
  rw [← readNat?_eq_some_iff, parseExpt]
  cases readNat? cs with
  | none => simp
  | some n =>
    by_cases hn : n ≤ maxExpt
    · simp only [if_pos hn, Except.ok.injEq, Option.some.injEq]
      exact ⟨fun h => ⟨h, h ▸ hn⟩, And.left⟩
    · simp only [if_neg hn, reduceCtorEq, Option.some.injEq, false_iff]
      rintro ⟨rfl, h⟩
      exact hn h

theorem parsePower_eq_ok_iff {whole cs : List Char} {e : Nat} : parsePower whole cs = .ok e ↔ PowerText cs e := by
  constructor
  · intro h
    unfold parsePower at h
    split at h
    · obtain rfl := Except.ok.inj h
      exact .one
    · obtain ⟨hnum, he⟩ := parseExpt_eq_ok_iff.mp h
      exact .caret hnum he
    · cases h
  · intro h
    cases h with
    | one => rfl
    | caret h he => exact parseExpt_eq_ok_iff.mpr ⟨h, he⟩

theorem parse_of_scalar {cs : List Char} {a : Scalar} (h : Scalar.parse cs = .ok a) : parse cs = .ok (const a) := by
  have hx : 'x' ∉ cs := Scalar.not_mem_of_parse h (by decide) (by decide)
  rw [parse_of_not_mem (Scalar.ne_nil_of_parse h) hx, h]
  rfl

theorem parse_append_cons_eq_ok_iff {cs rest : List Char} (hx : 'x' ∉ cs) {t : Term} :
    parse (cs ++ 'x' :: rest) = .ok t ↔ ∃ c e, CoeffText cs c ∧ PowerText rest e ∧ t = monomial c e := by
  constructor
  · intro h
    rw [parse_append_cons rest hx] at h
    obtain ⟨c, hc, h⟩ := bind_eq_ok h
    obtain ⟨e, he, h⟩ := bind_eq_ok h
    exact ⟨c, e, parseCoeff_eq_ok_iff.mp hc, parsePower_eq_ok_iff.mp he, (Except.ok.inj h).symm⟩
  · rintro ⟨c, e, hc, he, rfl⟩
    exact parse_cut hx (parseCoeff_eq_ok_iff.mpr hc) (parsePower_eq_ok_iff.mpr he)

theorem parse_eq_ok_iff_of_not_mem {cs : List Char} (hx : 'x' ∉ cs) {t : Term} :
    parse cs = .ok t ↔ ∃ a, Scalar.parse cs = .ok a ∧ t = const a := by
  constructor
  · intro h
    have hne : cs ≠ [] := by
      rintro rfl
      cases h
    rw [parse_of_not_mem hne hx] at h
    obtain ⟨a, ha, h⟩ := bind_eq_ok h
    exact ⟨a, mapError_eq_ok_iff.mp ha, (Except.ok.inj h).symm⟩
  · rintro ⟨a, ha, rfl⟩
    exact parse_of_scalar ha

theorem parse_eq_ok_iff {cs : List Char} {t : Term} :
    parse cs = .ok t ↔
      (∃ a, Scalar.parse cs = .ok a ∧ t = const a) ∨
      ∃ coeff power c e, cs = coeff ++ 'x' :: power ∧ 'x' ∉ coeff ∧ CoeffText coeff c ∧ PowerText power e ∧
        t = monomial c e := by
  constructor
  · intro h
    rcases not_mem_or_cut 'x' cs with hx | ⟨coeff, power, rfl, hx⟩
    · exact .inl ((parse_eq_ok_iff_of_not_mem hx).mp h)
    · obtain ⟨c, e, hc, he, ht⟩ := (parse_append_cons_eq_ok_iff hx).mp h
      exact .inr ⟨coeff, power, c, e, rfl, hx, hc, he, ht⟩
  · rintro (⟨a, ha, rfl⟩ | ⟨coeff, power, c, e, rfl, hx, hc, he, ht⟩)
    · exact parse_of_scalar ha
    · exact (parse_append_cons_eq_ok_iff hx).mpr ⟨c, e, hc, he, ht⟩

end Term

end ExactPoly
