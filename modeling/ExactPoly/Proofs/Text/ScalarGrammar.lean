import ExactPoly.Proofs.Text.Accepted

/-!
# What is a scalar, and what is wrong with a text that is none

The text of a scalar is judged from left to right: the numerator is all that stands before the first slash, the denominator all
that follows it, and other slashes belong to the denominator.

* `SignedNumeral`, `readInt?_eq_some_iff` : digits after at most one minus sign;
* `Literal`, `parse_eq_ok_iff_literal` : the texts of scalars and their values;
* `parse_of_bad_numerator`, `parse_of_bad_denominator` : the two ways a text fails that is not empty;
* `ofString_scalar_grammar` : the result for every text.
-/

namespace ExactPoly

namespace Text

/-- Digits after at most one minus sign, and the number they mean. -/
inductive SignedNumeral : List Char → Int → Prop
  | plain {cs : List Char} {n : Nat} (h : Numeral cs n) : SignedNumeral cs n
  | minus {cs : List Char} {n : Nat} (h : Numeral cs n) : SignedNumeral ('-' :: cs) (-n)

theorem readInt?_eq_some_iff {cs : List Char} {n : Int} : readInt? cs = some n ↔ SignedNumeral cs n := by
  constructor
  · intro h
    obtain ⟨ds, m, hm, ⟨rfl, rfl⟩ | ⟨rfl, rfl⟩⟩ := readInt?_eq_some h
    · exact .plain (readNat?_eq_some_iff.mp hm)
    · exact .minus (readNat?_eq_some_iff.mp hm)
  · intro h
    cases h with
    | plain h => exact readInt?_of_readNat? (readNat?_eq_some_iff.mpr h)
    | minus h => exact readInt?_minus (readNat?_eq_some_iff.mpr h)

theorem readInt?_eq_none_iff {cs : List Char} : readInt? cs = none ↔ ¬ ∃ n, SignedNumeral cs n := by
  simp only [← readInt?_eq_some_iff, Option.eq_none_iff_forall_ne_some, not_exists, ne_eq]

theorem SignedNumeral.slash_not_mem {cs : List Char} {n : Int} (h : SignedNumeral cs n) : '/' ∉ cs := by
  have hdigits : ∀ {ds : List Char} {m : Nat}, Numeral ds m → '/' ∉ ds := fun hm hc =>
    absurd ((readNat?_eq_some (readNat?_eq_some_iff.mpr hm)).2 _ hc) (by decide)
  cases h with
  | plain h => exact hdigits h
  | minus h => simp [hdigits h]

end Text

namespace Scalar

open Text

/-- The texts of scalars and their values, which are exact quotients. -/
inductive Literal : List Char → Scalar → Prop
  | nan : Literal ['N', 'a', 'N'] nan
  | whole {ns : List Char} {n : Int} (hn : SignedNumeral ns n) : Literal ns (ofRat n)
  | quotient {ns ds : List Char} {n : Int} {d : Nat} (hn : SignedNumeral ns n) (hd : Numeral ds d) (h0 : d ≠ 0) :
      Literal (ns ++ '/' :: ds) (ofRat (n / d))
  | overZero {ns ds : List Char} {n : Int} (hn : SignedNumeral ns n) (hd : Numeral ds 0) : Literal (ns ++ '/' :: ds) nan

theorem fraction_eq_quotient (n : Int) {d : Nat} (h0 : d ≠ 0) : fraction n d = ofRat (n / d) := by
  rw [fraction_natCast n h0, Rat.mkRat_eq_div]

theorem Literal.fraction {ns ds : List Char} {n : Int} {d : Nat} (hn : SignedNumeral ns n) (hd : Numeral ds d) :
    Literal (ns ++ '/' :: ds) (fraction n d) := by
  by_cases h0 : d = 0
  · subst h0
    exact .overZero hn hd
  · rw [fraction_eq_quotient n h0]
    exact .quotient hn hd h0

/-- A magnitude has no sign, so a minus sign before it is that of its numerator. -/
theorem Magnitude.literal {cs : List Char} {a : Scalar} (h : Magnitude cs a) : Literal cs a ∧ Literal ('-' :: cs) (-a) := by
  cases h with
  | whole hn =>
    have hnum := readNat?_eq_some_iff.mp hn
    rw [neg_ofInt]
    exact ⟨.whole (.plain hnum), .whole (.minus hnum)⟩
  | quotient hn hd =>
    have hnum := readNat?_eq_some_iff.mp hn
    have hden := readNat?_eq_some_iff.mp hd
    rw [neg_fraction, ← List.cons_append]
    exact ⟨.fraction (.plain hnum) hden, .fraction (.minus hnum) hden⟩

/-- A text with a slash is neither empty nor the text of NaN. -/
theorem parse_append_slash (ns ds : List Char) : parse (ns ++ '/' :: ds) = parseFraction (ns ++ '/' :: ds) := by
  have hnan : ns ++ '/' :: ds ≠ ['N', 'a', 'N'] := by
    intro h
    have hmem : '/' ∈ ns ++ '/' :: ds := by simp
    rw [h] at hmem
    exact absurd hmem (by decide)
  rw [parse, if_neg (by simp), if_neg hnan]

section Signed
variable {ns : List Char} {n : Int} (hn : SignedNumeral ns n)
include hn

theorem parse_of_signed : parse ns = .ok (ofRat n) := by
  cases hn with
  | plain h => exact parse_eq_ok_iff.mpr (.inr (.inl (.whole (readNat?_eq_some_iff.mpr h))))
  | minus h => exact parse_eq_ok_iff.mpr (.inr (.inr ⟨_, _, rfl, .whole (readNat?_eq_some_iff.mpr h), (neg_ofInt _).symm⟩))

theorem parse_signed_append_slash {ds : List Char} {d : Nat} (hd : Numeral ds d) :
    parse (ns ++ '/' :: ds) = .ok (fraction n d) := by
  rw [parse_append_slash]
  exact parseFraction_quotient (readInt?_eq_some_iff.mpr hn) hn.slash_not_mem (readNat?_eq_some_iff.mpr hd)

theorem parse_of_bad_denominator {ds : List Char} (hbad : ¬ ∃ d, Numeral ds d) :
    parse (ns ++ '/' :: ds) = .error (.denominator (.ofList ds)) := by
  have hslash := hn.slash_not_mem
  rw [parse_append_slash, parseFraction, before_append_cons ds hslash, after?_append_cons ds hslash,
    readInt?_eq_some_iff.mpr hn]
  simp only [readNat?_eq_none_iff.mpr hbad]

end Signed

theorem parse_of_bad_numerator {cs ns : List Char} (hne : cs ≠ []) (hnan : cs ≠ ['N', 'a', 'N'])
    (hcut : cs = ns ∨ ∃ ds, cs = ns ++ '/' :: ds) (hslash : '/' ∉ ns) (hbad : ¬ ∃ n, SignedNumeral ns n) :
    parse cs = .error (.numerator (.ofList ns)) := by
  have hbefore : before '/' cs = ns := by
    rcases hcut with rfl | ⟨ds, rfl⟩
    · exact before_of_not_mem hslash
    · exact before_append_cons ds hslash
  rw [parse, if_neg hne, if_neg hnan, parseFraction, hbefore, readInt?_eq_none_iff.mpr hbad]

theorem parse_eq_ok_iff_literal {cs : List Char} {a : Scalar} : parse cs = .ok a ↔ Literal cs a := by
  constructor
  · intro h
    rcases parse_eq_ok_iff.mp h with ⟨rfl, rfl⟩ | hm | ⟨ds, b, rfl, hm, rfl⟩
    · exact .nan
    · exact hm.literal.1
    · exact hm.literal.2
  · intro h
    cases h with
    | nan => rfl
    | whole hn => exact parse_of_signed hn
    | quotient hn hd h0 => rw [parse_signed_append_slash hn hd, fraction_eq_quotient _ h0]
    | overZero hn hd => exact parse_signed_append_slash hn hd

theorem ofString_scalar_grammar (s : String) :
    (∀ a, ofString s = .ok a ↔ Literal s.toList a) ∧
    (s = "" → ofString s = .error .empty) ∧
    (s ≠ "" → s ≠ "NaN" → ∀ ns : List Char, (s.toList = ns ∨ ∃ ds, s.toList = ns ++ '/' :: ds) → '/' ∉ ns →
      (¬ ∃ n, SignedNumeral ns n) → ofString s = .error (.numerator (.ofList ns))) ∧
    ∀ ns ds : List Char, s.toList = ns ++ '/' :: ds → (∃ n, SignedNumeral ns n) → (¬ ∃ d, Numeral ds d) →
      ofString s = .error (.denominator (.ofList ds)) := by
  refine ⟨fun a => parse_eq_ok_iff_literal, ?_, fun hne hnan ns hcut hslash hbad => ?_, fun ns ds hs hn hbad => ?_⟩
  · rintro rfl
    rfl
  · have hnan' : s.toList ≠ "NaN".toList := fun h => hnan (String.toList_injective h)
    exact parse_of_bad_numerator (fun h => hne (String.toList_eq_nil_iff.mp h)) hnan' hcut hslash hbad
  · obtain ⟨n, hn⟩ := hn
    rw [ofString, hs]
    exact parse_of_bad_denominator hn hbad

/-- Leading zeros, a zero denominator, two slashes, a sign in the denominator, and what is no number before the slash. -/
theorem ofString_scalar_grammar_each_error :
    ofString "-007/014" = .ok (ofRat (-1 / 2)) ∧ ofString "3/0" = .ok nan ∧
    ofString "1/2/3" = .error (.denominator "2/3") ∧ ofString "1/-2" = .error (.denominator "-2") ∧
    ofString "+1/2" = .error (.numerator "+1") ∧ ofString "NaN/1" = .error (.numerator "NaN") ∧
    ofString "-" = .error (.numerator "-") := by
  have hgrammar := ofString_scalar_grammar
  have hseven : SignedNumeral "-007".toList (-7) := readInt?_eq_some_iff.mp (by decide +kernel)
  have hfourteen : Numeral "014".toList 14 := readNat?_eq_some_iff.mp (by decide +kernel)
  have hone : SignedNumeral ['1'] 1 := readInt?_eq_some_iff.mp (by decide +kernel)
  have hthree : SignedNumeral ['3'] 3 := readInt?_eq_some_iff.mp (by decide +kernel)
  have hzero : Numeral ['0'] 0 := readNat?_eq_some_iff.mp (by decide +kernel)
  have hhalf : ((-7 : Int) / (14 : Nat) : ℚ) = -1 / 2 := by norm_num
  refine ⟨?_, ((hgrammar "3/0").1 nan).mpr (.overZero hthree hzero), ?_, ?_, ?_, ?_, ?_⟩
  · rw [← hhalf]
    exact ((hgrammar "-007/014").1 _).mpr (.quotient hseven hfourteen (by decide))
  · exact (hgrammar "1/2/3").2.2.2 _ "2/3".toList rfl ⟨1, hone⟩ (readNat?_eq_none_iff.mp (by decide +kernel))
  · exact (hgrammar "1/-2").2.2.2 _ "-2".toList rfl ⟨1, hone⟩ (readNat?_eq_none_iff.mp (by decide +kernel))
  · exact (hgrammar "+1/2").2.2.1 (by decide) (by decide) "+1".toList (.inr ⟨['2'], rfl⟩) (by decide)
      (readInt?_eq_none_iff.mp (by decide +kernel))
  · exact (hgrammar "NaN/1").2.2.1 (by decide) (by decide) "NaN".toList (.inr ⟨['1'], rfl⟩) (by decide)
      (readInt?_eq_none_iff.mp (by decide +kernel))
  · exact (hgrammar "-").2.2.1 (by decide) (by decide) ['-'] (.inl rfl) (by decide)
      (readInt?_eq_none_iff.mp (by decide +kernel))

end Scalar

end ExactPoly
