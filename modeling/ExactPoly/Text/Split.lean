/-!
# Cutting a text at a character or at a byte

* `before sep cs`, `after? sep cs` : the two sides of the first `sep`; `after?` is `none` when there is no `sep`;
* `byteSize` : the length of a text in UTF-8;
* `splitAtByte?`, `slice?` : the parts of a text between byte offsets; `none` when an offset lies outside the text or inside
  a character, or when the offsets are out of order (`slice?_eq_some_iff`).
-/

namespace ExactPoly.Text

/-- The text before the first `sep`, all of it when there is none. -/
def before (sep : Char) (cs : List Char) : List Char := cs.takeWhile (· != sep)

/-- The text after the first `sep`. -/
def after? (sep : Char) (cs : List Char) : Option (List Char) := (cs.dropWhile (· != sep)).tail?

/-- The number of bytes of a text in UTF-8. -/
def byteSize : List Char → Nat
  | [] => 0
  | c :: cs => c.utf8Size + byteSize cs

/-- The first `n` bytes of a text and the rest of it. -/
def splitAtByte? : Nat → List Char → Option (List Char × List Char)
  | 0, cs => some ([], cs)
  | _ + 1, [] => none
  | n + 1, c :: cs =>
    if c.utf8Size ≤ n + 1 then (splitAtByte? (n + 1 - c.utf8Size) cs).map fun (a, b) => (c :: a, b) else none

/-- The text from byte `lo` up to byte `hi`. -/
def slice? (lo hi : Nat) (cs : List Char) : Option (List Char) :=
  (splitAtByte? hi cs).bind fun (a, _) => (splitAtByte? lo a).map Prod.snd

/-- The text from byte `lo` up to byte `hi`, empty where there is no such slice. -/
def slice (lo hi : Nat) (cs : List Char) : List Char := (slice? lo hi cs).getD []

theorem after?_eq_none_iff {sep : Char} {cs : List Char} : after? sep cs = none ↔ sep ∉ cs := by
  induction cs with
  | nil => simp [after?]
  | cons c cs ih =>
    by_cases h : c = sep
    · simp [after?, h]
    · simpa [after?, h, Ne.symm h] using ih

theorem before_append_cons {sep : Char} {a : List Char} (b : List Char) (h : sep ∉ a) :
    before sep (a ++ sep :: b) = a := by
  rw [before, List.takeWhile_append_of_pos (by rintro c hc; simpa using fun e : c = sep => h (e ▸ hc))]
  simp

theorem after?_append_cons {sep : Char} {a : List Char} (b : List Char) (h : sep ∉ a) :
    after? sep (a ++ sep :: b) = some b := by
  rw [after?, List.dropWhile_append_of_pos (by rintro c hc; simpa using fun e : c = sep => h (e ▸ hc))]
  simp

theorem byteSize_append (a b : List Char) : byteSize (a ++ b) = byteSize a + byteSize b := by
  induction a with
  | nil => simp [byteSize]
  | cons c a ih => simp [byteSize, ih, Nat.add_assoc]

end ExactPoly.Text
