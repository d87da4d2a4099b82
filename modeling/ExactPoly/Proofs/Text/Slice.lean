import ExactPoly.Text.Split

/-!
# Byte offsets

* `splitAtByte?_eq_some_iff`, `slice?_eq_some_iff` : a slice exists exactly between two offsets that cut the text into
  characters, and is what stands between them;
* `byteSize_toList` : the byte length of a string.
-/

namespace ExactPoly.Text

theorem byteSize_cons (c : Char) (cs : List Char) : byteSize (c :: cs) = c.utf8Size + byteSize cs := rfl

theorem byteSize_pos {cs : List Char} (h : cs ≠ []) : 0 < byteSize cs := by
  cases cs with
  | nil => exact absurd rfl h
  | cons c cs =>
    have := c.utf8Size_pos
    rw [byteSize_cons]
    omega

theorem splitAtByte?_append (a b : List Char) : splitAtByte? (byteSize a) (a ++ b) = some (a, b) := by
  induction a with
  | nil => rw [byteSize, splitAtByte?, List.nil_append]
  | cons c a ih =>
    have hpos := c.utf8Size_pos
    obtain ⟨n, hn⟩ : ∃ n, byteSize (c :: a) = n + 1 := ⟨byteSize (c :: a) - 1, by rw [byteSize_cons]; omega⟩
    rw [hn, List.cons_append, splitAtByte?, ← hn, byteSize_cons, if_pos (Nat.le_add_right _ _), Nat.add_sub_cancel_left, ih]
    rfl

theorem splitAtByte?_eq_some_iff {n : Nat} {cs a b : List Char} :
    splitAtByte? n cs = some (a, b) ↔ cs = a ++ b ∧ byteSize a = n := by
  constructor
  · intro h
    induction n, cs using splitAtByte?.induct generalizing a b with
    | case1 cs =>
      rw [splitAtByte?] at h
      cases h
      exact ⟨rfl, rfl⟩
    | case2 n =>
      rw [splitAtByte?] at h
      cases h
    | case3 n c cs hle ih =>
      rw [splitAtByte?, if_pos hle, Option.map_eq_some_iff] at h
      obtain ⟨⟨a', b'⟩, hab, he⟩ := h
      cases he
      obtain ⟨rfl, hsize⟩ := ih hab
      refine ⟨rfl, ?_⟩
      rw [byteSize_cons]
      omega
    | case4 n c cs hle =>
      rw [splitAtByte?, if_neg hle] at h
      cases h
  · rintro ⟨rfl, rfl⟩
    exact splitAtByte?_append a b

theorem slice?_eq_some_iff {lo hi : Nat} {cs m : List Char} :
    slice? lo hi cs = some m ↔ ∃ a b, cs = a ++ m ++ b ∧ byteSize a = lo ∧ byteSize (a ++ m) = hi := by
  unfold slice?
  rw [Option.bind_eq_some_iff]
  constructor
  · rintro ⟨⟨am, b⟩, hsplit, h⟩
    obtain ⟨⟨a, m'⟩, ha, rfl⟩ := Option.map_eq_some_iff.mp h
    obtain ⟨rfl, hhi⟩ := splitAtByte?_eq_some_iff.mp hsplit
    obtain ⟨rfl, hlo⟩ := splitAtByte?_eq_some_iff.mp ha
    exact ⟨a, b, rfl, hlo, hhi⟩
  · rintro ⟨a, b, rfl, rfl, rfl⟩
    refine ⟨(a ++ m, b), splitAtByte?_append _ _, ?_⟩
    show (splitAtByte? (byteSize a) (a ++ m)).map Prod.snd = some m
    rw [splitAtByte?_append, Option.map_some]

theorem slice_append (a m b : List Char) : slice (byteSize a) (byteSize (a ++ m)) (a ++ m ++ b) = m := by
  rw [slice, slice?_eq_some_iff.mpr ⟨a, b, rfl, rfl, rfl⟩, Option.getD_some]

theorem byteSize_toList (s : String) : byteSize s.toList = s.utf8ByteSize := by
  have h : ∀ cs : List Char, byteSize cs = (String.ofList cs).utf8ByteSize := by
    intro cs
    induction cs with
    | nil => rfl
    | cons c cs ih =>
      rw [String.ofList_cons, String.utf8ByteSize_append, String.utf8ByteSize_singleton, byteSize_cons, ih]
  rw [h, String.ofList_toList]

end ExactPoly.Text
