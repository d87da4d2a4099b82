import ExactPoly.Proofs.Term
import ExactPoly.TermList

/-!
# Canonical lists of terms

A list of terms is canonical when its exponents descend strictly and no coefficient is zero. A NaN term has exponent zero,
so a canonical list holds at most one, at its end.

* `Descends many l` : the same, but several NaN terms may stand at the end if `many` holds; canonical lists are the case
  without them;
* `merge_cons_of_lt`, `merge_cons_of_gt`, `merge_cons_of_eq` : the three cases of `merge`, with sums written out;
* `any_isNaN_merge`, `any_isNaN_insertAll`, `any_isNaN_scale_iff`, `any_isNaN_shift` : when a list holds a NaN term after an
  operation;
* `Descends.insert`, `Descends.scale`, `Descends.shift` and `Canonical.insert`, ... : the operations keep this order, where
  scaling by NaN needs `many`;
* `insertAll_nil` : inserting the terms of a canonical list builds the list;
* `shift_natCast` : a shift upwards moves every term or overflows.
-/

namespace ExactPoly.TermList

/-- Strictly descending exponents and no zero coefficient. -/
structure Canonical (l : List Term) : Prop where
  ne_zero : ∀ t ∈ l, t.coeff ≠ 0
  descending : l.Pairwise fun s t => t.expt < s.expt

theorem Canonical.nil : Canonical [] := ⟨by simp, .nil⟩

theorem canonical_cons {s : Term} {l : List Term} :
    Canonical (s :: l) ↔ s.coeff ≠ 0 ∧ (∀ t ∈ l, t.expt < s.expt) ∧ Canonical l := by
  constructor
  · intro h
    have hd := List.pairwise_cons.mp h.descending
    exact ⟨h.ne_zero s (by simp), hd.1, fun t ht => h.ne_zero t (by simp [ht]), hd.2⟩
  · rintro ⟨hs, hlt, hl⟩
    refine ⟨fun t ht => ?_, List.pairwise_cons.mpr ⟨hlt, hl.descending⟩⟩
    rcases List.mem_cons.mp ht with rfl | ht
    · exact hs
    · exact hl.ne_zero t ht

theorem Canonical.singleton {t : Term} (ht : t.coeff ≠ 0) : Canonical [t] :=
  canonical_cons.mpr ⟨ht, by simp, .nil⟩

theorem nodup_expt {l : List Term} (hl : l.Pairwise fun s t => t.expt < s.expt) : (l.map Term.expt).Nodup :=
  List.pairwise_map.mpr (hl.imp fun h => h.ne')

/-- A canonical list is no longer than the range of its exponents. -/
theorem Canonical.length_le {l : List Term} (hl : Canonical l) {n : Nat} (h : ∀ t ∈ l, t.expt < n) : l.length ≤ n := by
  have hsub : l.map Term.expt ⊆ List.range n := by
    intro e he
    obtain ⟨t, ht, rfl⟩ := List.mem_map.mp he
    exact List.mem_range.mpr (h t ht)
  have hlen := ((nodup_expt hl.descending).subperm hsub).length_le
  rwa [List.length_map, List.length_range] at hlen

/-- A canonical list is determined by its terms. -/
theorem Canonical.eq_of_mem_iff {l l' : List Term} (hl : Canonical l) (hl' : Canonical l') (h : ∀ t, t ∈ l ↔ t ∈ l') :
    l = l' := by
  have hnodup : ∀ {m : List Term}, Canonical m → m.Nodup := fun hm => hm.descending.imp fun hlt he => by
    rw [he] at hlt
    exact lt_irrefl _ hlt
  have hperm : l.Perm l' := (List.perm_ext_iff_of_nodup (hnodup hl) (hnodup hl')).mpr h
  exact hperm.eq_of_pairwise (fun s t _ _ h1 h2 => absurd h1 (by omega)) hl.descending hl'.descending

/-- No zero coefficient, and every exponent below those before it, except that NaN may follow NaN if `many` holds. -/
structure Descends (many : Prop) (l : List Term) : Prop where
  ne_zero : ∀ t ∈ l, t.coeff ≠ 0
  descending : l.Pairwise fun s t => t.expt < s.expt ∨ many ∧ s = .nan ∧ t = .nan

theorem Canonical.descends {l : List Term} (hl : Canonical l) (many : Prop) : Descends many l :=
  ⟨hl.ne_zero, hl.descending.imp Or.inl⟩

theorem Descends.canonical {l : List Term} (hl : Descends False l) : Canonical l :=
  ⟨hl.ne_zero, hl.descending.imp fun h => h.resolve_right And.left⟩

theorem descends_cons {many : Prop} {s : Term} {l : List Term} :
    Descends many (s :: l) ↔
      s.coeff ≠ 0 ∧ (∀ t ∈ l, t.expt < s.expt ∨ many ∧ s = .nan ∧ t = .nan) ∧ Descends many l := by
  constructor
  · intro h
    have hd := List.pairwise_cons.mp h.descending
    exact ⟨h.ne_zero s (by simp), hd.1, fun t ht => h.ne_zero t (by simp [ht]), hd.2⟩
  · rintro ⟨hs, hlt, hl⟩
    refine ⟨fun t ht => ?_, List.pairwise_cons.mpr ⟨hlt, hl.descending⟩⟩
    rcases List.mem_cons.mp ht with rfl | ht
    · exact hs
    · exact hl.ne_zero t ht

/-- A map that keeps the order of the exponents, makes no zero and leaves NaN terms alone keeps a list in order. -/
theorem Descends.map {many : Prop} {f : Term → Term} {l : List Term} (hl : Descends many l)
    (h0 : ∀ t ∈ l, (f t).coeff ≠ 0) (hlt : ∀ s ∈ l, ∀ t ∈ l, t.expt < s.expt → (f t).expt < (f s).expt)
    (hnan : many → f .nan = .nan) : Descends many (l.map f) := by
  refine ⟨fun u hu => ?_, List.pairwise_map.mpr (hl.descending.imp_of_mem fun hs ht h => ?_)⟩
  · obtain ⟨t, ht, rfl⟩ := List.mem_map.mp hu
    exact h0 t ht
  · rcases h with h | ⟨hm, rfl, rfl⟩
    · exact .inl (hlt _ hs _ ht h)
    · exact .inr ⟨hm, hnan hm, hnan hm⟩

theorem Canonical.map {f : Term → Term} {l : List Term} (hl : Canonical l) (h0 : ∀ t ∈ l, (f t).coeff ≠ 0)
    (hlt : ∀ s ∈ l, ∀ t ∈ l, t.expt < s.expt → (f t).expt < (f s).expt) : Canonical (l.map f) :=
  ((hl.descends False).map h0 hlt False.elim).canonical

theorem any_isNaN_eq_false_iff {l : List Term} : l.any Term.isNaN = false ↔ ∀ t ∈ l, t.coeff ≠ .nan := by
  rw [List.any_eq_false]
  exact forall₂_congr fun t _ => not_congr Term.isNaN_iff

theorem coeff_ne_nan {l : List Term} (hn : l.any Term.isNaN = false) {t : Term} (ht : t ∈ l) : t.coeff ≠ .nan :=
  any_isNaN_eq_false_iff.mp hn t ht

/-! ## Insertion -/

theorem merge_cons_of_lt {s t : Term} (l : List Term) (h : t.expt < s.expt) : merge t (s :: l) = s :: merge t l := by
  rw [merge, if_pos h]

theorem merge_cons_of_gt {s t : Term} (l : List Term) (h : s.expt < t.expt) : merge t (s :: l) = t :: s :: l := by
  rw [merge, if_neg (by omega), if_pos h]

theorem merge_cons_of_eq {s t : Term} (l : List Term) (h : s.expt = t.expt) :
    merge t (s :: l) =
      if s.coeff + t.coeff = 0 then l else Term.monomial (s.coeff + t.coeff) s.expt :: l := by
  rw [merge, if_neg (by omega), if_neg (by omega), Term.add?_eq_monomial h]
  simp only [Option.getD_some, Term.isZero_iff, Term.coeff_monomial]

/-- The exponents after an insertion are those before it and that of the term. -/
theorem expt_mem_merge {t u : Term} {l : List Term} (hu : u ∈ merge t l) :
    u.expt = t.expt ∨ ∃ s ∈ l, u.expt = s.expt := by
  induction l with
  | nil => exact .inl (by rw [List.mem_singleton.mp hu])
  | cons s l ih =>
    rcases lt_trichotomy t.expt s.expt with h | h | h
    · rw [merge_cons_of_lt l h, List.mem_cons] at hu
      rcases hu with rfl | hu
      · exact .inr ⟨u, by simp, rfl⟩
      · rcases ih hu with h' | ⟨r, hr, h'⟩
        · exact .inl h'
        · exact .inr ⟨r, by simp [hr], h'⟩
    · rw [merge_cons_of_eq l h.symm] at hu
      split at hu
      · exact .inr ⟨u, by simp [hu], rfl⟩
      · next h0 =>
        rcases List.mem_cons.mp hu with rfl | hu
        · exact .inr ⟨s, by simp, Term.expt_monomial_add h.symm h0⟩
        · exact .inr ⟨u, by simp [hu], rfl⟩
    · rw [merge_cons_of_gt l h, List.mem_cons] at hu
      rcases hu with rfl | hu
      · exact .inl rfl
      · exact .inr ⟨u, hu, rfl⟩

section Insertion
variable {many : Prop}

/-- A term in the list with a larger exponent than another term is not NaN, so only smaller terms follow it. -/
theorem Descends.merge {t : Term} {l : List Term} (hl : Descends many l) (ht : t.coeff ≠ 0) :
    Descends many (merge t l) := by
  induction l with
  | nil => exact (Canonical.singleton ht).descends many
  | cons s l ih =>
    obtain ⟨hs, hlt, hl'⟩ := descends_cons.mp hl
    rcases lt_trichotomy t.expt s.expt with h | h | h
    · rw [merge_cons_of_lt l h]
      refine descends_cons.mpr ⟨hs, fun u hu => .inl ?_, ih hl'⟩
      rcases expt_mem_merge hu with hu | ⟨r, hr, hu⟩
      · omega
      · rcases hlt r hr with hr | ⟨-, rfl, -⟩
        · exact hu ▸ hr
        · exact absurd h (Nat.not_lt_zero _)
    · rw [merge_cons_of_eq l h.symm]
      split
      · exact hl'
      · next h0 =>
        refine descends_cons.mpr ⟨?_, fun u hu => ?_, hl'⟩
        · rwa [Term.coeff_monomial]
        · rw [Term.expt_monomial_add h.symm h0]
          refine (hlt u hu).imp_right fun ⟨hm, hsn, hun⟩ => ⟨hm, Term.eq_nan ?_, hun⟩
          rw [Term.coeff_monomial, hsn]
          exact Scalar.nan_add _
    · rw [merge_cons_of_gt l h]
      refine descends_cons.mpr ⟨ht, fun u hu => .inl ?_, hl⟩
      rcases List.mem_cons.mp hu with rfl | hu
      · exact h
      · rcases hlt u hu with hu | ⟨-, rfl, rfl⟩
        · exact hu.trans h
        · exact h

theorem Descends.insert {l : List Term} (hl : Descends many l) (t : Term) : Descends many (insert t l) := by
  unfold TermList.insert
  split
  · exact hl
  · next h => exact hl.merge (by simpa using h)

theorem Descends.insertAll {l : List Term} (hl : Descends many l) (ts : List Term) : Descends many (insertAll l ts) := by
  induction ts generalizing l with
  | nil => exact hl
  | cons t ts ih => exact ih (hl.insert t)

end Insertion

theorem Canonical.insert {l : List Term} (hl : Canonical l) (t : Term) : Canonical (insert t l) :=
  ((hl.descends False).insert t).canonical

theorem Canonical.insertAll {l : List Term} (hl : Canonical l) (ts : List Term) : Canonical (insertAll l ts) :=
  ((hl.descends False).insertAll ts).canonical

theorem any_isNaN_merge (t : Term) (l : List Term) :
    (merge t l).any Term.isNaN = (t.isNaN || l.any Term.isNaN) := by
  induction l with
  | nil => simp [merge]
  | cons s l ih =>
    rcases lt_trichotomy t.expt s.expt with h | h | h
    · rw [merge_cons_of_lt l h, List.any_cons, ih, List.any_cons, Bool.or_left_comm]
    · rw [merge_cons_of_eq l h.symm, List.any_cons, ← Bool.or_assoc]
      have hsum : (t.isNaN || s.isNaN) = true ↔ s.coeff + t.coeff = .nan := by
        rw [Scalar.add_eq_nan_iff, Bool.or_eq_true, Term.isNaN_iff, Term.isNaN_iff, or_comm]
      split
      · next h0 =>
        have : (t.isNaN || s.isNaN) = false := by
          rw [Bool.eq_false_iff, ne_eq, hsum, h0]
          exact fun h => Scalar.nan_ne_zero h.symm
        rw [this, Bool.false_or]
      · rw [List.any_cons]
        congr 1
        rw [Bool.eq_iff_iff, hsum, Term.isNaN_iff, Term.coeff_monomial]
    · rw [merge_cons_of_gt l h, List.any_cons]

theorem any_isNaN_insert (t : Term) (l : List Term) :
    (insert t l).any Term.isNaN = (t.isNaN || l.any Term.isNaN) := by
  unfold insert
  split
  · next h =>
    have : t.isNaN = false := by
      rw [Term.isNaN_eq_false_iff, Term.isZero_iff.mp h]
      exact Scalar.nan_ne_zero.symm
    rw [this, Bool.false_or]
  · exact any_isNaN_merge t l

theorem any_isNaN_insertAll (l ts : List Term) :
    (insertAll l ts).any Term.isNaN = (l.any Term.isNaN || ts.any Term.isNaN) := by
  induction ts generalizing l with
  | nil => simp [insertAll]
  | cons t ts ih =>
    have h : insertAll l (t :: ts) = insertAll (insert t l) ts := rfl
    rw [h, ih, any_isNaN_insert, List.any_cons, Bool.or_left_comm, Bool.or_assoc]

/-- A term of smaller exponent than all others goes to the end. -/
theorem merge_eq_concat {t : Term} {l : List Term} (h : ∀ s ∈ l, t.expt < s.expt) : merge t l = l ++ [t] := by
  induction l with
  | nil => rfl
  | cons s l ih =>
    rw [merge_cons_of_lt l (h s (by simp)), ih fun u hu => h u (by simp [hu]), List.cons_append]

/-- Inserting the terms of a canonical list one after another builds the list. -/
theorem insertAll_append {l l' : List Term} (h : Canonical (l ++ l')) : insertAll l l' = l ++ l' := by
  induction l' generalizing l with
  | nil => rw [insertAll, List.foldl_nil, List.append_nil]
  | cons t l' ih =>
    have hlt := (List.pairwise_append.mp h.descending).2.2
    have ht : ¬ t.isZero = true := by simpa using h.ne_zero t (by simp)
    have hins : insert t l = l ++ [t] := by
      rw [insert, if_neg ht]
      exact merge_eq_concat fun s hs => hlt s hs t (by simp)
    have hstep : insertAll l (t :: l') = insertAll (l ++ [t]) l' := by rw [← hins]; rfl
    rw [hstep, ih (by simpa using h)]
    simp

theorem insertAll_nil {l : List Term} (h : Canonical l) : insertAll [] l = l := insertAll_append (l := []) h

/-! ## Scaling -/

theorem scale_zero (l : List Term) : scale 0 l = [] := if_pos (by simp)

theorem scale_of_ne_zero {a : Scalar} (ha : a ≠ 0) (l : List Term) : scale a l = l.map (Term.scale a) :=
  if_neg (by simpa using ha)

theorem any_isNaN_scale_iff {a : Scalar} (h0 : a ≠ 0) {l : List Term} :
    (scale a l).any Term.isNaN = true ↔ l.any Term.isNaN = true ∨ a = .nan ∧ l ≠ [] := by
  have hterm : ∀ t : Term, (t.scale a).isNaN = true ↔ t.isNaN = true ∨ a = .nan := fun t => by
    rw [Term.isNaN_iff, Term.coeff_scale, Scalar.mul_eq_nan_iff, Term.isNaN_iff]
  rw [scale_of_ne_zero h0, List.any_map, List.any_eq_true, List.any_eq_true]
  simp only [Function.comp_apply, hterm]
  constructor
  · rintro ⟨t, ht, hn | ha⟩
    · exact .inl ⟨t, ht, hn⟩
    · exact .inr ⟨ha, List.ne_nil_of_mem ht⟩
  · rintro (⟨t, ht, hn⟩ | ⟨ha, hne⟩)
    · exact ⟨t, ht, .inl hn⟩
    · exact ⟨l.head hne, List.head_mem hne, .inr ha⟩

theorem any_isNaN_scale {a : Scalar} (ha : a ≠ .nan) {l : List Term} (hn : l.any Term.isNaN = false) :
    (scale a l).any Term.isNaN = false := by
  by_cases h0 : a = 0
  · rw [h0, scale_zero, List.any_nil]
  · rw [← Bool.not_eq_true, any_isNaN_scale_iff h0, hn]
    simp [ha]

theorem scale_nan (l : List Term) : scale .nan l = List.replicate l.length .nan := by
  rw [scale_of_ne_zero Scalar.nan_ne_zero, List.eq_replicate_iff]
  refine ⟨List.length_map _, fun u hu => ?_⟩
  obtain ⟨t, -, rfl⟩ := List.mem_map.mp hu
  exact Term.eq_nan (by rw [Term.coeff_scale, Scalar.mul_nan])

theorem Descends.scale {many : Prop} {a : Scalar} (ha : a = .nan → many) {l : List Term} (hl : Descends many l) :
    Descends many (scale a l) := by
  by_cases h0 : a = 0
  · rw [h0, scale_zero]
    exact Canonical.nil.descends many
  by_cases hn : a = .nan
  · rw [hn, scale_nan]
    refine ⟨fun t ht => ?_, List.pairwise_replicate.mpr (.inr (.inr ⟨ha hn, rfl, rfl⟩))⟩
    rw [List.eq_of_mem_replicate ht]
    exact Scalar.nan_ne_zero
  · have hnan : many → Term.scale a .nan = .nan := fun _ =>
      Term.eq_nan (by rw [Term.coeff_scale]; exact Scalar.nan_mul a)
    rw [scale_of_ne_zero h0]
    refine hl.map (fun t ht => ?_) (fun s hs t ht h => ?_) hnan
    · rw [Term.coeff_scale]
      exact Scalar.mul_ne_zero (hl.ne_zero t ht) h0
    · have hs' : (s.scale a).expt = s.expt :=
        Term.expt_scale (hl.ne_zero s hs) (Term.coeff_ne_nan_of_pos (by omega)) h0 hn
      have ht' : (t.scale a).expt ≤ t.expt := Term.expt_monomial_le _ _
      omega

theorem Canonical.scale {a : Scalar} (ha : a ≠ .nan) {l : List Term} (hl : Canonical l) : Canonical (scale a l) :=
  ((hl.descends False).scale fun h => absurd h ha).canonical

/-! ## Shifts -/

theorem shift_zero (l : List Term) : shift 0 l = l := if_pos rfl

theorem shift_of_le {d : Int} {l : List Term} (hd : d ≠ 0) (h : ∀ t ∈ l, (t.expt : Int) + d ≤ maxExpt) :
    shift d l =
      insertAll ((l.filter fun t => 0 < (t.expt : Int) + d).map fun t => t.withExpt (t.expt + d).toNat)
        ((l.filter fun t => (t.expt : Int) + d ≤ 0).map (·.withExpt 0)) := by
  have hover : ¬ (l.any fun t => (maxExpt : Int) < t.expt + d) = true := by
    rw [List.any_eq_true]
    rintro ⟨t, ht, hlt⟩
    have h1 := h t ht
    have h2 := of_decide_eq_true hlt
    omega
  rw [shift, if_neg hd, if_neg hover]

theorem shift_of_overflow {d : Int} {l : List Term} (h : ∃ t ∈ l, (maxExpt : Int) < t.expt + d) :
    shift d l = [.nan] := by
  obtain ⟨t, ht, hlt⟩ := h
  have hd : d ≠ 0 := by
    have := t.expt_le
    omega
  rw [shift, if_neg hd, if_pos]
  exact List.any_eq_true.mpr ⟨t, ht, decide_eq_true hlt⟩

/-- A shift that does not overflow keeps the coefficients, and with them the NaN terms. -/
theorem any_isNaN_shift {d : Int} {l : List Term} (h : ∀ t ∈ l, (t.expt : Int) + d ≤ maxExpt) :
    (shift d l).any Term.isNaN = l.any Term.isNaN := by
  by_cases hd : d = 0
  · rw [hd, shift_zero]
  have hhigh : ∀ t ∈ l, (t.withExpt (t.expt + d).toNat).isNaN = t.isNaN := by
    intro t ht
    have := h t ht
    rw [Term.isNaN, Term.coeff_withExpt, Term.isNaN]
  have hlow : ∀ t : Term, (t.withExpt 0).isNaN = t.isNaN := fun t => by
    rw [Term.isNaN, Term.coeff_withExpt, Term.isNaN]
  rw [shift_of_le hd h, any_isNaN_insertAll, List.any_map, List.any_map, List.any_filter, List.any_filter,
    Bool.eq_iff_iff, Bool.or_eq_true, List.any_eq_true, List.any_eq_true, List.any_eq_true, ← exists_or]
  refine exists_congr fun t => ?_
  rw [← and_or_left]
  refine and_congr_right fun ht => ?_
  rw [Function.comp_apply, Function.comp_apply, hhigh t ht, hlow]
  by_cases hpos : 0 < (t.expt : Int) + d
  · simp [hpos]
  · simp [hpos, not_lt.mp hpos]

theorem Descends.shift {many : Prop} {l : List Term} (hl : Descends many l) (d : Int) : Descends many (shift d l) := by
  by_cases hd : d = 0
  · rwa [hd, shift_zero]
  by_cases h : ∃ t ∈ l, (maxExpt : Int) < t.expt + d
  · rw [shift_of_overflow h]
    exact (Canonical.singleton Scalar.nan_ne_zero).descends many
  have hle : ∀ t ∈ l, (t.expt : Int) + d ≤ maxExpt := fun t ht => not_lt.mp fun hlt => h ⟨t, ht, hlt⟩
  have hfilter : Descends many (l.filter fun t => 0 < (t.expt : Int) + d) :=
    ⟨fun t ht => hl.ne_zero t (List.mem_of_mem_filter ht), hl.descending.filter _⟩
  have hmem : ∀ {t : Term}, t ∈ (l.filter fun t => 0 < (t.expt : Int) + d) → t ∈ l ∧ 0 < (t.expt : Int) + d := by
    intro t ht
    simpa using ht
  rw [shift_of_le hd hle]
  refine (hfilter.map (fun t ht => ?_) (fun s hs t _ hlt => ?_) fun _ => Term.withExpt_nan _).insertAll _
  · have := hle t (hmem ht).1
    rw [Term.coeff_withExpt]
    exact hl.ne_zero t (hmem ht).1
  · obtain ⟨hsl, hpos⟩ := hmem hs
    have hsle := hle s hsl
    have hs' : (s.withExpt (s.expt + d).toNat).expt = (s.expt + d).toNat :=
      Term.expt_withExpt (hl.ne_zero s hsl) (Term.coeff_ne_nan_of_pos (by omega)) (by omega)
    have ht' : (t.withExpt (t.expt + d).toNat).expt ≤ (t.expt + d).toNat := Term.expt_monomial_le _ _
    omega

theorem Canonical.shift {l : List Term} (hl : Canonical l) (d : Int) : Canonical (shift d l) :=
  ((hl.descends False).shift d).canonical

/-- A shift upwards moves every term. -/
theorem shift_natCast {d : Nat} {l : List Term} (h : ∀ t ∈ l, t.expt + d ≤ maxExpt) :
    shift d l = l.map fun t => t.withExpt (t.expt + d) := by
  rcases Nat.eq_zero_or_pos d with rfl | hd
  · have hid : ∀ t ∈ l, t.withExpt (t.expt + 0) = t := fun t _ => t.monomial_eta
    rw [List.map_congr_left hid, List.map_id', Nat.cast_zero, shift_zero]
  · have hhigh : l.filter (fun t => 0 < (t.expt : Int) + d) = l :=
      List.filter_eq_self.mpr fun t _ => decide_eq_true (by omega)
    have hlow : l.filter (fun t => (t.expt : Int) + d ≤ 0) = [] :=
      List.filter_eq_nil_iff.mpr fun t _ h => by
        have := of_decide_eq_true h
        omega
    rw [shift_of_le (by omega) (mod_cast h), hhigh, hlow]
    exact List.map_congr_left fun t _ => by rw [← Nat.cast_add, Int.toNat_natCast]

end ExactPoly.TermList
