import Mathlib.Data.List.Forall2
import ExactPoly.Proofs.Poly.Canonical
import ExactPoly.Proofs.Text.Bodies

/-!
# What the parser accepts

* `IsBody`, `mem_bodies_iff` : the bodies of a text are its longest runs without signs;
* `pairwise_bodies` : they are listed from left to right;
* `Body.Reads` : the signed term of a body;
* `Scan.at_step`, `slice?_of_run` : a scan stands at the start of a body, so every slice it takes exists;
* `ofString_grammar` : the result for every text.
-/

namespace ExactPoly.Poly

open Text

/-- The text of `b` is a longest run without signs. -/
structure IsBody (text : List Char) (b : Body) : Prop where
  ne_nil : b.text ≠ []
  not_sign : ∀ c ∈ b.text, isSign c = false
  left : ∀ c ∈ b.before.getLast?, isSign c = true
  right : ∃ after, text = b.before ++ b.text ++ after ∧ ∀ c ∈ after.head?, isSign c = true

/-! ## The bodies of a text -/

/-- A run without signs is determined by where it starts. -/
theorem run_unique {a b x y : List Char} (ha : ∀ c ∈ a, isSign c = false) (hb : ∀ c ∈ b, isSign c = false)
    (hx : ∀ c ∈ x.head?, isSign c = true) (hy : ∀ c ∈ y.head?, isSign c = true) (h : a ++ x = b ++ y) : a = b := by
  have htake : ∀ {l r : List Char}, (∀ c ∈ l, isSign c = false) → (∀ c ∈ r.head?, isSign c = true) →
      (l ++ r).takeWhile (!isSign ·) = l := by
    intro l r hl hr
    rw [List.takeWhile_append_of_pos (by simpa using hl)]
    cases r with
    | nil => simp
    | cons c r => rw [List.takeWhile_cons_of_neg (by simp [hr c rfl]), List.append_nil]
  rw [← htake ha hx, h, htake hb hy]

/-- A body that starts in the run `cur` is this run, or it starts after the sign that ends it. -/
theorem IsBody.eq_or_prefix {before cur cs : List Char} {b : Body} (hb : IsBody (before ++ cur ++ cs) b)
    (hpre : before <+: b.before) (hcur : ∀ c ∈ cur, isSign c = false) (hcs : ∀ c ∈ cs.head?, isSign c = true) :
    b = ⟨before, cur⟩ ∨ ∃ c, cs.head? = some c ∧ before ++ cur ++ [c] <+: b.before := by
  obtain ⟨bb, bt⟩ := b
  obtain ⟨x, rfl⟩ := hpre
  obtain ⟨after, htext, hafter⟩ := hb.right
  have hin : ∀ y, cur = x ++ y → bt ++ after = y ++ cs → (⟨before ++ x, bt⟩ : Body) = ⟨before, cur⟩ := by
    rintro y rfl hy
    obtain rfl : x = [] := by
      by_contra hx
      have hlast : (before ++ x).getLast? = some (x.getLast hx) := by
        rw [List.getLast?_append_of_ne_nil _ hx, List.getLast?_eq_some_getLast hx]
      have hsign := hb.left _ hlast
      rw [hcur _ (List.mem_append_left _ (List.getLast_mem hx))] at hsign
      exact Bool.false_ne_true hsign
    have hbt : bt = y := run_unique hb.not_sign (fun c hc => hcur c hc) hafter hcs hy
    rw [hbt, List.append_nil, List.nil_append]
  have hx : cur ++ cs = x ++ (bt ++ after) := by simpa using htext
  rcases List.append_eq_append_iff.mp hx with ⟨y, rfl, hy⟩ | ⟨y, hxy, hy⟩
  · cases y with
    | nil => exact .inl (hin [] (by simp) hy.symm)
    | cons c y =>
      refine .inr ⟨c, by rw [hy]; rfl, y, by simp⟩
  · exact .inl (hin y hxy hy)

section Window
variable {before cur : List Char} (hbefore : ∀ c ∈ before.getLast?, isSign c = true)
  (hcur : ∀ c ∈ cur, isSign c = false) {b : Body}
include hbefore hcur

theorem isBody_at_end_iff : IsBody (before ++ cur) b ∧ before <+: b.before ↔ cur ≠ [] ∧ b = ⟨before, cur⟩ := by
  constructor
  · rintro ⟨hb, hpre⟩
    rw [← List.append_nil (before ++ cur)] at hb
    rcases hb.eq_or_prefix hpre hcur (by simp) with rfl | ⟨c, hc, -⟩
    · exact ⟨hb.ne_nil, rfl⟩
    · cases hc
  · rintro ⟨hne, rfl⟩
    exact ⟨⟨hne, hcur, hbefore, [], by simp, by simp⟩, List.prefix_rfl⟩

theorem isBody_before_sign_iff {c : Char} (hc : isSign c = true) (cs : List Char) :
    IsBody (before ++ cur ++ c :: cs) b ∧ before <+: b.before ↔
      (cur ≠ [] ∧ b = ⟨before, cur⟩) ∨ (IsBody (before ++ cur ++ c :: cs) b ∧ before ++ cur ++ [c] <+: b.before) := by
  have hhead : ∀ d ∈ (c :: cs).head?, isSign d = true := by simpa using hc
  constructor
  · rintro ⟨hb, hpre⟩
    rcases hb.eq_or_prefix hpre hcur hhead with rfl | ⟨d, hd, hd'⟩
    · exact .inl ⟨hb.ne_nil, rfl⟩
    · cases hd
      exact .inr ⟨hb, hd'⟩
  · rintro (⟨hne, rfl⟩ | ⟨hb, hpre⟩)
    · exact ⟨⟨hne, hcur, hbefore, c :: cs, rfl, hhead⟩, List.prefix_rfl⟩
    · rw [List.append_assoc] at hpre
      exact ⟨hb, (List.prefix_append before (cur ++ [c])).trans hpre⟩

end Window

/-- Induction on the characters that are left, as in `bodiesFrom`. -/
theorem mem_bodiesFrom_iff {before cur cs : List Char} (hbefore : ∀ c ∈ before.getLast?, isSign c = true)
    (hcur : ∀ c ∈ cur, isSign c = false) {b : Body} :
    b ∈ bodiesFrom before cur cs ↔ IsBody (before ++ cur ++ cs) b ∧ before <+: b.before := by
  induction cs generalizing before cur with
  | nil =>
    rw [bodiesFrom, List.append_nil, isBody_at_end_iff hbefore hcur]
    split
    · next h => exact iff_of_false List.not_mem_nil fun hb => hb.1 h
    · next h => rw [List.mem_singleton, and_iff_right h]
  | cons c cs ih =>
    rw [bodiesFrom]
    by_cases hc : isSign c = true
    · have hnil : ∀ d ∈ ([] : List Char), isSign d = false := by simp
      have hlater := ih (getLast?_concat_sign hc (before ++ cur)) hnil
      have htext : before ++ cur ++ [c] ++ [] ++ cs = before ++ cur ++ c :: cs := by simp
      rw [htext] at hlater
      rw [if_pos hc, isBody_before_sign_iff hbefore hcur hc, ← hlater]
      split
      · next h => exact (or_iff_right fun hb => hb.1 h).symm
      · next h => rw [List.mem_cons, and_iff_right h]
    · have htext : before ++ (cur ++ [c]) ++ cs = before ++ cur ++ c :: cs := by simp
      rw [if_neg hc, ih hbefore (concat_not_sign hcur (by simpa using hc)), htext]

theorem mem_bodies_iff {text : List Char} {b : Body} : b ∈ bodies text ↔ IsBody text b := by
  rw [bodies, mem_bodiesFrom_iff (by simp) (by simp)]
  exact and_iff_left (List.nil_prefix)

theorem byteSize_le_of_prefix {a b : List Char} (h : a <+: b) : byteSize a ≤ byteSize b := by
  obtain ⟨c, rfl⟩ := h
  rw [byteSize_append]
  omega

theorem pairwise_bodiesFrom {before cur : List Char} (cs : List Char)
    (hbefore : ∀ c ∈ before.getLast?, isSign c = true) (hcur : ∀ c ∈ cur, isSign c = false) :
    (bodiesFrom before cur cs).Pairwise fun b c => b.position < c.position := by
  induction cs generalizing before cur with
  | nil =>
    rw [bodiesFrom]
    split
    · exact .nil
    · exact List.pairwise_singleton _ _
  | cons c cs ih =>
    rw [bodiesFrom]
    by_cases hc : isSign c = true
    · have hbefore' := getLast?_concat_sign hc (before ++ cur)
      have hnil : ∀ d ∈ ([] : List Char), isSign d = false := by simp
      have hlater := ih hbefore' hnil
      rw [if_pos hc]
      split
      · exact hlater
      · next hne =>
        refine List.pairwise_cons.mpr ⟨fun b hb => ?_, hlater⟩
        have hle := byteSize_le_of_prefix ((mem_bodiesFrom_iff hbefore' hnil).mp hb).2
        rw [byteSize_append, byteSize_append] at hle
        have hpos := byteSize_pos hne
        show byteSize before < byteSize b.before
        omega
    · have hcur' := concat_not_sign hcur (by simpa using hc)
      rw [if_neg hc]
      exact ih hbefore hcur'

theorem pairwise_bodies (text : List Char) : (bodies text).Pairwise fun b c => b.position < c.position :=
  pairwise_bodiesFrom text (by simp) (by simp)

/-! ## The terms of the bodies -/

/-- The body is read as the signed term `t`. -/
def Body.Reads (b : Body) (t : Term) : Prop := ∃ u, Term.parse b.text = .ok u ∧ t = if b.negative then -u else u

theorem Body.toTerm_eq_ok {b : Body} {t : Term} (h : b.toTerm = .ok t) : b.Reads t := by
  unfold Body.toTerm at h
  split at h
  · next u hu => exact ⟨u, hu, (Except.ok.inj h).symm⟩
  · cases h

theorem Body.toTerm_eq_error {b : Body} {x : ParseError} (h : b.toTerm = .error x) :
    ∃ e, Term.parse b.text = .error e ∧ x = .term b.position e := by
  unfold Body.toTerm at h
  split at h
  · cases h
  · next e he => exact ⟨e, he, (Except.error.inj h).symm⟩

theorem mapM_toTerm_eq_ok {bs : List Body} {ts : List Term} (h : bs.mapM Body.toTerm = .ok ts) :
    List.Forall₂ Body.Reads bs ts := by
  induction bs generalizing ts with
  | nil =>
    obtain rfl := Except.ok.inj h
    exact .nil
  | cons b bs ih =>
    rw [List.mapM_cons] at h
    obtain ⟨t, hb, h⟩ := bind_eq_ok h
    obtain ⟨us, hbs, h⟩ := bind_eq_ok h
    obtain rfl := Except.ok.inj h
    exact .cons (Body.toTerm_eq_ok hb) (ih hbs)

/-- The error is that of the first body that is rejected. -/
theorem mapM_toTerm_eq_error {bs : List Body} {x : ParseError} (h : bs.mapM Body.toTerm = .error x) :
    ∃ ds b es e, bs = ds ++ b :: es ∧ (∀ d ∈ ds, ∃ t, Term.parse d.text = .ok t) ∧ Term.parse b.text = .error e ∧
      x = .term b.position e := by
  induction bs with
  | nil => cases h
  | cons b bs ih =>
    rw [List.mapM_cons] at h
    rcases bind_eq_error h with hb | ⟨t, hb, h⟩
    · obtain ⟨e, he, rfl⟩ := Body.toTerm_eq_error hb
      exact ⟨[], b, bs, e, rfl, by simp, he, rfl⟩
    · have hbs := (bind_eq_error h).resolve_right (by rintro ⟨_, -, h⟩; cases h)
      obtain ⟨ds, c, es, e, rfl, hds, hc, rfl⟩ := ih hbs
      obtain ⟨u, hu, -⟩ := Body.toTerm_eq_ok hb
      refine ⟨b :: ds, c, es, e, rfl, fun d hd => ?_, hc, rfl⟩
      rcases List.mem_cons.mp hd with rfl | hd
      · exact ⟨u, hu⟩
      · exact hds d hd

/-! ## The slices of a scan -/

/-- The invariant of a scan: it stands at the start of the run `cur` that it is in. -/
theorem Scan.at_step {text before cur : List Char} {i : Nat} {c : Char} {s s' : Scan} (hs : s.At before)
    (hi : i = byteSize (before ++ cur)) (h : s.step text i c = .ok s') :
    ∃ before' cur', before ++ cur ++ [c] = before' ++ cur' ∧ s'.At before' := by
  rcases Scan.step_eq_ok h with ⟨-, rfl⟩ | ⟨hc, r, -, rfl⟩
  · exact ⟨before, cur ++ [c], List.append_assoc _ _ _, hs⟩
  · refine ⟨before ++ cur ++ [c], [], (List.append_nil _).symm, ?_, ?_⟩
    · rw [byteSize_append, byteSize_cons, utf8Size_of_isSign hc, ← hi]
      rfl
    · rw [List.getLast?_concat]
      rfl

theorem slice?_of_run {text pre post : List Char} (htext : text = pre ++ post) {s : Scan}
    (h : Scan.init.run text 0 pre = .ok s) :
    s.start ≤ byteSize pre ∧ (slice? s.start (byteSize pre) text).isSome = true := by
  have hstep : ∀ pre c (s s' : Scan), (∃ before cur, pre = before ++ cur ∧ s.At before) →
      s.step text (byteSize pre) c = .ok s' → ∃ before cur, pre ++ [c] = before ++ cur ∧ s'.At before := by
    rintro pre c s s' ⟨before, cur, rfl, hs⟩ hstep
    exact Scan.at_step hs rfl hstep
  have hrun : Scan.init.run text (byteSize []) pre = .ok s := h
  obtain ⟨before, cur, heq, hs⟩ := Scan.run_induction hstep ⟨[], [], rfl, Scan.at_init⟩ hrun
  obtain rfl : pre = before ++ cur := heq
  rw [hs.start_eq, htext, slice?_eq_some_iff.mpr ⟨before, post, rfl, rfl, rfl⟩, byteSize_append]
  exact ⟨Nat.le_add_right _ _, rfl⟩

/-! ## The parser -/

theorem parse_of_rejected {text : List Char} (h : ∃ b e, IsBody text b ∧ Term.parse b.text = .error e) :
    ∃ b e, IsBody text b ∧ Term.parse b.text = .error e ∧
      (∀ d, IsBody text d → d.position < b.position → ∃ t, Term.parse d.text = .ok t) ∧
      parse text = .error (.term b.position e) := by
  obtain ⟨a, x, ha, hax⟩ := h
  have hne : text ≠ [] := by
    rintro rfl
    exact absurd (mem_bodies_iff.mpr ha) List.not_mem_nil
  cases hts : (bodies text).mapM Body.toTerm with
  | ok ts =>
    have hall : List.Forall₂ (fun b t => (∃ u, Term.parse b.text = .ok u) ∧ b.Reads t) (bodies text) ts :=
      (mapM_toTerm_eq_ok hts).imp fun b t hb => ⟨⟨hb.choose, hb.choose_spec.1⟩, hb⟩
    obtain ⟨u, hu⟩ := ((List.forall₂_and_left _ _).mp hall).1 a (mem_bodies_iff.mpr ha)
    rw [hax] at hu
    cases hu
  | error y =>
    obtain ⟨ds, b, es, e, hbs, hds, hb, rfl⟩ := mapM_toTerm_eq_error hts
    have hmem : ∀ d, IsBody text d ↔ d ∈ ds ++ b :: es := fun d => by rw [← hbs, mem_bodies_iff]
    have horder := pairwise_bodies text
    rw [hbs] at horder
    refine ⟨b, e, (hmem b).mpr (by simp), hb, fun d hd hlt => ?_, ?_⟩
    · rcases List.mem_append.mp ((hmem d).mp hd) with hd | hd
      · exact hds d hd
      · have hle := List.pairwise_cons.mp (List.pairwise_append.mp horder).2.1
        rcases List.mem_cons.mp hd with rfl | hd
        · omega
        · have := hle.1 d hd
          omega
    · rw [parse_eq hne, hts]
      rfl

theorem parse_of_accepted {text : List Char} (hne : text ≠ [])
    (h : ∀ b, IsBody text b → ∃ t, Term.parse b.text = .ok t) :
    ∃ ts, List.Forall₂ Body.Reads (bodies text) ts ∧ parse text = close text ts := by
  cases hts : (bodies text).mapM Body.toTerm with
  | ok ts =>
    refine ⟨ts, mapM_toTerm_eq_ok hts, ?_⟩
    rw [parse_eq hne, hts]
    rfl
  | error y =>
    obtain ⟨ds, b, es, e, hbs, -, hb, -⟩ := mapM_toTerm_eq_error hts
    obtain ⟨t, ht⟩ := h b (mem_bodies_iff.mp (by simp [hbs]))
    rw [hb] at ht
    cases ht

theorem ofString_grammar (text : String) :
    (text = "" → ofString text = .error .empty) ∧
    ((∃ b e, IsBody text.toList b ∧ Term.parse b.text = .error e) →
      ∃ b e, IsBody text.toList b ∧ Term.parse b.text = .error e ∧
        (∀ d, IsBody text.toList d → d.position < b.position → ∃ t, Term.parse d.text = .ok t) ∧
        ofString text = .error (.term b.position e)) ∧
    (text ≠ "" → (∀ b, IsBody text.toList b → ∃ t, Term.parse b.text = .ok t) →
      (text.toList.getLast?.any isSign = true → ofString text = .error (.danglingSign (text.utf8ByteSize - 1))) ∧
      (text.toList.getLast?.any isSign = false →
        ∃ bs ts, (∀ b, b ∈ bs ↔ IsBody text.toList b) ∧ (bs.Pairwise fun b c => b.position < c.position) ∧
          List.Forall₂ Body.Reads bs ts ∧ ofString text = .ok (ts.foldl (fun p t => p + ofTerm t) 0))) ∧
    ∀ pre post s, text.toList = pre ++ post → Scan.init.run text.toList 0 pre = .ok s →
      s.start ≤ byteSize pre ∧ (slice? s.start (byteSize pre) text.toList).isSome = true ∧
      (text ≠ "" → s.start = text.utf8ByteSize → 1 ≤ s.start) := by
  have hne : text ≠ "" → text.toList ≠ [] := fun h h' => h (String.toList_eq_nil_iff.mp h')
  refine ⟨?_, parse_of_rejected, fun htext h => ⟨fun hlast => ?_, fun hlast => ?_⟩, fun pre post s htext h => ?_⟩
  · rintro rfl
    rfl
  · obtain ⟨ts, -, heq⟩ := parse_of_accepted (hne htext) h
    rw [ofString, heq, close_of_sign hlast, byteSize_toList]
  · obtain ⟨ts, hts, heq⟩ := parse_of_accepted (hne htext) h
    refine ⟨bodies text.toList, ts, fun b => mem_bodies_iff, pairwise_bodies _, hts, ?_⟩
    rw [ofString, heq, close_of_not_sign hlast, foldl_ofTerm]
    rfl
  · obtain ⟨hle, hslice⟩ := slice?_of_run htext h
    refine ⟨hle, hslice, fun hs hstart => ?_⟩
    have := byteSize_pos (hne hs)
    rw [byteSize_toList] at this
    omega

theorem ofString_grammar_trailing_sign :
    ofString "x-" = .error (.danglingSign 1) ∧
    ∃ b e, IsBody "é+y-".toList b ∧ ofString "é+y-" = .error (.term b.position e) := by
  constructor
  · have hbodies : bodies "x-".toList = [⟨[], ['x']⟩] := by decide +kernel
    refine ((ofString_grammar "x-").2.2.1 (by decide) fun b hb => ?_).1 (by decide)
    rw [← mem_bodies_iff, hbodies] at hb
    obtain rfl := List.mem_singleton.mp hb
    exact ⟨_, rfl⟩
  · have hbody : ⟨['é', '+'], ['y']⟩ ∈ bodies "é+y-".toList := by decide +kernel
    obtain ⟨b, e, hb, -, -, h⟩ := (ofString_grammar "é+y-").2.1 ⟨_, _, mem_bodies_iff.mp hbody, rfl⟩
    exact ⟨b, e, hb, h⟩

end ExactPoly.Poly
