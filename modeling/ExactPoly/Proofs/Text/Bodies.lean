import ExactPoly.Proofs.Text.Scan

/-!
# The bodies of a text

The signs of a text cut out its bodies. Each is kept with the text before it, which gives its position and its sign.

* `bodies` : the bodies from left to right;
* `Scan.At` : the state of a scan at the start of a body;
* `Scan.run_finish` : a scan reads the rest of a text as its bodies, from any state;
* `readTerms_eq`, `parse_eq` : the polynomial of a text is the sum of its signed bodies.
-/

namespace ExactPoly.Poly

open Text

/-- A run of characters between signs, and the text before it. -/
structure Body where
  before : List Char
  text : List Char
  deriving DecidableEq

namespace Body

/-- The byte at which the body starts. -/
def position (b : Body) : Nat := byteSize b.before

/-- Whether the character before the body is a minus sign. -/
def negative (b : Body) : Bool := b.before.getLast? == some '-'

def toTerm (b : Body) : Except ParseError Term :=
  match Term.parse b.text with
  | .ok t => .ok (if b.negative then -t else t)
  | .error e => .error (.term b.position e)

end Body

/-- The bodies of `before ++ cur ++ cs` from `cur` on, where `cur` is the part that is read of a body after `before`. -/
def bodiesFrom (before cur : List Char) : List Char → List Body
  | [] => if cur = [] then [] else [⟨before, cur⟩]
  | c :: cs =>
    if isSign c then
      if cur = [] then bodiesFrom (before ++ cur ++ [c]) [] cs
      else ⟨before, cur⟩ :: bodiesFrom (before ++ cur ++ [c]) [] cs
    else bodiesFrom before (cur ++ [c]) cs

def bodies (text : List Char) : List Body := bodiesFrom [] [] text

theorem isSign_eq_false {c : Char} (hplus : c ≠ '+') (hminus : c ≠ '-') : isSign c = false := by
  simp [isSign, hplus, hminus]

theorem getLast?_concat_sign {c : Char} (hc : isSign c = true) (cs : List Char) :
    ∀ d ∈ (cs ++ [c]).getLast?, isSign d = true := by
  rw [List.getLast?_concat]
  rintro d ⟨⟩
  exact hc

theorem concat_not_sign {c : Char} {cs : List Char} (hcs : ∀ d ∈ cs, isSign d = false) (hc : isSign c = false) :
    ∀ d ∈ cs ++ [c], isSign d = false := by
  intro d hd
  rcases List.mem_append.mp hd with hd | hd
  · exact hcs d hd
  · rw [List.mem_singleton.mp hd]
    exact hc

theorem utf8Size_of_isSign {c : Char} (h : isSign c = true) : c.utf8Size = 1 := by
  rcases Bool.or_eq_true _ _ ▸ h with h | h
  · rw [eq_of_beq h]
    rfl
  · rw [eq_of_beq h]
    rfl

/-! ## One step of a scan -/

/-- The scan is about to read a body, or reads one, after `before`. -/
structure Scan.At (s : Scan) (before : List Char) : Prop where
  start_eq : s.start = byteSize before
  negative_eq : s.negative = (before.getLast? == some '-')

theorem Scan.at_init : Scan.init.At [] := ⟨rfl, rfl⟩

theorem Scan.pushBody_eq {s : Scan} {before : List Char} (hs : s.At before) (cur cs : List Char) :
    s.pushBody (before ++ cur ++ cs) (byteSize (before ++ cur)) =
      (Body.toTerm ⟨before, cur⟩).map fun t => { s with terms := TermList.insert t s.terms } := by
  rw [Scan.pushBody, hs.start_eq, slice_append, Body.toTerm]
  cases Term.parse cur with
  | ok t => rw [hs.negative_eq]; rfl
  | error e => rfl

/-- A sign right after another one, or at the start, only changes the sign of the next body. -/
theorem Scan.step_sign_nil {c : Char} (h : isSign c = true) {s : Scan} {before : List Char} (hs : s.At before)
    (text : List Char) : ∃ s' : Scan, s.step text (byteSize before) c = .ok s' ∧ s'.At (before ++ [c]) ∧
      s'.terms = s.terms := by
  refine ⟨{ s with negative := c == '-', start := byteSize before + 1 }, ?_, ⟨?_, ?_⟩, rfl⟩
  · rw [Scan.step, if_pos h, if_neg (by rw [hs.start_eq]; omega)]
    rfl
  · rw [byteSize_append, byteSize_cons, utf8Size_of_isSign h]
    rfl
  · rw [List.getLast?_concat]
    rfl

/-- A sign after a body reads the body. -/
theorem Scan.step_sign_body {c : Char} (h : isSign c = true) {s : Scan} {before : List Char} (hs : s.At before)
    {cur : List Char} (hcur : cur ≠ []) (cs : List Char) :
    ∃ f : Term → Scan, s.step (before ++ cur ++ cs) (byteSize (before ++ cur)) c = (Body.toTerm ⟨before, cur⟩).map f ∧
      ∀ t, (f t).At (before ++ cur ++ [c]) ∧ (f t).terms = TermList.insert t s.terms := by
  have hpos := byteSize_pos hcur
  refine ⟨fun t => ⟨TermList.insert t s.terms, c == '-', byteSize (before ++ cur) + 1⟩, ?_, fun t => ⟨⟨?_, ?_⟩, rfl⟩⟩
  · rw [Scan.step, if_pos h, if_pos (by rw [hs.start_eq, byteSize_append]; omega), Scan.pushBody_eq hs]
    cases Body.toTerm ⟨before, cur⟩ <;> rfl
  · show byteSize (before ++ cur) + 1 = _
    rw [byteSize_append _ [c], byteSize_cons, utf8Size_of_isSign h]
    rfl
  · rw [List.getLast?_concat]
    rfl

/-! ## The scan of a text -/

/-- What is left to do with a text when its bodies are read: the terms `ts` go into the list `l`. -/
def accumulate (text : List Char) (l ts : List Term) : Except ParseError (List Term) :=
  if text.getLast?.any isSign then .error (.danglingSign (byteSize text - 1)) else .ok (TermList.insertAll l ts)

/-- The polynomial of a text with the terms `ts`. -/
def close (text : List Char) (ts : List Term) : Except ParseError Poly := (accumulate text [] ts).map ofList

theorem close_of_sign {text : List Char} (h : text.getLast?.any isSign = true) (ts : List Term) :
    close text ts = .error (.danglingSign (byteSize text - 1)) := by
  rw [close, accumulate, if_pos h]
  rfl

theorem close_of_not_sign {text : List Char} (h : text.getLast?.any isSign = false) (ts : List Term) :
    close text ts = .ok (ofList (TermList.insertAll [] ts)) := by
  rw [close, accumulate, h, if_neg Bool.false_ne_true]
  rfl

theorem mapM_toTerm_cons {α : Type} (b : Body) (bs : List Body) (f : List Term → Except ParseError α) :
    ((b :: bs).mapM Body.toTerm >>= f) = (b.toTerm >>= fun t => bs.mapM Body.toTerm >>= fun ts => f (t :: ts)) := by
  rw [List.mapM_cons]
  cases b.toTerm with
  | error e => rfl
  | ok t => cases bs.mapM Body.toTerm <;> rfl

/-- At the end of a text the last body is read, or a sign is found to have none. -/
theorem Scan.finish_eq {s : Scan} {before cur : List Char} (hs : s.At before) (hb : ∀ c ∈ before.getLast?, isSign c = true)
    (hcur : ∀ c ∈ cur, isSign c = false) (hne : before ++ cur ≠ []) :
    Scan.finish (before ++ cur) s =
      ((bodiesFrom before cur []).mapM Body.toTerm >>= accumulate (before ++ cur) s.terms) := by
  unfold Scan.finish
  by_cases h : cur = []
  · subst h
    rw [List.append_nil] at hne ⊢
    have hlast : before.getLast?.any isSign = true := by
      rw [List.getLast?_eq_some_getLast hne]
      exact hb _ (List.getLast?_eq_some_getLast hne)
    rw [if_pos hs.start_eq, hs.start_eq, bodiesFrom, if_pos rfl]
    show _ = accumulate before s.terms []
    rw [accumulate, if_pos hlast]
  · have hlast : (before ++ cur).getLast?.any isSign = false := by
      rw [List.getLast?_append, List.getLast?_eq_some_getLast h]
      exact hcur _ (List.getLast_mem h)
    have hpos := byteSize_pos h
    have hpush := Scan.pushBody_eq hs cur []
    rw [List.append_nil] at hpush
    rw [if_neg (by rw [hs.start_eq, byteSize_append]; omega), hpush, bodiesFrom, if_neg h, mapM_toTerm_cons]
    cases Body.toTerm ⟨before, cur⟩ with
    | error e => rfl
    | ok t =>
      show _ = accumulate (before ++ cur) s.terms [t]
      rw [accumulate, hlast]
      rfl

/--
Induction on the characters that are left. The invariant is that the state stands at the start of the body that is being
read, so that the slice up to the next sign is that body.
-/
theorem Scan.run_finish {text : List Char} (hne : text ≠ []) (cs : List Char) {s : Scan} {before cur : List Char}
    (htext : text = before ++ cur ++ cs) (hs : s.At before) (hb : ∀ c ∈ before.getLast?, isSign c = true)
    (hcur : ∀ c ∈ cur, isSign c = false) :
    (s.run text (byteSize (before ++ cur)) cs >>= Scan.finish text) =
      ((bodiesFrom before cur cs).mapM Body.toTerm >>= accumulate text s.terms) := by
  induction cs generalizing s before cur with
  | nil =>
    rw [List.append_nil] at htext
    subst htext
    exact Scan.finish_eq hs hb hcur hne
  | cons c cs ih =>
    have hsplit : text = before ++ cur ++ [c] ++ [] ++ cs := by simp [htext]
    have hsize : byteSize (before ++ cur) + c.utf8Size = byteSize (before ++ cur ++ [c] ++ []) := by
      rw [List.append_nil, byteSize_append (before ++ cur), byteSize_cons]
      rfl
    rw [Scan.run, bodiesFrom]
    by_cases hc : isSign c = true
    · have hb' := getLast?_concat_sign hc (before ++ cur)
      rw [if_pos hc, hsize]
      by_cases h : cur = []
      · subst h
        rw [List.append_nil before] at hb' hsplit ⊢
        obtain ⟨s', hstep, hs', hterms⟩ := Scan.step_sign_nil hc hs text
        rw [if_pos rfl, hstep, ← hterms]
        exact ih hsplit hs' hb' (by simp)
      · obtain ⟨f, hstep, hf⟩ := Scan.step_sign_body hc hs h (c :: cs)
        rw [if_neg h, mapM_toTerm_cons, htext, hstep, ← htext]
        cases Body.toTerm ⟨before, cur⟩ with
        | error e => rfl
        | ok t =>
          have := ih hsplit (hf t).1 hb' (by simp)
          rw [(hf t).2] at this
          exact this
    · have hc' : isSign c = false := by simpa using hc
      have hsplit' : text = before ++ (cur ++ [c]) ++ cs := by simp [htext]
      have hcur' := concat_not_sign hcur hc'
      rw [if_neg hc, Scan.step_of_not_sign hc', hsize, List.append_nil, List.append_assoc]
      exact ih hsplit' hs hb hcur'

theorem readTerms_eq {text : List Char} (hne : text ≠ []) :
    readTerms text = ((bodies text).mapM Body.toTerm >>= accumulate text []) := by
  rw [readTerms, if_neg hne]
  have htext : text = [] ++ [] ++ text := rfl
  exact Scan.run_finish hne text htext Scan.at_init (fun _ h => by cases h) (fun _ h => by cases h)

theorem parse_eq {text : List Char} (hne : text ≠ []) :
    parse text = ((bodies text).mapM Body.toTerm >>= close text) := by
  rw [parse, parseM, readTerms_eq hne]
  cases (bodies text).mapM Body.toTerm with
  | error e => rfl
  | ok ts =>
    show ((accumulate text [] ts).map ofListM).map Traced.value = (accumulate text [] ts).map ofList
    cases accumulate text [] ts <;> rfl

end ExactPoly.Poly
