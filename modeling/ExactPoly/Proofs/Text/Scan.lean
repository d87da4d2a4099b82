import ExactPoly.Poly.Text
import ExactPoly.Proofs.Text.Slice

/-!
# Scans that succeed

* `bind_eq_ok`, `bind_eq_error`, `map_eq_ok` : the parts of a computation that succeeds or fails;
* `Scan.pushBody_eq_ok`, `Scan.step_eq_ok` : all that one step of a scan can do;
* `Scan.run_induction` : what every step preserves holds after a run;
* `readTerms_eq_ok` : a text whose terms are read was scanned to its end, and its last body read;
* `parseM_eq_ok`, `parse_eq_ok` : the polynomial of a text is that of its terms.
-/

namespace ExactPoly

theorem bind_eq_ok {α β ε : Type} {x : Except ε α} {f : α → Except ε β} {b : β} (h : x >>= f = .ok b) :
    ∃ a, x = .ok a ∧ f a = .ok b := by
  cases x with
  | error e => cases h
  | ok a => exact ⟨a, rfl, h⟩

theorem bind_eq_error {α β ε : Type} {x : Except ε α} {f : α → Except ε β} {e : ε} (h : x >>= f = .error e) :
    x = .error e ∨ ∃ a, x = .ok a ∧ f a = .error e := by
  cases x with
  | error d =>
    cases h
    exact .inl rfl
  | ok a => exact .inr ⟨a, rfl, h⟩

theorem map_eq_ok {α β ε : Type} {x : Except ε α} {f : α → β} {b : β} (h : x.map f = .ok b) : ∃ a, x = .ok a ∧ f a = b := by
  cases x with
  | error e => cases h
  | ok a => exact ⟨a, rfl, Except.ok.inj h⟩

namespace Poly

open Text

theorem Scan.pushBody_eq_ok {text : List Char} {stop : Nat} {s s' : Scan} (h : s.pushBody text stop = .ok s') :
    ∃ t, Term.parse (slice s.start stop text) = .ok t ∧
      s' = { s with terms := TermList.insert (if s.negative then -t else t) s.terms } := by
  unfold Scan.pushBody at h
  split at h
  · next t ht => exact ⟨t, ht, (Except.ok.inj h).symm⟩
  · cases h

theorem Scan.step_of_not_sign {c : Char} (h : isSign c = false) (text : List Char) (i : Nat) (s : Scan) :
    s.step text i c = .ok s := by
  rw [Scan.step, if_neg (by simp [h])]

theorem Scan.step_eq_ok {text : List Char} {i : Nat} {c : Char} {s s' : Scan} (h : s.step text i c = .ok s') :
    isSign c = false ∧ s' = s ∨
    isSign c = true ∧ ∃ r, (s.start < i ∧ s.pushBody text i = .ok r ∨ i ≤ s.start ∧ r = s) ∧
      s' = { r with negative := c == '-', start := i + 1 } := by
  by_cases hc : isSign c = true
  · rw [Scan.step, if_pos hc] at h
    split at h
    · next hlt =>
      obtain ⟨r, hr, h⟩ := bind_eq_ok h
      exact .inr ⟨hc, r, .inl ⟨hlt, hr⟩, (Except.ok.inj h).symm⟩
    · next hlt => exact .inr ⟨hc, s, .inr ⟨Nat.le_of_not_lt hlt, rfl⟩, (Except.ok.inj h).symm⟩
  · rw [Scan.step_of_not_sign (by simpa using hc)] at h
    exact .inl ⟨by simpa using hc, (Except.ok.inj h).symm⟩

/-- The predicate is about the characters that are passed, from the start of the text, and the state after them. -/
theorem Scan.run_induction {text : List Char} {P : List Char → Scan → Prop}
    (hstep : ∀ pre c s s', P pre s → s.step text (byteSize pre) c = .ok s' → P (pre ++ [c]) s') {pre cs : List Char}
    {s s' : Scan} (hs : P pre s) (h : s.run text (byteSize pre) cs = .ok s') : P (pre ++ cs) s' := by
  induction cs generalizing pre s with
  | nil =>
    obtain rfl := Except.ok.inj h
    rwa [List.append_nil]
  | cons c cs ih =>
    obtain ⟨r, hr, hrun⟩ := bind_eq_ok h
    have hsize : byteSize pre + c.utf8Size = byteSize (pre ++ [c]) := by
      rw [byteSize_append, byteSize_cons]
      rfl
    rw [hsize] at hrun
    have := ih (hstep pre c s r hs hr) hrun
    rwa [List.append_assoc] at this

theorem readTerms_eq_ok {text : List Char} {ts : List Term} (h : readTerms text = .ok ts) :
    ∃ s s' : Scan, Scan.init.run text 0 text = .ok s ∧ s.pushBody text (byteSize text) = .ok s' ∧ ts = s'.terms := by
  unfold readTerms at h
  split at h
  · cases h
  obtain ⟨s, hs, h⟩ := bind_eq_ok h
  unfold Scan.finish at h
  split at h
  · cases h
  obtain ⟨s', hs', h⟩ := bind_eq_ok h
  exact ⟨s, s', hs, hs', (Except.ok.inj h).symm⟩

theorem parseM_eq_ok {text : List Char} {x : Traced Poly} (h : parseM text = .ok x) :
    ∃ ts, readTerms text = .ok ts ∧ x = ofListM ts := by
  obtain ⟨ts, hts, rfl⟩ := map_eq_ok h
  exact ⟨ts, hts, rfl⟩

theorem parse_eq_ok {text : List Char} {p : Poly} (h : parse text = .ok p) :
    ∃ ts, readTerms text = .ok ts ∧ p = ofList ts := by
  obtain ⟨x, hx, rfl⟩ := map_eq_ok h
  obtain ⟨ts, hts, rfl⟩ := parseM_eq_ok hx
  exact ⟨ts, hts, rfl⟩

end Poly

end ExactPoly
