import ExactPoly.Poly.Basic

/-!
# Frozen lists

An operation on polynomials works on lists of terms, and freezes a list when it is done with it. Beside its result it
records the lists that were frozen on the way, those of the operations it calls included.

* `Traced` : a result with the lists that were frozen on the way to it;
* `freeze` : a list becomes a polynomial. No other function turns a list that an operation has worked on into a result.
-/

namespace ExactPoly

/-- A result with the lists of terms that were frozen on the way to it, in their order. -/
structure Traced (α : Type) where
  value : α
  frozen : List (List Term)

instance : Monad Traced where
  pure a := ⟨a, []⟩
  bind x f :=
    let y := f x.value
    ⟨y.value, x.frozen ++ y.frozen⟩

theorem Traced.value_foldlM {α β : Type} (f : β → α → Traced β) (l : List α) (b : β) :
    (l.foldlM f b).value = l.foldl (fun b a => (f b a).value) b := by
  induction l generalizing b with
  | nil => rfl
  | cons a l ih =>
    rw [List.foldlM_cons, List.foldl_cons]
    exact ih (f b a).value

/-- Takes a list of terms as finished. -/
def Poly.freeze (l : List Term) : Traced Poly := ⟨⟨l⟩, [l]⟩

end ExactPoly
