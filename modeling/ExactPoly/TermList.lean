import ExactPoly.Term.Basic

/-!
# Lists of terms in descending order

The working form of a polynomial is its list of terms with the largest exponent first. Each operation takes a list with
strictly descending exponents and no zero coefficients.

* `insert t l` : `t` added to the list, into the term of its exponent if there is one;
* `search l e lo hi`, `update t l r` : the same in two steps, a binary search for the exponent and a change at the place where
  it ends;
* `insertAll l ts` : the terms `ts` inserted one after another;
* `scale a l` : every coefficient times `a`; a zero `a` leaves no term;
* `shift d l` : every exponent plus `d`; terms that would fall to an exponent of zero or less are added up at zero, and
  one exponent past the largest makes the whole list NaN.
-/

namespace ExactPoly.TermList

/-- Adds a term to the term of its exponent, or puts it in its place. A sum of zero leaves no term. -/
def merge (t : Term) : List Term → List Term
  | [] => [t]
  | s :: l =>
    if t.expt < s.expt then s :: merge t l
    else if s.expt < t.expt then t :: s :: l
    else
      let sum := (s.add? t).getD .nan
      if sum.isZero then l else sum :: l

/-- Adds a term to a list; a zero term leaves the list as it is. -/
def insert (t : Term) (l : List Term) : List Term :=
  if t.isZero then l else merge t l

/--
Binary search for the exponent `e` from the index `lo` to before the index `hi`. The larger exponents come first, so it goes
on to the right of a term with a larger exponent. It ends at the index of the term, or else at the index where such a term
belongs.
-/
def search (l : List Term) (e lo hi : Nat) : Except Nat Nat :=
  if lo < hi then
    let mid := (lo + hi) / 2
    match compare e (l.getD mid 0).expt with
    | .lt => search l e (mid + 1) hi
    | .eq => .ok mid
    | .gt => search l e lo mid
  else .error lo
termination_by hi - lo

/-- Adds the term `t` at the place where a search for its exponent has ended. -/
def update (t : Term) (l : List Term) : Except Nat Nat → List Term
  | .ok i =>
    match (l.getD i 0).add? t with
    | some sum => if sum.isZero then l.eraseIdx i else l.set i sum
    | none => l.set i .nan
  | .error i => l.insertIdx i t

/-- Inserts the terms `ts` one after another. -/
def insertAll (l ts : List Term) : List Term := ts.foldl (fun l t => insert t l) l

/-- Multiplies every coefficient by `a`. -/
def scale (a : Scalar) (l : List Term) : List Term :=
  if a.isZero then [] else l.map (.scale a)

/--
Adds `d` to every exponent. The sums are taken over all integers. They stand for sums of signed 64-bit numbers as long as
`|d| ≤ 2 ^ 62`, where none of them overflows.
-/
def shift (d : Int) (l : List Term) : List Term :=
  if d = 0 then l
  else if l.any fun t => (maxExpt : Int) < t.expt + d then [.nan]
  else
    let high := l.filter fun t => 0 < t.expt + d
    let low := l.filter fun t => t.expt + d ≤ 0
    insertAll (high.map fun t => t.withExpt (t.expt + d).toNat) (low.map (·.withExpt 0))

end ExactPoly.TermList
