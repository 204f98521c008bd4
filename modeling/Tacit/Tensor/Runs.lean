/-
Runs of neighbouring rows: maximal runs in which each row stands in a relation to the one before it,
and the runs between rows marked as separators.
-/
import Tacit.Tensor.Basic

namespace Tacit

/-! ## Runs of a list -/

/-- The maximal runs of a list after the run `current`, which is in reverse and ends with `last`;
`same` sees each row and the one before it, once and from left to right. -/
def runsAfter {α : Type} {m : Type → Type} [Monad m] (same : α → α → m Bool) (last : α)
    (current : List α) : List α → m (List (List α))
  | [] => pure [(last :: current).reverse]
  | x :: xs => do
    if ← same last x then runsAfter same x (last :: current) xs
    else return (last :: current).reverse :: (← runsAfter same x [] xs)

def runs {α : Type} {m : Type → Type} [Monad m] (same : α → α → m Bool) :
    List α → m (List (List α))
  | [] => pure []
  | x :: xs => runsAfter same x [] xs

/-- A run kept if it holds anything. -/
def keepRun {α : Type} (run : List α) (runs : List (List α)) : List (List α) :=
  if run.isEmpty then runs else run :: runs

/-- The runs of unmarked elements, after the run `current` in reverse; marked ones are dropped. -/
def unmarkedRuns {α : Type} (current : List α) : List (α × Bool) → List (List α)
  | [] => keepRun current.reverse []
  | (_, true) :: xs => keepRun current.reverse (unmarkedRuns [] xs)
  | (x, false) :: xs => unmarkedRuns (x :: current) xs

namespace Tensor

/-- Each run as one array, boxed. -/
def ofRuns (runs : List (List Tensor)) : Tensor := boxes (runs.map ofRows)

/-- The rows in maximal runs of rows that are `same` as the one before. -/
def groupRuns {m : Type → Type} [Monad m] (same : Tensor → Tensor → m Bool) (t : Tensor) :
    m Tensor :=
  return ofRuns (← runs same t.rows)

/-- The rows in maximal runs of equal rows. -/
def groupByChange (t : Tensor) : Tensor :=
  ofRuns (Id.run (runs (fun previous current => pure (previous.same current)) t.rows))

/-- The runs between the rows that `mask` marks. -/
def splitRuns (t : Tensor) (mask : List Bool) : Except Fault Tensor :=
  if t.rows.length ≠ mask.length then throw (.domain (.maskLength mask.length t.rows.length))
  else pure (ofRuns (unmarkedRuns [] (t.rows.zip mask)))

/-! ## Separators -/

/-- The rows start with a window equal to `window`, row by row. -/
def startsWith : List Tensor → List Tensor → Bool
  | [], _ => true
  | _ :: _, [] => false
  | w :: ws, r :: rs => r.same w && startsWith ws rs

/-- Marks the rows covered by windows, leftmost first and without overlap; `skip` rows belong to the
window found last. -/
def markWindows (window : List Tensor) (skip : Nat) : List Tensor → List Bool
  | [] => []
  | r :: rs =>
    match skip with
    | k + 1 => true :: markWindows window k rs
    | 0 =>
      if startsWith window (r :: rs) then true :: markWindows window (window.length - 1) rs
      else false :: markWindows window 0 rs

/-- Marks the separators: single rows if `separator` has one axis less, sequences of rows if it has
as many. -/
def separators (t separator : Tensor) : Except Fault (List Bool) :=
  if t.isScalar then throw (.domain .splitScalar)
  else if separator.rank + 1 = t.rank then pure (t.rows.map (·.same separator))
  else if separator.rank ≠ t.rank then
    throw (.domain (.separatorRank separator.rank t.rank))
  else if separator.rows.isEmpty then throw (.domain .emptySeparator)
  else pure (markWindows separator.rows 0 t.rows)

/-- The runs of rows between separators. -/
def splitOn (separator t : Tensor) : Except Fault Tensor := do
  t.splitRuns (← t.separators separator)

end Tensor

end Tacit
