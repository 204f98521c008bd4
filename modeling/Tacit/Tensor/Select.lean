/-
Selecting elements: along an axis, a slice of the rows, a rotation, a reversal, moving an axis, and
reading the elements into another shape. Dense elements are moved themselves, by rows and columns, or
laid end to end. Boxes are not dense: what moves elements moves the numbers of their places, and each
box is looked up by its number.
-/
import Tacit.Tensor.Basic
import Tacit.Shape.Index

namespace Tacit

/-! ## Dense elements -/

section Dense

variable {α : Type}

/-- The entries `is` of an axis, in their order: rows if it is the leading axis, and otherwise the
entries `is` within each row. -/
def takeAxis (is : List Nat) : Nat → Shape → List α → List α
  | _, [], xs => xs
  | 0, n :: s, xs => (pick is (blocks n (Shape.size s) xs)).flatten
  | axis + 1, n :: s, xs => (blocks n (Shape.size s) xs).flatMap (takeAxis is axis s)

/-- The first `c` columns of rows, one after another. -/
def columns : Nat → List (List α) → List α
  | 0, _ => []
  | c + 1, rows => rows.filterMap List.head? ++ columns c (rows.map List.tail)

/-- As many copies as are needed, laid end to end and cut off after `count` elements. -/
def tile (count : Nat) (xs : List α) : List α :=
  let copies := (count + xs.length - 1) / xs.length
  (List.replicate copies xs).flatten.take count

end Dense

/-! ## Elements of every kind -/

namespace Elements

variable {α : Type}

/-- What `f` makes of `size` dense elements, for elements of every kind. For boxes it is applied to
the numbers of their places, and each box is looked up by its number. -/
def move (size : Nat) (f : {β : Type} → List β → List β) : Elements α → Elements α
  | numbers xs => numbers (xs.rearrange f)
  | characters xs => characters (f xs)
  | boxes xs =>
    let places := f (List.range size)
    boxes (pick places xs)

/-- The elements repeated or cut off to be `count`: dense ones are tiled, and boxes are looked up one
by one, the first again after the last. -/
def cycle (count : Nat) : Elements α → Elements α
  | numbers xs => numbers (xs.rearrange (tile count))
  | characters xs => characters (tile count xs)
  | boxes xs => boxes (pick ((List.range count).map (· % xs.length)) xs)

end Elements

namespace Tensor

/-! ## Along an axis -/

/-- The entries `is` of an axis, in their order. -/
def gather (t : Tensor) (is : List Nat) (axis : Nat) : Except Fault Tensor :=
  if t.isScalar then throw (.domain .scalarAxis)
  else
    pure ⟨t.shape.take axis ++ is.length :: t.shape.drop (axis + 1),
      t.elements.move t.size (takeAxis is axis t.shape)⟩

/-- The rows `is`, in their order; a scalar has none to choose from and stays. -/
def chooseRows (t : Tensor) (is : List Nat) : Tensor :=
  match t.shape with
  | [] => t
  | _ :: s => ⟨is.length :: s, t.elements.move t.size (takeAxis is 0 t.shape)⟩

/-- The rows from `start` to before `stop`. -/
def slice (t : Tensor) (start stop : Nat) : Tensor :=
  t.chooseRows ((List.range (stop - start)).map (start + ·))

def reverse (t : Tensor) : Tensor := t.chooseRows (List.range t.rowCount).reverse

/-- Rows rotated to the front by `n`, counted modulo their number. -/
def rotateBy (t : Tensor) (n : Int) : Tensor :=
  t.chooseRows ((List.range t.rowCount).map fun (i : Nat) => ((i + n) % t.rowCount).toNat)

def rotate (count t : Tensor) : Except Fault Tensor :=
  return t.rotateBy (← count.asInt "rotate")

/-- The count turned round is again a 32-bit number. -/
def unrotate (count t : Tensor) : Except Fault Tensor := do
  rotate (← ofInt (-(← count.asInt "unrotate"))) t

/-- A scalar as a vector of one element. -/
def asList (t : Tensor) : Tensor := if t.isScalar then ⟨[1], t.elements⟩ else t

/-! ## Taking and dropping -/

/-- The rows that a count takes: from the front, or from the end if negative. -/
def takeRange (count : Int) (length : Nat) : Except Fault (Nat × Nat) :=
  if length < count.natAbs then throw (.domain (.takeTooMany count length))
  else if 0 ≤ count then pure (0, count.natAbs)
  else pure (length - count.natAbs, length)

/-- The rows that a count leaves: all but the first, or all but the last if negative. -/
def dropRange (count : Int) (length : Nat) : Nat × Nat :=
  if 0 ≤ count then (min count.natAbs length, length) else (0, length - count.natAbs)

def take (count t : Tensor) : Except Fault Tensor := do
  let (start, stop) ← takeRange (← count.asInt "take") t.asList.rowCount
  return t.asList.slice start stop

def drop (count t : Tensor) : Except Fault Tensor := do
  let (start, stop) := dropRange (← count.asInt "drop") t.asList.rowCount
  return t.asList.slice start stop

/-! ## Moving axes -/

/-- The leading axis becomes the last. -/
def transpose (t : Tensor) : Tensor :=
  match t.shape with
  | n :: m :: s =>
    let width := Shape.size (m :: s)
    ⟨m :: s ++ [n], t.elements.move t.size fun xs => columns width (blocks n width xs)⟩
  | _ => t

/-- The last axis becomes the leading one. -/
def untranspose (t : Tensor) : Tensor :=
  match t.shape with
  | n :: m :: s =>
    let last := (m :: s).getLast (by simp)
    let init := n :: (m :: s).dropLast
    ⟨last :: init,
      t.elements.move t.size fun xs => columns last (blocks (Shape.size init) last xs)⟩
  | _ => t

/-! ## Reading into another shape -/

def reshape (t : Tensor) (target : Shape) : Except Fault Tensor :=
  if target.size = t.size then pure ⟨target, t.elements⟩
  else throw (.shape (.reshape t.shape target))

/-- Elements repeat from the first on, or are cut off. -/
def cycle (t : Tensor) (target : Shape) : Except Fault Tensor :=
  if target.size = t.size then pure ⟨target, t.elements⟩
  else if t.size = 0 then throw (.domain (.fillFromEmpty target))
  else pure ⟨target, t.elements.cycle target.size⟩

/-- Numbers read as dimensions. -/
def dimensions : Numbers → List Dimension
  | .bools xs => xs.map fun b => .int (Numbers.ofBool b).toInt
  | .ints xs => xs.map fun n => .int n.toInt
  | .floats xs => xs.map fun x => .float (widen x)

/-- The shape that a numeric scalar or vector names. -/
def asShape (t : Tensor) (name : String) : Except Fault Shape :=
  match t.elements with
  | .numbers xs =>
    if t.isScalar then do Shape.ofDimensions [.int (← t.asInt name)]
    else if t.rank = 1 then Shape.ofDimensions (dimensions xs)
    else throw (.domain (.shapeWanted name))
  | _ => throw (.domain (.shapeWanted name))

/-! ## Joining and replacing rows -/

/-- The rows that an array adds to one of the given rank: its own, or itself as one row. -/
def rowsOfRank (t : Tensor) (rank : Nat) : List Tensor := if t.rank = rank then t.rows else [t]

/-- The rows of `left` before those of `right`; a side of lower rank joins as one row. Rows of
different shapes or kinds join only if a side is boxed. -/
def join (left right : Tensor) : Except Fault Tensor :=
  let rank := max (max left.rank right.rank) 1
  let rows := left.rowsOfRank rank ++ right.rowsOfRank rank
  match rows with
  | [] => pure (if left.isScalar then right else left)
  | first :: rest =>
    if left.kind ≠ .box ∧ right.kind ≠ .box
        ∧ !rest.all fun r => r.kind == first.kind && r.shape == first.shape then
      throw (.shape (.join left.shape right.shape))
    else pure (ofRows rows)

/-- The elements `new` in place of the block `i` of as many elements. -/
def replaceBlock {α : Type} (xs : List α) (i : Nat) (k : Nat) (new : List α) : List α :=
  xs.take (i * k) ++ new ++ xs.drop ((i + 1) * k)

/-- Numbers in place of a block take the type of the numbers around them. -/
def replaceNumbers (xs : Numbers) (i k : Nat) (new : Numbers) : Numbers :=
  match xs with
  | .bools xs => .bools (replaceBlock xs i k new.asBools)
  | .ints xs => .ints (replaceBlock xs i k new.asInts)
  | .floats xs => .floats (replaceBlock xs i k new.asFloats)

/-- An array in place of row `i`, from the end if negative; in place of a single box it is boxed. -/
def replaceRow (t : Tensor) (i : Int) (new : Tensor) : Except Fault Tensor :=
  match t.shape with
  | [] => pure new
  | n :: s => do
    let i := if i < 0 then i + n else i
    let old ← t.row i
    let step := Shape.size s
    let fits := new.shape = old.shape
    match t.elements, new.elements with
    | .boxes xs, .boxes ys =>
      if fits then pure ⟨t.shape, .boxes (replaceBlock xs i.toNat step ys)⟩
      else if old.isScalar then pure ⟨t.shape, .boxes (replaceBlock xs i.toNat step [new])⟩
      else throw (.shape (.replaceRow old.shape new.shape))
    | .boxes xs, _ =>
      if old.isScalar then pure ⟨t.shape, .boxes (replaceBlock xs i.toNat step [new])⟩
      else throw (.shape (.replaceRow old.shape new.shape))
    | .numbers xs, .numbers ys =>
      if fits then pure ⟨t.shape, .numbers (replaceNumbers xs i.toNat step ys)⟩
      else throw (.shape (.replaceRowKind old.shape new.kind new.shape))
    | .characters xs, .characters ys =>
      if fits then pure ⟨t.shape, .characters (replaceBlock xs i.toNat step ys)⟩
      else throw (.shape (.replaceRowKind old.shape new.kind new.shape))
    | _, _ => throw (.shape (.replaceRowKind old.shape new.kind new.shape))

/-- Every row equals the next one round, so all are equal. -/
def equalRows (t : Tensor) : Bool := t.isScalar || t.rowCount ≤ 1 || t.same (t.rotateBy 1)

end Tensor

end Tacit
