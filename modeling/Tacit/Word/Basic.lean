/-
The built-in words that work on their arguments alone: their names, how many values they take and
leave, the word that undoes each, and how many leading arguments an inverse gets again unchanged.
-/
import Tacit.Number.Kernel

namespace Tacit

/-- Words of one argument and one result. -/
inductive Unary where
  | identity
  | map (op : Monadic)
  | shape
  | length
  | range
  | reverse
  | transpose
  | untranspose
  | deshape
  | fix
  | unfix
  | box
  | unbox
  | first
  | equalRows
  | groupByChange
  | primes
  deriving DecidableEq, Repr

/-- The operations that scale by their top argument. -/
inductive Scaling where
  | multiply
  | divide
  deriving DecidableEq, Repr

/-- Words of two arguments and one result. -/
inductive Binary where
  | apply (op : Dyadic)
  | reshape
  | cycleReshape
  | join
  | couple
  | indexAt
  | take
  | drop
  | rotate
  | unrotate
  | keep
  | scale
  | same
  | splitOn
  | joinFields
  | splitFields
  | formatWith
  | parseWith
  /-- Undoes a scaling; it has no name of its own among the words. -/
  | unscale (op : Scaling)
  deriving DecidableEq, Repr

inductive Word where
  | dup
  | pop
  | swap
  | flip
  | dupBelow
  | unary (u : Unary)
  | binary (b : Binary)
  deriving DecidableEq, Repr

/-! ## Names -/

namespace Scaling

def name : Scaling → String
  | multiply => "multiply"
  | divide => "divide"

/-- The operation that divides out a factor again. -/
def undo : Scaling → Dyadic
  | multiply => .divide
  | divide => .multiply

end Scaling

namespace Unary

def name : Unary → String
  | identity => "identity"
  | map op => op.name
  | shape => "shape"
  | length => "length"
  | range => "range"
  | reverse => "reverse"
  | transpose => "transpose"
  | untranspose => "untranspose"
  | deshape => "deshape"
  | fix => "fix"
  | unfix => "unfix"
  | box => "box"
  | unbox => "unbox"
  | first => "first"
  | equalRows => "equal_rows"
  | groupByChange => "group_by_change"
  | primes => "primes"

def all : List Unary :=
  [identity] ++ Monadic.all.map map ++
    [shape, length, range, reverse, transpose, untranspose, deshape, fix, unfix, box, unbox, first,
      equalRows, groupByChange, primes]

/-- The name of the word that undoes this one. -/
def inverse? : Unary → Option String
  | identity => some "identity"
  | map .negate => some "negate"
  | map .not => some "not"
  | map .reciprocal => some "reciprocal"
  | map .sqrt => some "square"
  | map .square => some "sqrt"
  | reverse => some "reverse"
  | transpose => some "untranspose"
  | untranspose => some "transpose"
  | fix => some "unfix"
  | unfix => some "fix"
  | box => some "unbox"
  | unbox => some "box"
  | primes => some "product"
  | _ => none

end Unary

namespace Binary

def name : Binary → String
  | apply op => op.name
  | reshape => "reshape"
  | cycleReshape => "cycle_reshape"
  | join => "join"
  | couple => "couple"
  | indexAt => "index_at"
  | take => "take"
  | drop => "drop"
  | rotate => "rotate"
  | unrotate => "unrotate"
  | keep => "keep"
  | scale => "scale"
  | same => "match"
  | splitOn => "split_on"
  | joinFields => "join_fields"
  | splitFields => "split_fields"
  | formatWith => "format_with"
  | parseWith => "parse_with"
  | unscale op => s!"invert({op.name})"

/-- The words that have a name of their own. -/
def all : List Binary :=
  Dyadic.all.map apply ++
    [reshape, cycleReshape, join, couple, indexAt, take, drop, rotate, unrotate, keep, scale, same,
      splitOn, joinFields, splitFields, formatWith, parseWith]

end Binary

namespace Word

def name : Word → String
  | dup => "dup"
  | pop => "pop"
  | swap => "swap"
  | flip => "flip"
  | dupBelow => "over"
  | unary u => u.name
  | binary b => b.name

def signature : Word → Signature
  | dup => ⟨1, 2⟩
  | pop => ⟨1, 0⟩
  | swap => ⟨2, 2⟩
  | flip => ⟨2, 2⟩
  | dupBelow => ⟨2, 3⟩
  | unary _ => ⟨1, 1⟩
  | binary _ => ⟨2, 1⟩

def all : List Word :=
  [dup, pop, swap, flip, dupBelow] ++ Unary.all.map unary ++ Binary.all.map binary

end Word

/-! ## Inverses -/

/-- A declared inverse: what a name stands for, or a word without a name. -/
inductive WordInverse where
  | named (name : String)
  | word (w : Word)
  deriving DecidableEq, Repr

def Binary.inverse? : Binary → Option WordInverse
  | apply .add => some (.named "subtract")
  | apply .subtract => some (.named "add")
  | apply .multiply => some (.word (.binary (.unscale .multiply)))
  | apply .divide => some (.word (.binary (.unscale .divide)))
  | rotate => some (.named "unrotate")
  | unrotate => some (.named "rotate")
  | joinFields => some (.named "split_fields")
  | splitFields => some (.named "join_fields")
  | formatWith => some (.named "parse_with")
  | parseWith => some (.named "format_with")
  | unscale op => some (.named op.name)
  | _ => none

def Word.inverse? : Word → Option WordInverse
  | swap => some (.named "swap")
  | flip => some (.named "flip")
  | unary u => u.inverse?.map .named
  | binary b => b.inverse?
  | _ => none

/-- How many leading arguments the inverse gets again: one, for the words of two arguments that have
an inverse. -/
def Word.parametric : Word → Nat
  | binary b => if b.inverse?.isSome then 1 else 0
  | _ => 0

/-- The value that leaves the other argument alone. -/
def Word.identity? : Word → Option Int32
  | binary (.apply .add) => some 0
  | binary (.apply .multiply) => some 1
  | _ => none

/-! ## Words that lose something -/

/-- Words of one argument that set aside what their result lacks, to put it back later. -/
inductive UnaryKeeper where
  | deshape
  | first
  deriving DecidableEq, Repr

/-- Words of two arguments that do so. -/
inductive BinaryKeeper where
  | reshape
  | indexAt
  | take
  | drop
  deriving DecidableEq, Repr

inductive Keeper where
  | unary (k : UnaryKeeper)
  | binary (k : BinaryKeeper)
  deriving DecidableEq, Repr

namespace Keeper

def word : Keeper → Word
  | unary .deshape => .unary .deshape
  | unary .first => .unary .first
  | binary .reshape => .binary .reshape
  | binary .indexAt => .binary .indexAt
  | binary .take => .binary .take
  | binary .drop => .binary .drop

def name (k : Keeper) : String := k.word.name

def all : List Keeper :=
  [unary .deshape, unary .first, binary .reshape, binary .indexAt, binary .take, binary .drop]

def ofWord? (w : Word) : Option Keeper := all.find? (·.word == w)

end Keeper

end Tacit
