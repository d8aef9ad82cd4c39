import JsonEdit.Number.Power
import JsonEdit.Sequence.Run

/-!
# The shortest way through a grid

Comparing two sequences is finding a way from the corner `(0, 0)` of a grid to the corner `(n, m)`: a
step to the right deletes an item of the first sequence, a step down inserts one of the second, and a
step along the diagonal keeps an item that both have. The fewer steps are not along a diagonal, the
shorter is the comparison.

The search goes in rounds. In round `d` it knows, for every second diagonal `k = x - y` from `-d` to
`d`, the farthest point that can be reached with `d` steps off the diagonals. Such a point comes from
a neighbouring diagonal of the round before, and then goes along its own diagonal as far as it can.
The rounds are recorded, so the way can be walked back from `(n, m)`.

A reading or writing beside the table has no result, and neither has the whole search then.
-/

namespace JsonEdit

/-- The farthest `x` on each diagonal. The diagonal `k` has the place `k + offset`. -/
structure Frontier where
  reach : Array Nat
  offset : Nat
  deriving DecidableEq

namespace Frontier

/-- Nothing is reached; there is a place for each diagonal that `n + m` steps may come to, and for its
neighbours. -/
def start (n m : Nat) : Frontier := ⟨.replicate (2 * (n + m) + 2) 0, n + m⟩

def get? (frontier : Frontier) (k : Int) : Option Nat :=
  if 0 ≤ k + frontier.offset then frontier.reach[(k + frontier.offset).toNat]? else none

def set? (frontier : Frontier) (k : Int) (x : Nat) : Option Frontier :=
  let place := (k + frontier.offset).toNat
  if 0 ≤ k + frontier.offset ∧ place < frontier.reach.size then
    some { frontier with reach := frontier.reach.setIfInBounds place x }
  else none

/-- In round `d`, the way to diagonal `k` comes down from diagonal `k + 1`, and not from the left. -/
def fromAbove? (frontier : Frontier) (d k : Int) : Option Bool :=
  if k = -d then some true
  else if k = d then some false
  else do
    let left ← frontier.get? (k - 1)
    let right ← frontier.get? (k + 1)
    return left < right

def enter? (frontier : Frontier) (d k : Int) : Option Nat := do
  if ← frontier.fromAbove? d k then frontier.get? (k + 1)
  else return (← frontier.get? (k - 1)) + 1

variable {α : Type} [BEq α]

def commonFrom (a b : Array α) (x y : Nat) : Nat :=
  if hinside : x < a.size ∧ y < b.size then
    if a[x] == b[y] then commonFrom a b (x + 1) (y + 1) + 1 else 0
  else 0
  termination_by a.size - x

/-- Round `d` on `count` diagonals from `k` on, and whether the far corner was reached. -/
def sweep (a b : Array α) (d : Int) : (count : Nat) → (k : Int) → Frontier →
    Option (Frontier × Bool)
  | 0, _, frontier => some (frontier, false)
  | count + 1, k, frontier => do
    let entered ← frontier.enter? d k
    let x := entered + commonFrom a b entered (entered - k).toNat
    let frontier ← frontier.set? k x
    if a.size ≤ x && b.size ≤ (x : Int) - k then return (frontier, true)
    else sweep a b d count (k + 2) frontier

/-- The runs of the way to `(x, y)`, walked back through the recorded rounds, the last one first. -/
def walkBack (x y : Int) (runs : List Run) : List Frontier → Option (List Run)
  | [] => some runs
  | frontier :: earlier => do
    let d := earlier.length
    let k := x - y
    let k := if ← frontier.fromAbove? d k then k + 1 else k - 1
    let fromX ← frontier.get? k
    let fromY := fromX - k
    let common := (min (x - fromX) (y - fromY)).toNat
    let runs := Run.cons (.keep common) runs
    let runs :=
      if d = 0 then runs
      else if x - common = fromX then Run.cons (.insert 1) runs
      else Run.cons (.delete 1) runs
    walkBack fromX fromY runs earlier

inductive Outcome where
  /-- the runs of a shortest way -/
  | found (runs : List Run)
  /-- the recorded rounds would take too many places -/
  | overBudget
  /-- no round was left -/
  | exhausted

/-- The number of places that the recorded rounds may take. -/
def budget : Nat := pow2 21

/-- Goes through rounds from `d` on; `trace` are the frontiers before the rounds so far. -/
def search (a b : Array α) : (rounds d : Nat) → (trace : List Frontier) → Frontier → Option Outcome
  | 0, _, _, _ => some .exhausted
  | rounds + 1, d, trace, frontier =>
    if budget < (d + 1) * frontier.reach.size then some .overBudget
    else do
      let (next, arrived) ← sweep a b d (d + 1) (-d) frontier
      if arrived then
        return .found (← walkBack a.size b.size [] (frontier :: trace))
      else search a b rounds (d + 1) (frontier :: trace) next

end Frontier

namespace Run

variable {α : Type} [BEq α]

def betweenMiddles (a b : Array α) : List Run :=
  if a.isEmpty || b.isEmpty then replaceAll a.size b.size
  else
    match Frontier.search a b (a.size + b.size + 1) 0 [] (.start a.size b.size) with
    | some (.found runs) => gather 0 0 runs
    | _ => replaceAll a.size b.size

def commonPrefix : List α → List α → Nat
  | x :: xs, y :: ys => if x == y then commonPrefix xs ys + 1 else 0
  | _, _ => 0

def between (a b : List α) : List Run :=
  let front := commonPrefix a b
  let a := a.drop front
  let b := b.drop front
  let back := commonPrefix a.reverse b.reverse
  let middle := betweenMiddles (a.take (a.length - back)).toArray (b.take (b.length - back)).toArray
  normalize (.keep front :: middle ++ [.keep back])

end Run

end JsonEdit
