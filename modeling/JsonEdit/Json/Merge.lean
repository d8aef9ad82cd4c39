import JsonEdit.Json.Locate

/-!
# Merging two trees

Two objects are merged key by key and two arrays position by position. The keys of the left object
keep their places and those that only the right one has come after them, at their first occurrence; of
a repeated key of the left object only the first occurrence takes part. What only one side has stays.
Everything else is settled by the strategy.
-/

namespace JsonEdit

inductive MergeStrategy where
  /-- objects and arrays are merged, otherwise the right value is taken -/
  | deep
  /-- the children of the root are taken from the right -/
  | shallow
  /-- as `deep`, but arrays follow each other -/
  | concat
  /-- two containers of one kind are merged where `descend` holds; all else is up to `settle` -/
  | custom (settle : Path → Json → Json → Json) (descend : Path → Json → Json → Bool)

namespace MergeStrategy

def settling (settle : Path → Json → Json → Json) : MergeStrategy :=
  .custom settle fun _ left _ => left.kind = .object

/-- The value that two values become unless their children are merged. -/
def settled? (strategy : MergeStrategy) (path : Path) (left right : Json) : Option Json :=
  match strategy with
  | .deep => none
  | .shallow => if path.isRoot then none else some right
  | .concat =>
    match left, right with
    | .array lefts, .array rights => some (.array (lefts ++ rights))
    | _, _ => none
  | .custom settle descend =>
    if left.isContainer && left.kind = right.kind && descend path left right then none
    else some (settle path left right)

end MergeStrategy

namespace Json

mutual

def mergeFrom (strategy : MergeStrategy) (path : Path) : Json → Json → Json
  | .object lefts, .object rights =>
    match strategy.settled? path (.object lefts) (.object rights) with
    | some settled => settled
    | none =>
      .object (mergeEntries strategy path rights [] lefts ++
        (Entries.firsts rights).filter fun (key, _) => !Entries.has key lefts)
  | .array lefts, .array rights =>
    match strategy.settled? path (.array lefts) (.array rights) with
    | some settled => settled
    | none => .array (mergeItems strategy path 0 lefts rights)
  | left, right => (strategy.settled? path left right).getD right

/-- Merges the entries of the left side with those of the right side; `seen` are the keys before. -/
def mergeEntries (strategy : MergeStrategy) (path : Path) (rights : List (String × Json))
    (seen : List String) : List (String × Json) → List (String × Json)
  | [] => []
  | (key, left) :: rest =>
    let merged :=
      match Entries.find? key rights with
      | some right =>
        if seen.contains key then left
        else mergeFrom strategy (path.child (.field key)) left right
      | none => left
    (key, merged) :: mergeEntries strategy path rights (key :: seen) rest

def mergeItems (strategy : MergeStrategy) (path : Path) (position : Nat) :
    List Json → List Json → List Json
  | [], rights => rights
  | lefts, [] => lefts
  | left :: lefts, right :: rights =>
    mergeFrom strategy (path.child (.index position)) left right ::
      mergeItems strategy path (position + 1) lefts rights

end

def merge (strategy : MergeStrategy) (left right : Json) : Json :=
  mergeFrom strategy Path.root left right

end Json

end JsonEdit
