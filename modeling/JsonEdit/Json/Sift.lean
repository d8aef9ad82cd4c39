import JsonEdit.Json.Locate

/-!
# Taking a tree apart

A predicate on nodes divides the children of a container between two trees. A child that it holds of
goes to the first tree whole. Another child goes to the second tree; if it is a container, its own
children are divided in the same way, and what the first tree gets of them is kept unless it is empty.
The places that are left keep their order, so positions in arrays close up.
-/

namespace JsonEdit.Json

/-- What the two trees get of a child, given whether it was chosen and how its own children are
divided. -/
def divideChild (chosen : Bool) (child : Json) (parts : Json × Json) : Option Json × Option Json :=
  if chosen then (some child, none)
  else if child.isContainer then
    (if parts.1.isEmptyContainer then none else some parts.1, some parts.2)
  else (none, some child)

mutual

/-- The two trees that the children of a node go to; a node without children goes to both. -/
def divideFrom (chosen : Path → Json → Bool) (path : Path) : Json → Json × Json
  | .array items =>
    let parts := divideItems chosen path 0 items
    (.array (parts.filterMap (·.1)), .array (parts.filterMap (·.2)))
  | .object entries =>
    let parts := divideEntries chosen path entries
    (.object (parts.filterMap fun (key, part) => part.1.map (key, ·)),
      .object (parts.filterMap fun (key, part) => part.2.map (key, ·)))
  | leaf => (leaf, leaf)

def divideItems (chosen : Path → Json → Bool) (path : Path) (position : Nat) :
    List Json → List (Option Json × Option Json)
  | [] => []
  | item :: rest =>
    let here := path.child (.index position)
    divideChild (chosen here item) item (divideFrom chosen here item) ::
      divideItems chosen path (position + 1) rest

def divideEntries (chosen : Path → Json → Bool) (path : Path) :
    List (String × Json) → List (String × (Option Json × Option Json))
  | [] => []
  | (key, value) :: rest =>
    let here := path.child (.field key)
    (key, divideChild (chosen here value) value (divideFrom chosen here value)) ::
      divideEntries chosen path rest

end

def prune (chosen : Path → Json → Bool) (tree : Json) : Json :=
  (divideFrom chosen Path.root tree).2

/-- The nodes below the root that a predicate holds of, in the containers that lead to them. -/
def retain (chosen : Path → Json → Bool) (tree : Json) : Json :=
  (divideFrom chosen Path.root tree).1

/-- Both trees. A root without children goes to one side, and the other side is null. -/
def partition (chosen : Path → Json → Bool) (tree : Json) : Json × Json :=
  if tree.isContainer then divideFrom chosen Path.root tree
  else if chosen Path.root tree then (tree, .null)
  else (.null, tree)

/-- The part of a tree that some paths lead to; null if they lead nowhere. -/
def project (paths : List Path) (tree : Json) : Json :=
  let reached := paths.flatMap fun path => (tree.locate path).map (·.1)
  if reached.isEmpty then .null
  else if reached.any Path.isRoot then tree
  else tree.retain fun path _ => reached.any path.startsWith

end JsonEdit.Json
