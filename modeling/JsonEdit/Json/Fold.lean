import JsonEdit.Json.Locate

/-!
# Visiting every node

A fold visits every node of a tree once and carries a value along. It visits a parent before its
children or after them, and siblings in the order of the document. A visit may fail, which ends the
fold. The nodes in the order in which a fold visits them are also a list, with their paths.
-/

namespace JsonEdit.Json

inductive VisitOrder where
  | parentFirst
  | parentLast
  deriving DecidableEq

variable {β ε : Type}

mutual

/-- Visits the nodes of a tree whose path is `path`. -/
def foldFrom (order : VisitOrder) (visit : Path → Json → β → Except ε β) (path : Path) :
    Json → β → Except ε β
  | .array items, carried =>
    match order with
    | .parentFirst =>
      (visit path (.array items) carried).bind (foldItems order visit path 0 items)
    | .parentLast =>
      (foldItems order visit path 0 items carried).bind (visit path (.array items))
  | .object entries, carried =>
    match order with
    | .parentFirst =>
      (visit path (.object entries) carried).bind (foldEntries order visit path entries)
    | .parentLast =>
      (foldEntries order visit path entries carried).bind (visit path (.object entries))
  | leaf, carried => visit path leaf carried

def foldItems (order : VisitOrder) (visit : Path → Json → β → Except ε β) (path : Path)
    (position : Nat) : List Json → β → Except ε β
  | [], carried => .ok carried
  | item :: rest, carried =>
    (foldFrom order visit (path.child (.index position)) item carried).bind
      (foldItems order visit path (position + 1) rest)

def foldEntries (order : VisitOrder) (visit : Path → Json → β → Except ε β) (path : Path) :
    List (String × Json) → β → Except ε β
  | [], carried => .ok carried
  | (key, value) :: rest, carried =>
    (foldFrom order visit (path.child (.field key)) value carried).bind
      (foldEntries order visit path rest)

end

def tryFold (order : VisitOrder) (visit : Path → Json → β → Except ε β) (tree : Json) (start : β) :
    Except ε β :=
  foldFrom order visit Path.root tree start

mutual

def nodesFrom (order : VisitOrder) (path : Path) : Json → List (Path × Json)
  | .array items =>
    match order with
    | .parentFirst => (path, .array items) :: nodesOfItems order path 0 items
    | .parentLast => nodesOfItems order path 0 items ++ [(path, .array items)]
  | .object entries =>
    match order with
    | .parentFirst => (path, .object entries) :: nodesOfEntries order path entries
    | .parentLast => nodesOfEntries order path entries ++ [(path, .object entries)]
  | leaf => [(path, leaf)]

def nodesOfItems (order : VisitOrder) (path : Path) (position : Nat) :
    List Json → List (Path × Json)
  | [] => []
  | item :: rest =>
    nodesFrom order (path.child (.index position)) item ++
      nodesOfItems order path (position + 1) rest

def nodesOfEntries (order : VisitOrder) (path : Path) :
    List (String × Json) → List (Path × Json)
  | [] => []
  | (key, value) :: rest =>
    nodesFrom order (path.child (.field key)) value ++ nodesOfEntries order path rest

end

def nodes (order : VisitOrder) (tree : Json) : List (Path × Json) := nodesFrom order Path.root tree

/-- The nodes that a predicate holds of, parents first. -/
def query (chosen : Path → Json → Bool) (tree : Json) : List Json :=
  ((tree.nodes .parentFirst).filter fun (path, value) => chosen path value).map (·.2)

end JsonEdit.Json
