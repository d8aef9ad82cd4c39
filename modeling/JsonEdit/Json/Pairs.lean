import JsonEdit.Json.Fold

/-!
# Trees as pairs

A tree is spelled out as a list of its leaves and empty containers with their paths. From such a list
it is built again: a field makes an object, and a position an array whose elements come in order.
-/

namespace JsonEdit.Json

def isLeaf (node : Json) : Bool := !node.isContainer || node.isEmptyContainer

/-- The leaves and empty containers with their paths, in the order of the document. -/
def toPairs (tree : Json) : List (Path × Json) :=
  (tree.nodes .parentFirst).filter fun (_, value) => value.isLeaf

/-- The entries of a place that is an object or has no value yet. -/
def entriesAt (trail : Path) : Option Json → Except Fault (Entries Json)
  | none => .ok []
  | some (.object entries) => .ok entries
  | some other => .error ⟨.expectedContainer .object other.kind, trail⟩

def itemsAt (trail : Path) : Option Json → Except Fault (List Json)
  | none => .ok []
  | some (.array items) => .ok items
  | some other => .error ⟨.expectedContainer .array other.kind, trail⟩

/-- The value of a place after a value has been put where a path leads from there. -/
def putAt (value : Json) (trail : Path) : Path → Option Json → Except Fault Json
  | [], _ => .ok value
  | .field key :: rest, target | .key key :: rest, target => do
    let entries ← entriesAt trail target
    let child ← putAt value (trail.child (.field key)) rest (entries.find? key)
    return .object (entries.put key child)
  | .index position :: rest, target => do
    let items ← itemsAt trail target
    if items.length < position then throw ⟨.gapInArray position items.length, trail⟩
    let child ← putAt value (trail.child (.index position)) rest items[position]?
    return .array (if position = items.length then items ++ [child] else items.set position child)
  | step :: _, _ => .error ⟨.wildcardInPairs step, trail⟩

/-- The tree that is built from pairs, one after the other; null if there are none. -/
def ofPairs (pairs : List (Path × Json)) : Except Fault Json := do
  let built ← pairs.foldlM (fun target (path, value) => some <$> putAt value Path.root path target)
    none
  return built.getD .null

end JsonEdit.Json
