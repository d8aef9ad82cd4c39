import JsonEdit.Json.Sift

/-!
# Changing every node

A tree is changed from the leaves up, where a node is changed after its children, or from the root
down, where the children of the changed node are changed next. The paths that a change is given are
those of the node at the time: on the way up the paths of the tree as it was, on the way down the paths
in the changed tree.

From the root down there is an end only if the changes do not keep adding children, so the depth is
bounded by the caller.
-/

namespace JsonEdit.Json

mutual

/-- Changes the nodes of a tree whose path is `path`, children first. -/
def transformUpFrom (change : Path → Json → Json) (path : Path) : Json → Json
  | .array items => change path (.array (transformUpItems change path 0 items))
  | .object entries => change path (.object (transformUpEntries change path entries))
  | leaf => change path leaf

def transformUpItems (change : Path → Json → Json) (path : Path) (position : Nat) :
    List Json → List Json
  | [] => []
  | item :: rest =>
    transformUpFrom change (path.child (.index position)) item ::
      transformUpItems change path (position + 1) rest

def transformUpEntries (change : Path → Json → Json) (path : Path) :
    List (String × Json) → List (String × Json)
  | [] => []
  | (key, value) :: rest =>
    (key, transformUpFrom change (path.child (.field key)) value) ::
      transformUpEntries change path rest

end

def transformUp (change : Path → Json → Json) (tree : Json) : Json :=
  transformUpFrom change Path.root tree

def mapChildren (image : Step → Json → Json) : Json → Json
  | .array items => .array (items.mapIdx fun position item => image (.index position) item)
  | .object entries => .object (entries.map fun (key, value) => (key, image (.field key) value))
  | leaf => leaf

/-- Changes the nodes of a tree whose path is `path`, parents first, down to a depth. -/
def transformDownFrom (change : Path → Json → Json) : (depth : Nat) → Path → Json → Json
  | 0, _, tree => tree
  | depth + 1, path, tree =>
    (change path tree).mapChildren fun step child =>
      transformDownFrom change depth (path.child step) child

def transformDown (change : Path → Json → Json) (depth : Nat) (tree : Json) : Json :=
  transformDownFrom change depth Path.root tree

mutual

def renameKeysFrom (rename : Path → String → String) (path : Path) : Json → Json
  | .array items => .array (renameKeysItems rename path 0 items)
  | .object entries => .object (renameKeysEntries rename path entries)
  | leaf => leaf

def renameKeysItems (rename : Path → String → String) (path : Path) (position : Nat) :
    List Json → List Json
  | [] => []
  | item :: rest =>
    renameKeysFrom rename (path.child (.index position)) item ::
      renameKeysItems rename path (position + 1) rest

def renameKeysEntries (rename : Path → String → String) (path : Path) :
    List (String × Json) → List (String × Json)
  | [] => []
  | (key, value) :: rest =>
    (rename path key, renameKeysFrom rename (path.child (.field key)) value) ::
      renameKeysEntries rename path rest

end

/-- Renames every key. The new name may depend on the path of the object that holds the key. -/
def renameKeys (rename : Path → String → String) (tree : Json) : Json :=
  renameKeysFrom rename Path.root tree

/-! ### Normal form -/

def sortEntries : Json → Json
  | .object entries => .object (Entries.sorted entries)
  | other => other

def dropEmptyChildren : Json → Json
  | .array items => .array (items.filter fun item => !item.isEmptyContainer)
  | .object entries => .object (entries.filter fun (_, value) => !value.isEmptyContainer)
  | leaf => leaf

def sortKeys (tree : Json) : Json := tree.transformUp fun _ node => node.sortEntries

/-- The tree without the nulls below its root. -/
def dropNulls (tree : Json) : Json := tree.prune fun _ value => value.isNull

/-- The tree without the containers below its root that are empty or become so. -/
def dropEmpty (tree : Json) : Json := tree.transformUp fun _ node => node.dropEmptyChildren

/-- The tree without nulls, then without empty containers, with its keys in order. -/
def normalize (tree : Json) : Json := tree.dropNulls.dropEmpty.sortKeys

end JsonEdit.Json
