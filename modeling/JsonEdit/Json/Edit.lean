import JsonEdit.Json.Locate

/-!
# Edits along a path

Setting, inserting, deleting and modifying come in two forms. The one whose name begins with `try`
fails if nothing can be done; the other then gives the tree back as it was. Setting and modifying
replace values at places that exist. Inserting adds one entry or element to each place of the parent
path, and never replaces one. Deleting a key removes all its entries.
-/

namespace JsonEdit.Json

def changedOr (fault : Fault) : Except Fault (Option Json) → Except Fault Json
  | .ok (some new) => .ok new
  | .ok none => .error fault
  | .error other => .error other

def changedOrSame (tree : Json) : Except Fault (Option Json) → Json
  | .ok (some new) => new
  | _ => tree

def orSame (tree : Json) : Except Fault Json → Json
  | .ok new => new
  | .error _ => tree

/-! ### Setting -/

/-- A new value at every place of a path; there has to be one. -/
def trySet (tree : Json) (path : Path) (new : Json) : Except Fault Json :=
  changedOr ⟨.unresolved, path⟩ (tree.update (fun _ _ => .ok (some new)) path)

def set (tree : Json) (path : Path) (new : Json) : Json := tree.orSame (tree.trySet path new)

/-! ### Inserting -/

/-- A container with a new child; `path` is the path of the container. -/
def insertChild (path : Path) (step : Step) (new container : Json) : Except Fault Json :=
  match container, step.entryKey?, step.position? with
  | .object entries, some key, _ =>
    if Entries.has key entries then .error ⟨.keyExists, path.child (.field key)⟩
    else .ok (.object (entries ++ [(key, new)]))
  | .array items, _, some position =>
    if items.length < position then
      .error ⟨.positionPastEnd position items.length, path.child (.index position)⟩
    else .ok (.array (items.take position ++ new :: items.drop position))
  | _, _, _ =>
    if step.isWildcard then .error ⟨.insertAtWildcard step, path⟩
    else .error ⟨.insertInto step container.kind, path⟩

/-- A new child at every place of the parent path; there has to be one, and each has to take it. -/
def tryInsert (tree : Json) (path : Path) (new : Json) : Except Fault Json :=
  match path.splitLast? with
  | none => .error ⟨.insertAtRoot, []⟩
  | some (parent, step) =>
    changedOr ⟨.unresolvedParent, parent⟩
      (tree.update (fun place container => (insertChild place step new container).map some) parent)

def insert (tree : Json) (path : Path) (new : Json) : Json :=
  match path.splitLast? with
  | none => tree
  | some (parent, step) =>
    tree.changedOrSame <|
      tree.update (fun place container => .ok (insertChild place step new container).toOption) parent

/-! ### Deleting -/

/-- A container without the children that a step leads to, if there are any to delete. -/
def deleteChildren (step : Step) (container : Json) : Option Json :=
  match container, step with
  | .object entries, .field key | .object entries, .key key =>
    if Entries.has key entries then some (.object (Entries.erase key entries)) else none
  | .object entries, .keys keys =>
    let kept := entries.filter fun (key, _) => !keys.contains key
    if kept.length < entries.length then some (.object kept) else none
  | .object _, .values | .object _, .names => some (.object [])
  | .array items, .index position =>
    if position < items.length then some (.array (items.eraseIdx position)) else none
  | .array items, .indices positions =>
    let kept := items.zipIdx.filter fun (_, position) => !positions.contains position
    if kept.length < items.length then some (.array (kept.map (·.1))) else none
  | .array _, .elements => some (.array [])
  | _, _ => none

/-- The tree without the places of a path; something has to be deleted. -/
def tryDelete (tree : Json) (path : Path) : Except Fault Json :=
  match path.splitLast? with
  | none => .error ⟨.deleteRoot, []⟩
  | some (parent, step) =>
    changedOr ⟨.unresolved, path⟩
      (tree.update (fun _ container => .ok (deleteChildren step container)) parent)

def delete (tree : Json) (path : Path) : Json := tree.orSame (tree.tryDelete path)

/-! ### Modifying -/

/-- The values at the places of a path replaced by their images; there has to be a place, and each
value has to have an image. -/
def tryModify (tree : Json) (path : Path) (image : Json → Option Json) : Except Fault Json :=
  changedOr ⟨.unresolved, path⟩ <|
    tree.update (fun place value =>
      match image value with
      | some new => .ok (some new)
      | none => .error ⟨.outsideDomain, place⟩) path

/-- The values at the places of a path replaced by their images, where they have one. -/
def modify (tree : Json) (path : Path) (image : Json → Option Json) : Json :=
  tree.changedOrSame (tree.update (fun _ value => .ok (image value)) path)

end JsonEdit.Json
