import JsonEdit.Json.Schema
import JsonEdit.Patch.Basic
import JsonEdit.Path.Printer

/-!
# The document of a patch

A patch is stored as an array of objects. Each one names its operation under `op`, has the text of its
path under `path`, which the root does not need, and the content of the operation under `value`,
`edits` or `patch`. Edits are objects that name themselves under `op` too. The operation that a child is
changed by stands under `change`, and has no path.

A document that is no patch is refused with the place of the first thing that is missing or of another
kind. Of the fields of an object the path is looked at first, then the name of the operation, then its
content from left to right.
-/

namespace JsonEdit

/-! ### Writing -/

def described (name : String) (fields : List (String × Json)) : Json :=
  .object (("op", .string name) :: fields)

def Json.ofNat (n : Nat) : Json := .number (.ofInt n)

def StringEdit.toJson (edit : StringEdit) : Json :=
  described edit.name <|
    match edit with
    | .insert position text => [("index", .ofNat position), ("text", .string text)]
    | .delete position length => [("index", .ofNat position), ("length", .ofNat length)]
    | .append text => [("text", .string text)]
    | .modify position length text =>
      [("index", .ofNat position), ("length", .ofNat length), ("text", .string text)]

namespace Operation

mutual

def fields : Operation → List (String × Json)
  | .set value => [("value", value)]
  | .addNumber amount => [("value", .number amount)]
  | .editString edits => [("edits", .array (edits.map StringEdit.toJson))]
  | .editArray edits => [("edits", .array (arrayEditsToJson edits))]
  | .editObject edits => [("edits", .array (objectEditsToJson edits))]
  | .nested patch => [("patch", .array (patchToJson patch))]

def arrayEditsToJson : List (SequenceEdit Json Operation) → List Json
  | [] => []
  | .insert position values :: rest =>
    described "insert" [("index", .ofNat position), ("values", .array values)] ::
      arrayEditsToJson rest
  | .append values :: rest => described "append" [("values", .array values)] :: arrayEditsToJson rest
  | .delete position length :: rest =>
    described "delete" [("index", .ofNat position), ("length", .ofNat length)] ::
      arrayEditsToJson rest
  | .modify position operation :: rest =>
    described "modify"
        [("index", .ofNat position), ("change", described operation.name (fields operation))] ::
      arrayEditsToJson rest

def objectEditsToJson : List (MapEdit String Json Operation) → List Json
  | [] => []
  | .add key value :: rest =>
    described "add" [("key", .string key), ("value", value)] :: objectEditsToJson rest
  | .remove key :: rest => described "remove" [("key", .string key)] :: objectEditsToJson rest
  | .modify key operation :: rest =>
    described "modify"
        [("key", .string key), ("change", described operation.name (fields operation))] ::
      objectEditsToJson rest

def patchToJson : List (Path × Operation) → List Json
  | [] => []
  | (path, operation) :: rest =>
    let place := if path.isRoot then [] else [("path", .string path.text)]
    described operation.name (place ++ fields operation) :: patchToJson rest

end

end Operation

def Patch.toJson (patch : Patch) : Json := .array (Operation.patchToJson patch)

/-! ### Reading -/

theorem Entries.sizeOf_lt_of_find? {entries : Entries Json} {key : String} {value : Json}
    (hfound : entries.find? key = some value) : sizeOf value < sizeOf entries := by
  induction entries with
  | nil => cases hfound
  | cons entry rest ih =>
      obtain ⟨other, first⟩ := entry
      rw [List.cons.sizeOf_spec, Prod.mk.sizeOf_spec]
      unfold find? at hfound
      split at hfound
      · cases hfound
        omega
      · have hlt := ih hfound
        omega

namespace Json

/-- A field that the description of an operation has to have. -/
def describedField (name : String) (tree : Json) :
    Except Fault { value : Json // sizeOf value < sizeOf tree } :=
  match tree with
  | .object entries =>
    match hfound : Entries.find? name entries with
    | some value =>
      .ok ⟨value, by
        have hlt := Entries.sizeOf_lt_of_find? hfound
        rw [Json.object.sizeOf_spec]
        omega⟩
    | none => .error ⟨.missingField name, []⟩
  | other => .error ⟨.operationNotObject other.kind, []⟩

def describedValue (schema : Schema) (name : String) (tree : Json) : Except Fault schema.Value := do
  let field ← tree.describedField name
  (schema.decode field.val).mapError (Fault.within (.field name))

def describedText (name : String) (tree : Json) : Except Fault String :=
  tree.describedValue .string name

def describedCount (name : String) (tree : Json) : Except Fault Nat :=
  (tree.describedValue (.integer .usize) name).map fun count => count.val.toNat

def describedTrees (name : String) (tree : Json) : Except Fault (List Json) :=
  tree.describedValue (.list .json) name

def describedEdits (tree : Json) : Except Fault { edits : List Json // sizeOf edits < sizeOf tree } :=
  (tree.describedField "edits").bind fun
    | ⟨.array edits, smaller⟩ =>
      .ok ⟨edits, by
        simp at smaller
        omega⟩
    | ⟨other, _⟩ => .error ⟨.editsNotArray other.kind, [.field "edits"]⟩

def describedPath (tree : Json) : Except Fault Path :=
  match tree.field? "path" with
  | none => .ok Path.root
  | some value =>
    ((Schema.string.decode value).bind Path.ofText).mapError (Fault.within (.field "path"))

def unknownName {α : Type} (what name : String) : Except Fault α :=
  .error ⟨.unknownName what name, [.field "op"]⟩

end Json

def StringEdit.ofJson (tree : Json) : Except Fault StringEdit := do
  match ← tree.describedText "op" with
  | "insert" => return .insert (← tree.describedCount "index") (← tree.describedText "text")
  | "delete" => return .delete (← tree.describedCount "index") (← tree.describedCount "length")
  | "append" => return .append (← tree.describedText "text")
  | "modify" =>
    return .modify (← tree.describedCount "index") (← tree.describedCount "length")
      (← tree.describedText "text")
  | other => Json.unknownName "string edit" other

namespace Operation

mutual

def ofJson (tree : Json) : Except Fault Operation := do
  match ← tree.describedText "op" with
  | "set" => return .set (← tree.describedField "value").val
  | "number_delta" => return .addNumber (← tree.describedValue .number "value")
  | "string_edit" =>
    let edits ← tree.describedEdits
    return .editString
      (← (Schema.decodeItems StringEdit.ofJson 0 edits.val).mapError (Fault.within (.field "edits")))
  | "array_edit" =>
    let ⟨edits, _⟩ ← tree.describedEdits
    return .editArray (← (arrayEditsOfJson 0 edits).mapError (Fault.within (.field "edits")))
  | "object_edit" =>
    let ⟨edits, _⟩ ← tree.describedEdits
    return .editObject (← (objectEditsOfJson 0 edits).mapError (Fault.within (.field "edits")))
  | "nested" =>
    let ⟨patch, _⟩ ← tree.describedField "patch"
    return .nested (← (patchOfJson patch).mapError (Fault.within (.field "patch")))
  | other => Json.unknownName "operation" other
  termination_by (sizeOf tree, 0)

def arrayEditOfJson (tree : Json) : Except Fault (SequenceEdit Json Operation) := do
  match ← tree.describedText "op" with
  | "insert" => return .insert (← tree.describedCount "index") (← tree.describedTrees "values")
  | "append" => return .append (← tree.describedTrees "values")
  | "delete" => return .delete (← tree.describedCount "index") (← tree.describedCount "length")
  | "modify" =>
    let position ← tree.describedCount "index"
    let ⟨change, _⟩ ← tree.describedField "change"
    return .modify position (← (ofJson change).mapError (Fault.within (.field "change")))
  | other => Json.unknownName "array edit" other
  termination_by (sizeOf tree, 0)

def objectEditOfJson (tree : Json) : Except Fault (MapEdit String Json Operation) := do
  match ← tree.describedText "op" with
  | "add" => return .add (← tree.describedText "key") (← tree.describedField "value").val
  | "remove" => return .remove (← tree.describedText "key")
  | "modify" =>
    let key ← tree.describedText "key"
    let ⟨change, _⟩ ← tree.describedField "change"
    return .modify key (← (ofJson change).mapError (Fault.within (.field "change")))
  | other => Json.unknownName "object edit" other
  termination_by (sizeOf tree, 0)

def arrayEditsOfJson (position : Nat) : List Json → Except Fault (List (SequenceEdit Json Operation))
  | [] => .ok []
  | tree :: rest => do
    let edit ← (arrayEditOfJson tree).mapError (Fault.within (.index position))
    return edit :: (← arrayEditsOfJson (position + 1) rest)
  termination_by trees => (sizeOf trees, 0)

def objectEditsOfJson (position : Nat) :
    List Json → Except Fault (List (MapEdit String Json Operation))
  | [] => .ok []
  | tree :: rest => do
    let edit ← (objectEditOfJson tree).mapError (Fault.within (.index position))
    return edit :: (← objectEditsOfJson (position + 1) rest)
  termination_by trees => (sizeOf trees, 0)

def patchOfJson : Json → Except Fault (List (Path × Operation))
  | .array trees => stepsOfJson 0 trees
  | other => .error ⟨.patchNotArray other.kind, []⟩
  termination_by tree => (sizeOf tree, 0)

def stepsOfJson (position : Nat) : List Json → Except Fault (List (Path × Operation))
  | [] => .ok []
  | tree :: rest => do
    let path ← tree.describedPath.mapError (Fault.within (.index position))
    let operation ← (ofJson tree).mapError (Fault.within (.index position))
    return (path, operation) :: (← stepsOfJson (position + 1) rest)
  termination_by trees => (sizeOf trees, 0)

end

end Operation

def Patch.ofJson (tree : Json) : Except Fault Patch := Operation.patchOfJson tree

end JsonEdit
