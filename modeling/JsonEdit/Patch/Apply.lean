import JsonEdit.Json.Locate
import JsonEdit.Patch.Basic

/-!
# Applying a patch

Under the strict modes the path of an operation has to lead to exactly one place, and the first thing
that cannot be done ends the application. Under the lenient mode an operation is done at every place of
its path. What cannot be done is left out: an operation at one place, or one edit of a string, an array
or an object. An edit that is left out leaves the value as it was before the edit.

Faults are reported at the place in the outermost tree.
-/

namespace JsonEdit

namespace PatchMode

/-- What is kept under a mode if something cannot be done. -/
def recover {α : Type} (mode : PatchMode) (keep : α) (result : Except Fault α) : Except Fault α :=
  match result, mode with
  | .ok value, _ => .ok value
  | .error _, .lenient => .ok keep
  | .error fault, _ => .error fault

end PatchMode

/-! ### Edits of sequences -/

namespace SequenceEdit

def insertAll {α : Type} (items values : List α) (position : Nat) : List α :=
  items.take position ++ values ++ items.drop position

def replaceRange {α : Type} (items values : List α) (position length : Nat) : List α :=
  items.take position ++ values ++ items.drop (position + length)

end SequenceEdit

namespace StringEdit

/-- The characters after an edit; `path` is the place of the string. -/
def apply (path : Path) (chars : List Char) : StringEdit → Except Fault (List Char)
  | .insert position text =>
    if chars.length < position then
      .error ⟨.insertOutOfRange position .string chars.length, path⟩
    else .ok (SequenceEdit.insertAll chars text.toList position)
  | .delete position length =>
    if chars.length < position + length then
      .error ⟨.rangeOutOfRange position length .string chars.length, path⟩
    else .ok (SequenceEdit.replaceRange chars [] position length)
  | .append text => .ok (chars ++ text.toList)
  | .modify position length text =>
    if chars.length < position + length then
      .error ⟨.rangeOutOfRange position length .string chars.length, path⟩
    else .ok (SequenceEdit.replaceRange chars text.toList position length)

def applyAll (mode : PatchMode) (path : Path) : List StringEdit → List Char →
    Except Fault (List Char)
  | [], chars => .ok chars
  | edit :: rest, chars =>
    (mode.recover chars (edit.apply path chars)).bind (applyAll mode path rest)

end StringEdit

namespace Operation

def mismatch (operation : Operation) (required : Json.Kind) (path : Path) (value : Json) : Fault :=
  ⟨.operationRequires operation.name required value.kind, path⟩

/-- The tree after a change at the places of a path; `base` is the place of the tree, and `change` is
given the places in the outermost tree. -/
def applyAt (mode : PatchMode) (base path : Path) (change : Path → Json → Except Fault Json)
    (tree : Json) : Except Fault Json :=
  mode.recover tree <|
    match mode, tree.locateFrom base path with
    | _, [] => .error ⟨.unresolved, base ++ path⟩
    | .strict, (place, value) :: _ :: _ | .clobber, (place, value) :: _ :: _ => do
      let new ← change place value
      if path.getLast? = some .names && new.kind ≠ .string then
        throw ⟨.namesMustBeStrings new.kind, place⟩
      throw ⟨.ambiguous, base ++ path⟩
    | _, _ =>
      (tree.updateFrom (fun place value => (change place value).map some) base path).map
        (·.getD tree)

mutual

def apply (mode : PatchMode) (path : Path) : Operation → Json → Except Fault Json
  | .set new, _ => .ok new
  | .addNumber amount, value =>
    mode.recover value <|
      match value with
      | .number number =>
        match number.add? amount with
        | some sum => .ok (.number sum)
        | none => .error ⟨.inexactSum number amount, path⟩
      | other => .error ((addNumber amount).mismatch .number path other)
  | .editString edits, value =>
    match value with
    | .string text =>
      (StringEdit.applyAll mode path edits text.toList).map fun chars =>
        .string (String.ofList chars)
    | other => mode.recover value (.error ((editString edits).mismatch .string path other))
  | .editArray edits, value =>
    match value with
    | .array items => (applyArrayEdits mode path edits items).map .array
    | other => mode.recover value (.error ((editArray edits).mismatch .array path other))
  | .editObject edits, value =>
    match value with
    | .object entries => (applyObjectEdits mode path edits entries).map .object
    | other => mode.recover value (.error ((editObject edits).mismatch .object path other))
  | .nested patch, value => applyPatch mode path patch value

def applyArrayEdits (mode : PatchMode) (path : Path) :
    List (SequenceEdit Json Operation) → List Json → Except Fault (List Json)
  | [], items => .ok items
  | edit :: rest, items =>
    (mode.recover items (applyArrayEdit mode path edit items)).bind
      (applyArrayEdits mode path rest)

def applyArrayEdit (mode : PatchMode) (path : Path) :
    SequenceEdit Json Operation → List Json → Except Fault (List Json)
  | .insert position values, items =>
    if items.length < position then
      .error ⟨.insertOutOfRange position .array items.length, path⟩
    else .ok (SequenceEdit.insertAll items values position)
  | .append values, items => .ok (items ++ values)
  | .delete position length, items =>
    if items.length < position + length then
      .error ⟨.rangeOutOfRange position length .array items.length, path⟩
    else .ok (SequenceEdit.replaceRange items [] position length)
  | .modify position operation, items =>
    match items[position]? with
    | none => .error ⟨.elementOutOfRange position items.length, path⟩
    | some item =>
      (apply mode (path.child (.index position)) operation item).map fun new =>
        items.set position new

def applyObjectEdits (mode : PatchMode) (path : Path) :
    List (MapEdit String Json Operation) → Entries Json → Except Fault (Entries Json)
  | [], entries => .ok entries
  | edit :: rest, entries =>
    (mode.recover entries (applyObjectEdit mode path edit entries)).bind
      (applyObjectEdits mode path rest)

def applyObjectEdit (mode : PatchMode) (path : Path) :
    MapEdit String Json Operation → Entries Json → Except Fault (Entries Json)
  | .add key value, entries =>
    if entries.has key && mode ≠ .clobber then .error ⟨.keyExists, path.child (.field key)⟩
    else .ok (entries.put key value)
  | .remove key, entries =>
    if entries.has key then .ok (entries.erase key)
    else .error ⟨.keyMissing, path.child (.field key)⟩
  | .modify key operation, entries =>
    match entries.find? key with
    | none => .error ⟨.keyMissing, path.child (.field key)⟩
    | some value =>
      (apply mode (path.child (.field key)) operation value).map fun new =>
        entries.replace key new

def applyPatch (mode : PatchMode) (base : Path) :
    List (Path × Operation) → Json → Except Fault Json
  | [], tree => .ok tree
  | (path, operation) :: rest, tree =>
    (applyAt mode base path (fun place value => apply mode place operation value) tree).bind
      (applyPatch mode base rest)

end

end Operation

def Patch.apply (patch : Patch) (mode : PatchMode) (tree : Json) : Except Fault Json :=
  Operation.applyPatch mode Path.root patch tree

end JsonEdit
