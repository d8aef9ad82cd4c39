import JsonEdit.Fault
import JsonEdit.Json.Order

/-!
# Patches

A patch is a list of operations, each with the path of the place that it changes. Operations are done
one after the other, each on the tree that the one before it left. An operation sets a value, adds to
a number, edits a string, an array or an object, or applies a whole patch to a value.

Edits of a container are done one after the other too. The edit that changes one child holds an
operation for it.
-/

namespace JsonEdit

inductive PatchMode where
  /-- it fails, and the whole patch with it -/
  | strict
  /-- the least part of it that fails is left out -/
  | lenient
  /-- it fails, but adding a key that exists replaces its value -/
  | clobber
  deriving DecidableEq

namespace PatchMode

def name : PatchMode → String
  | .strict => "strict"
  | .lenient => "lenient"
  | .clobber => "clobber"

def ofName (name : String) : Except Fault PatchMode :=
  match name with
  | "strict" => .ok .strict
  | "lenient" => .ok .lenient
  | "clobber" => .ok .clobber
  | other => .error ⟨.unknownMode other, []⟩

end PatchMode

/-- An edit of a string. Positions and lengths count characters. -/
inductive StringEdit where
  | insert (position : Nat) (text : String)
  | delete (position length : Nat)
  | append (text : String)
  | modify (position length : Nat) (text : String)
  deriving DecidableEq

/-- An edit of a sequence of values of type `α`; `ω` are the operations on them. -/
inductive SequenceEdit (α ω : Type) where
  | insert (position : Nat) (values : List α)
  | append (values : List α)
  | delete (position length : Nat)
  | modify (position : Nat) (operation : ω)

/-- An edit of a map from `κ` to `α`; `ω` are the operations on its values. -/
inductive MapEdit (κ α ω : Type) where
  | add (key : κ) (value : α)
  | remove (key : κ)
  | modify (key : κ) (operation : ω)

inductive Operation where
  | set (value : Json)
  | addNumber (amount : Number)
  | editString (edits : List StringEdit)
  | editArray (edits : List (SequenceEdit Json Operation))
  | editObject (edits : List (MapEdit String Json Operation))
  /-- a patch whose paths begin at the place -/
  | nested (patch : List (Path × Operation))

/-- Operations with the paths of the places that they change, in order. -/
abbrev Patch := List (Path × Operation)

def StringEdit.name : StringEdit → String
  | .insert _ _ => "insert"
  | .delete _ _ => "delete"
  | .append _ => "append"
  | .modify _ _ _ => "modify"

def SequenceEdit.name {α ω : Type} : SequenceEdit α ω → String
  | .insert _ _ => "insert"
  | .append _ => "append"
  | .delete _ _ => "delete"
  | .modify _ _ => "modify"

def MapEdit.name {κ α ω : Type} : MapEdit κ α ω → String
  | .add _ _ => "add"
  | .remove _ => "remove"
  | .modify _ _ => "modify"

namespace Operation

def name : Operation → String
  | .set _ => "set"
  | .addNumber _ => "number_delta"
  | .editString _ => "string_edit"
  | .editArray _ => "array_edit"
  | .editObject _ => "object_edit"
  | .nested _ => "nested"

/-! ### Equality

Two operations are equal if they say the same, with the trees and numbers in them compared by what
they hold. -/

mutual

def same : Operation → Operation → Bool
  | .set value, .set other => value == other
  | .addNumber amount, .addNumber other => amount == other
  | .editString edits, .editString others => edits = others
  | .editArray edits, .editArray others => sameArrayEdits edits others
  | .editObject edits, .editObject others => sameObjectEdits edits others
  | .nested patch, .nested other => samePatch patch other
  | _, _ => false

def sameArrayEdits :
    List (SequenceEdit Json Operation) → List (SequenceEdit Json Operation) → Bool
  | [], [] => true
  | .insert position values :: rest, .insert position' values' :: rest' =>
    position = position' && values == values' && sameArrayEdits rest rest'
  | .append values :: rest, .append values' :: rest' =>
    values == values' && sameArrayEdits rest rest'
  | .delete position length :: rest, .delete position' length' :: rest' =>
    position = position' && length = length' && sameArrayEdits rest rest'
  | .modify position operation :: rest, .modify position' operation' :: rest' =>
    position = position' && same operation operation' && sameArrayEdits rest rest'
  | _, _ => false

def sameObjectEdits :
    List (MapEdit String Json Operation) → List (MapEdit String Json Operation) → Bool
  | [], [] => true
  | .add key value :: rest, .add key' value' :: rest' =>
    key = key' && value == value' && sameObjectEdits rest rest'
  | .remove key :: rest, .remove key' :: rest' => key = key' && sameObjectEdits rest rest'
  | .modify key operation :: rest, .modify key' operation' :: rest' =>
    key = key' && same operation operation' && sameObjectEdits rest rest'
  | _, _ => false

def samePatch : List (Path × Operation) → List (Path × Operation) → Bool
  | [], [] => true
  | (path, operation) :: rest, (path', operation') :: rest' =>
    path = path' && same operation operation' && samePatch rest rest'
  | _, _ => false

end

instance : BEq Operation := ⟨same⟩

end Operation

end JsonEdit
