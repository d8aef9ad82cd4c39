import JsonEdit.Patch.Basic

/-!
# Properties of all parts of a patch

What is asked of a patch is often asked of all its paths, of all positions and lengths in its edits, or of
all trees that it carries: at every depth, and in the patches inside it as well.
-/

namespace JsonEdit

structure PatchParts where
  path : Path → Prop := fun _ => True
  count : Nat → Prop := fun _ => True
  tree : Json → Prop := fun _ => True

def StringEdit.Every (count : Nat → Prop) : StringEdit → Prop
  | .insert position _ => count position
  | .delete position length | .modify position length _ => count position ∧ count length
  | .append _ => True

namespace Operation

variable (parts : PatchParts)

mutual

def Every : Operation → Prop
  | .set value => parts.tree value
  | .addNumber _ => True
  | .editString edits => ∀ edit ∈ edits, edit.Every parts.count
  | .editArray edits => EveryArrayEdits edits
  | .editObject edits => EveryObjectEdits edits
  | .nested patch => EveryEntry patch

def EveryArrayEdits : List (SequenceEdit Json Operation) → Prop
  | [] => True
  | edit :: rest => EveryArrayEdit edit ∧ EveryArrayEdits rest

def EveryArrayEdit : SequenceEdit Json Operation → Prop
  | .insert position values => parts.count position ∧ ∀ value ∈ values, parts.tree value
  | .append values => ∀ value ∈ values, parts.tree value
  | .delete position length => parts.count position ∧ parts.count length
  | .modify position operation => parts.count position ∧ Every operation

def EveryObjectEdits : List (MapEdit String Json Operation) → Prop
  | [] => True
  | edit :: rest => EveryObjectEdit edit ∧ EveryObjectEdits rest

def EveryObjectEdit : MapEdit String Json Operation → Prop
  | .add _ value => parts.tree value
  | .remove _ => True
  | .modify _ operation => Every operation

def EveryEntry : List (Path × Operation) → Prop
  | [] => True
  | (path, operation) :: rest => parts.path path ∧ Every operation ∧ EveryEntry rest

end

end Operation

def Patch.Every (parts : PatchParts) (patch : Patch) : Prop := Operation.EveryEntry parts patch

end JsonEdit
