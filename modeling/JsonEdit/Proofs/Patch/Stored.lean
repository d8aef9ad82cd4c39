import JsonEdit.Proofs.Patch.Document
import JsonEdit.Proofs.Patch.Every
import JsonEdit.Proofs.Path.Text

/-!
# Which patches are recovered from their documents

A patch with any operations in any order is recovered if each step of its paths that lists places lists
two at least, in the patches inside it as well. A list of one place is written as the single step to it,
and is read back as that.
-/

namespace JsonEdit

def PatchParts.addressable : PatchParts where
  path := Path.Addressable
  count n := n < 2 ^ 64

def PatchParts.plural : PatchParts where
  path := Path.Plural

theorem StringEdit.storable_of_every {edit : StringEdit}
    (hrange : edit.Every PatchParts.addressable.count) : edit.Storable := by
  cases edit with
  | insert position text => exact hrange
  | delete position length => exact hrange
  | append text => trivial
  | modify position length text => exact hrange

namespace Operation

mutual

theorem storable_of_every :
    (operation : Operation) → Every .plural operation → Every .addressable operation →
      Storable operation
  | .set _, _, _ => trivial
  | .addNumber _, _, _ => trivial
  | .editString _, _, hrange => fun edit hedit => StringEdit.storable_of_every (hrange edit hedit)
  | .editArray edits, hplural, hrange => storableArrayEdits_of_every edits hplural hrange
  | .editObject edits, hplural, hrange => storableObjectEdits_of_every edits hplural hrange
  | .nested patch, hplural, hrange => storablePatch_of_every patch hplural hrange

theorem storableArrayEdits_of_every :
    (edits : List (SequenceEdit Json Operation)) → EveryArrayEdits .plural edits →
      EveryArrayEdits .addressable edits → StorableArrayEdits edits
  | [], _, _ => trivial
  | .insert _ _ :: rest, hplural, hrange =>
      ⟨hrange.1.1, storableArrayEdits_of_every rest hplural.2 hrange.2⟩
  | .append _ :: rest, hplural, hrange => storableArrayEdits_of_every rest hplural.2 hrange.2
  | .delete _ _ :: rest, hplural, hrange =>
      ⟨hrange.1.1, hrange.1.2, storableArrayEdits_of_every rest hplural.2 hrange.2⟩
  | .modify _ operation :: rest, hplural, hrange =>
      ⟨hrange.1.1, storable_of_every operation hplural.1.2 hrange.1.2,
        storableArrayEdits_of_every rest hplural.2 hrange.2⟩

theorem storableObjectEdits_of_every :
    (edits : List (MapEdit String Json Operation)) → EveryObjectEdits .plural edits →
      EveryObjectEdits .addressable edits → StorableObjectEdits edits
  | [], _, _ => trivial
  | .add _ _ :: rest, hplural, hrange => storableObjectEdits_of_every rest hplural.2 hrange.2
  | .remove _ :: rest, hplural, hrange => storableObjectEdits_of_every rest hplural.2 hrange.2
  | .modify _ operation :: rest, hplural, hrange =>
      ⟨storable_of_every operation hplural.1 hrange.1,
        storableObjectEdits_of_every rest hplural.2 hrange.2⟩

/-- Plural and addressable steps are all that has to be asked of the paths of a stored patch. -/
theorem storablePatch_of_every :
    (patch : List (Path × Operation)) → EveryEntry .plural patch → EveryEntry .addressable patch →
      StorablePatch patch
  | [], _, _ => trivial
  | (_, operation) :: rest, hplural, hrange =>
      ⟨.inr (Path.ofText_text hplural.1 hrange.1),
        storable_of_every operation hplural.2.1 hrange.2.1,
        storablePatch_of_every rest hplural.2.2 hrange.2.2⟩

end

end Operation

/-- **A patch is recovered from its document, with its trees as they are,** if its steps with several
places list at least two. -/
theorem Patch.ofJson_toJson_of_plural {patch : Patch} (hplural : patch.Every .plural)
    (hrange : patch.Every .addressable) : Patch.ofJson patch.toJson = .ok patch :=
  Patch.ofJson_toJson (Operation.storablePatch_of_every patch hplural hrange)

/-- A patch whose steps list several places, outside and inside, with a repeated key in its tree. -/
theorem Patch.ofJson_toJson_of_plural_nested :
    let tree : Json := .object [("k", .null), ("k", .number (.ofInt 1))]
    let patch : Patch :=
      [([.field "a b", .indices [2, 0]], .nested [([.keys ["1", "2"]], .set tree)]),
        ([], .editArray [.delete 0 1, .insert 0 [tree]])]
    patch.Every .plural ∧ patch.Every .addressable ∧ Patch.ofJson patch.toJson = .ok patch := by
  intro tree patch
  have hplural : patch.Every .plural := by
    simp [patch, Patch.Every, Operation.EveryEntry, Operation.Every, Operation.EveryArrayEdits,
      Operation.EveryArrayEdit, PatchParts.plural, Path.Plural, Step.Plural]
  have hrange : patch.Every .addressable := by
    simp [patch, Patch.Every, Operation.EveryEntry, Operation.Every, Operation.EveryArrayEdits,
      Operation.EveryArrayEdit, PatchParts.addressable, Path.Addressable, Step.Addressable]
  exact ⟨hplural, hrange, Patch.ofJson_toJson_of_plural hplural hrange⟩

end JsonEdit
