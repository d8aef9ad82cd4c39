import JsonEdit.Patch.Dynamic
import JsonEdit.Proofs.Json.Exchange
import JsonEdit.Proofs.Patch.Every
import JsonEdit.Proofs.Patch.Renumbered

/-!
# Patches in their dynamic form and back

The dynamic form of a patch can always be turned into a patch again. On the way a number may become the
integer that it is equal to, and repeated keys are lost. If there are none, the patch that comes back
differs from the first one in its numbers only, and they can stand for one another: it does the same to
every tree.
-/

namespace JsonEdit

/-! ### Numbers and trees -/

/-- A tree without repeated keys comes back with numbers that can stand for its own. -/
theorem Dynamic.renumbered_toJson_ofJson {tree : Json} (hkeyed : tree.Keyed) :
    tree.Renumbered Number.Alike (Dynamic.ofJson tree).toJson := by
  induction tree using Json.induct with
  | null => exact .null
  | bool value => exact .bool value
  | string value => exact .string value
  | number value =>
      obtain ⟨back, hback, halike⟩ := exists_toJson_ofNumber value
      rw [ofJson, hback]
      exact .number halike
  | array items ih =>
      have hitems := Json.keyed_array.mp hkeyed
      rw [toJson_ofJson_array]
      refine .array (List.forall₂_map_right_iff.mpr (List.forall₂_same.mpr ?_))
      exact fun item hitem => ih item hitem (hitems item hitem)
  | object entries ih =>
      obtain ⟨hdistinct, hentries⟩ := Json.keyed_object.mp hkeyed
      -- the record takes first occurrences only, and here there are no others
      rw [toJson_ofJson_object, hdistinct.firsts_eq]
      refine .object (List.forall₂_map_right_iff.mpr (List.forall₂_same.mpr ?_))
      exact fun entry hentry => .mk entry.1 (ih entry hentry (hentries entry hentry))

theorem Dynamic.renumbered_map_ofJson {values : List Json} (hkeyed : ∀ value ∈ values, value.Keyed) :
    List.Forall₂ (Json.Renumbered Number.Alike) values
      ((values.map Dynamic.ofJson).map Dynamic.toJson) := by
  rw [List.map_map]
  refine List.forall₂_map_right_iff.mpr (List.forall₂_same.mpr ?_)
  exact fun value hvalue => renumbered_toJson_ofJson (hkeyed value hvalue)

/-! ### Operations -/

def PatchParts.keyed : PatchParts where
  tree := Json.Keyed

namespace Operation

theorem exists_toJson_dynamicAddition (amount : Number) :
    ∃ back, (dynamicAddition amount).toJson = .ok (.addNumber back) ∧ amount.Alike back := by
  unfold dynamicAddition
  split
  · exact ⟨_, rfl, Number.alike_ofInt ‹_›⟩
  · split
    · exact ⟨_, rfl, Number.alike_ofInt ‹_›⟩
    · exact ⟨amount, rfl, .refl amount⟩

mutual

theorem exists_toJson_toDynamic :
    (operation : Operation) → Every .keyed operation →
      ∃ back, operation.toDynamic.toJson = .ok back ∧ Renumbered Number.Alike operation back
  | .set value, hkeyed => ⟨_, rfl, .set (Dynamic.renumbered_toJson_ofJson hkeyed)⟩
  | .addNumber amount, _ => by
      obtain ⟨back, hback, halike⟩ := exists_toJson_dynamicAddition amount
      exact ⟨_, hback, .addNumber halike⟩
  | .editString edits, _ => ⟨_, rfl, .editString edits⟩
  | .editArray edits, hkeyed => by
      obtain ⟨back, hback, hsame⟩ := exists_toJson_arrayEditsToDynamic edits hkeyed
      refine ⟨.editArray back, ?_, .editArray hsame⟩
      rw [toDynamic, DynamicOperation.toJson, hback]
      rfl
  | .editObject edits, hkeyed => by
      obtain ⟨back, hback, hsame⟩ := exists_toJson_objectEditsToDynamic edits hkeyed
      refine ⟨.editObject back, ?_, .editObject hsame⟩
      rw [toDynamic, DynamicOperation.toJson, hback]
      rfl
  | .nested patch, hkeyed => by
      obtain ⟨back, hback, hsame⟩ := exists_toJson_patchToDynamic patch hkeyed
      refine ⟨.nested back, ?_, .nested hsame⟩
      rw [toDynamic, DynamicOperation.toJson, hback]
      rfl

theorem exists_toJson_arrayEditsToDynamic :
    (edits : List (SequenceEdit Json Operation)) → EveryArrayEdits .keyed edits →
      ∃ back, DynamicOperation.sequenceEditsToJson (arrayEditsToDynamic edits) = .ok back ∧
        List.Forall₂ (RenumberedArrayEdit Number.Alike) edits back
  | [], _ => ⟨[], rfl, .nil⟩
  | .insert position values :: rest, ⟨hedit, hrest⟩ => by
      obtain ⟨back, hback, hsame⟩ := exists_toJson_arrayEditsToDynamic rest hrest
      have hvalues := Dynamic.renumbered_map_ofJson hedit.2
      refine ⟨_, ?_, .cons (.insert position hvalues) hsame⟩
      rw [arrayEditsToDynamic, DynamicOperation.sequenceEditsToJson, hback]
      rfl
  | .append values :: rest, ⟨hedit, hrest⟩ => by
      obtain ⟨back, hback, hsame⟩ := exists_toJson_arrayEditsToDynamic rest hrest
      have hvalues := Dynamic.renumbered_map_ofJson hedit
      refine ⟨_, ?_, .cons (.append hvalues) hsame⟩
      rw [arrayEditsToDynamic, DynamicOperation.sequenceEditsToJson, hback]
      rfl
  | .delete position length :: rest, ⟨_, hrest⟩ => by
      obtain ⟨back, hback, hsame⟩ := exists_toJson_arrayEditsToDynamic rest hrest
      refine ⟨_, ?_, .cons (.delete position length) hsame⟩
      rw [arrayEditsToDynamic, DynamicOperation.sequenceEditsToJson, hback]
      rfl
  | .modify position operation :: rest, ⟨hedit, hrest⟩ => by
      obtain ⟨change, hchange, hoperation⟩ := exists_toJson_toDynamic operation hedit.2
      obtain ⟨back, hback, hsame⟩ := exists_toJson_arrayEditsToDynamic rest hrest
      refine ⟨_, ?_, .cons (.modify position hoperation) hsame⟩
      rw [arrayEditsToDynamic, DynamicOperation.sequenceEditsToJson, hchange, hback]
      rfl

theorem exists_toJson_objectEditsToDynamic :
    (edits : List (MapEdit String Json Operation)) → EveryObjectEdits .keyed edits →
      ∃ back, DynamicOperation.mapEditsToJson (objectEditsToDynamic edits) = .ok back ∧
        List.Forall₂ (RenumberedObjectEdit Number.Alike) edits back
  | [], _ => ⟨[], rfl, .nil⟩
  | .add key value :: rest, ⟨hedit, hrest⟩ => by
      obtain ⟨back, hback, hsame⟩ := exists_toJson_objectEditsToDynamic rest hrest
      refine ⟨_, ?_, .cons (.add key (Dynamic.renumbered_toJson_ofJson hedit)) hsame⟩
      rw [objectEditsToDynamic, DynamicOperation.mapEditsToJson, hback]
      rfl
  | .remove key :: rest, ⟨_, hrest⟩ => by
      obtain ⟨back, hback, hsame⟩ := exists_toJson_objectEditsToDynamic rest hrest
      refine ⟨_, ?_, .cons (.remove key) hsame⟩
      rw [objectEditsToDynamic, DynamicOperation.mapEditsToJson, hback]
      rfl
  | .modify key operation :: rest, ⟨hedit, hrest⟩ => by
      obtain ⟨change, hchange, hoperation⟩ := exists_toJson_toDynamic operation hedit
      obtain ⟨back, hback, hsame⟩ := exists_toJson_objectEditsToDynamic rest hrest
      refine ⟨_, ?_, .cons (.modify key hoperation) hsame⟩
      rw [objectEditsToDynamic, DynamicOperation.mapEditsToJson, hchange, hback]
      rfl

/-- Every patch comes back from its dynamic form with numbers that are alike. -/
theorem exists_toJson_patchToDynamic :
    (patch : List (Path × Operation)) → EveryEntry .keyed patch →
      ∃ back, DynamicOperation.patchToJson (patchToDynamic patch) = .ok back ∧
        List.Forall₂ (RenumberedEntry Number.Alike) patch back
  | [], _ => ⟨[], rfl, .nil⟩
  | (path, operation) :: rest, ⟨_, hoperation, hrest⟩ => by
      obtain ⟨change, hchange, hsame⟩ := exists_toJson_toDynamic operation hoperation
      obtain ⟨back, hback, hrest⟩ := exists_toJson_patchToDynamic rest hrest
      refine ⟨_, ?_, .cons (.mk path hsame) hrest⟩
      rw [patchToDynamic, DynamicOperation.patchToJson, hchange, hback]
      rfl

end

end Operation

/-- **A patch comes back from its dynamic form, and does the same,** if its trees repeat no key: on
every tree and under every mode both patches fail, or both have results, which are equal. -/
theorem Patch.exists_toJson_toDynamic_matches {patch : Patch} (hkeyed : patch.Every .keyed) :
    ∃ back : Patch, patch.toDynamic.toJson = .ok back ∧ ∀ mode tree,
      Matches (fun result other => result == other) (patch.apply mode tree)
        (back.apply mode tree) := by
  obtain ⟨back, hback, hsame⟩ := Operation.exists_toJson_patchToDynamic patch hkeyed
  refine ⟨back, hback, fun mode tree => ?_⟩
  have htree := Json.renumbered_refl Number.Alike.refl tree
  exact (Patch.matches_apply Number.additive_alike mode hsame htree).mono
    fun _ _ hresult => hresult.beq fun _ _ halike => halike.1

/-- Two ways to write 42, which both come back as the integer. -/
theorem Patch.exists_toJson_toDynamic_matches_nested :
    let patch : Patch :=
      [([.field "a"], .nested [(Path.root, .addNumber { whole := 42, fraction := [0] })]),
        (Path.root, .editObject [.add "b" (.object [("c", .number
          { whole := 4, fraction := [2], exponent := some ⟨false, none, [1], by decide⟩ })])])]
    let back : Patch :=
      [([.field "a"], .nested [(Path.root, .addNumber (.ofInt 42))]),
        (Path.root, .editObject [.add "b" (.object [("c", .number (.ofInt 42))])])]
    patch.Every .keyed ∧ patch.toDynamic.toJson = .ok back ∧ ∀ mode tree,
      Matches (fun result other => result == other) (patch.apply mode tree)
        (back.apply mode tree) := by
  intro patch back
  have hkeyed : patch.Every .keyed := by
    simp [patch, Patch.Every, Operation.EveryEntry, Operation.Every, Operation.EveryObjectEdits,
      Operation.EveryObjectEdit, PatchParts.keyed, Json.Keyed, Json.Every, Json.EveryEntry,
      Entries.Distinct]
  have hback : patch.toDynamic.toJson = .ok back := rfl
  obtain ⟨other, hother, hsame⟩ := exists_toJson_toDynamic_matches hkeyed
  cases hback.symm.trans hother
  exact ⟨hkeyed, hback, hsame⟩

end JsonEdit
