import JsonEdit.Proofs.Json.Lasting
import JsonEdit.Proofs.Patch.Every
import JsonEdit.Proofs.Patch.Strict

/-!
# What patches keep

A patch keeps a lasting property of trees if the trees that it carries have the property and none of its
paths leads to keys. It makes no difference what the mode is, and what is left out under the lenient one:
a value that is kept has the property already.
-/

namespace JsonEdit

/-- The trees of a patch have the property, and its paths do not lead to keys. -/
def PatchParts.lasting (p : Json → Prop) : PatchParts where
  path path := Step.names ∉ path
  tree := Json.Every p

theorem Yields.recover {α : Type} {goal : α → Prop} {keep : α} {result : Except Fault α}
    (hyields : Yields goal result) (mode : PatchMode) (hkeep : goal keep) :
    Yields goal (mode.recover keep result) := by
  intro value hvalue
  rcases PatchMode.of_recover_eq_ok hvalue with rfl | hvalue
  · exact hkeep
  · exact hyields value hvalue

namespace SequenceEdit

variable {α : Type} {items values : List α} {position length : Nat} {item : α}

theorem mem_insertAll (hmem : item ∈ insertAll items values position) :
    item ∈ items ∨ item ∈ values := by
  rcases List.mem_append.mp hmem with hmem | hmem
  · exact (List.mem_append.mp hmem).imp_left List.mem_of_mem_take
  · exact .inl (List.mem_of_mem_drop hmem)

theorem mem_replaceRange (hmem : item ∈ replaceRange items values position length) :
    item ∈ items ∨ item ∈ values := by
  rcases List.mem_append.mp hmem with hmem | hmem
  · exact (List.mem_append.mp hmem).imp_left List.mem_of_mem_take
  · exact .inl (List.mem_of_mem_drop hmem)

end SequenceEdit

namespace Operation

variable {p : Json → Prop} {mode : PatchMode}

theorem every_applyAt (hlasting : Json.Lasting p) {path : Path} (hnames : Step.names ∉ path) (base : Path)
    {change : Path → Json → Except Fault Json}
    (hchange : ∀ place value, value.Every p → Yields (Json.Every p) (change place value)) {tree : Json}
    (htree : tree.Every p) : Yields (Json.Every p) (applyAt mode base path change tree) := by
  unfold applyAt
  refine .recover ?_ mode htree
  split
  · exact .of_error _
  · intro result hresult
    obtain ⟨new, -, hnext⟩ := except_bind_eq_ok hresult
    split at hnext <;> cases hnext
  · intro result hresult
    obtain ⟨new, -, hnext⟩ := except_bind_eq_ok hresult
    split at hnext <;> cases hnext
  · refine Yields.map (hlasting.updateFrom (fun place value hvalue => ?_) hnames base htree)
      fun after hafter => ?_
    · refine (hchange place value hvalue).map fun new hnew => ?_
      rintro _ ⟨⟩
      exact hnew
    · cases after with
      | none => exact htree
      | some new => exact hafter new rfl

theorem every_addNumber (hlasting : Json.Lasting p) (path : Path) (amount : Number) {value : Json}
    (hvalue : value.Every p) : Yields (Json.Every p) (apply mode path (.addNumber amount) value) := by
  unfold apply
  refine .recover ?_ mode hvalue
  split
  · split
    · rename_i sum hsum
      exact .of_ok (hlasting.sum hsum)
    · exact .of_error _
  · exact .of_error _

theorem every_editString (hlasting : Json.Lasting p) (path : Path) (edits : List StringEdit)
    {value : Json} (hvalue : value.Every p) :
    Yields (Json.Every p) (apply mode path (.editString edits) value) := by
  unfold apply
  split
  · rename_i text
    have hchars : Yields (fun _ => True) (StringEdit.applyAll mode path edits text.toList) :=
      fun _ _ => trivial
    exact hchars.map fun chars _ => hlasting.string (String.ofList chars)
  · exact .recover (.of_error _) mode hvalue

mutual

theorem every_apply (hlasting : Json.Lasting p) : (operation : Operation) →
    operation.Every (.lasting p) → (path : Path) → {value : Json} → value.Every p →
    Yields (Json.Every p) (apply mode path operation value)
  | .set new, hparts, path, value, _ => by
      rw [apply]
      exact .of_ok hparts
  | .addNumber amount, _, path, _, hvalue => every_addNumber hlasting path amount hvalue
  | .editString edits, _, path, _, hvalue => every_editString hlasting path edits hvalue
  | .editArray edits, hparts, path, value, hvalue => by
      unfold apply
      split
      · exact (every_applyArrayEdits hlasting edits hparts path hvalue).map fun items hitems => hitems
      · exact .recover (.of_error _) mode hvalue
  | .editObject edits, hparts, path, value, hvalue => by
      unfold apply
      split
      · exact (every_applyObjectEdits hlasting edits hparts path hvalue).map
          fun entries hentries => hentries
      · exact .recover (.of_error _) mode hvalue
  | .nested patch, hparts, path, value, hvalue => by
      rw [apply]
      exact every_applyPatch hlasting patch hparts path hvalue

theorem every_applyArrayEdits (hlasting : Json.Lasting p) :
    (edits : List (SequenceEdit Json Operation)) →
    EveryArrayEdits (.lasting p) edits → (path : Path) → {items : List Json} →
    (Json.array items).Every p →
    Yields (fun items => (Json.array items).Every p) (applyArrayEdits mode path edits items)
  | [], _, path, items, hitems => by
      rw [applyArrayEdits]
      exact .of_ok hitems
  | edit :: rest, hparts, path, items, hitems => by
      rw [applyArrayEdits]
      have hmiddle := every_applyArrayEdit hlasting edit hparts.1 path hitems
      exact (hmiddle.recover mode hitems).bind
        fun others hothers => every_applyArrayEdits hlasting rest hparts.2 path hothers

theorem every_applyArrayEdit (hlasting : Json.Lasting p) : (edit : SequenceEdit Json Operation) →
    EveryArrayEdit (.lasting p) edit → (path : Path) → {items : List Json} →
    (Json.array items).Every p →
    Yields (fun items => (Json.array items).Every p) (applyArrayEdit mode path edit items)
  | .insert position values, hparts, path, items, hitems => by
      rw [applyArrayEdit]
      split
      · exact .of_error _
      · rw [hlasting.every_array_iff] at hitems
        refine .of_ok (hlasting.every_array_iff.mpr fun item hitem => ?_)
        rcases SequenceEdit.mem_insertAll hitem with hitem | hitem
        · exact hitems item hitem
        · exact hparts.2 item hitem
  | .append values, hparts, path, items, hitems => by
      rw [applyArrayEdit]
      rw [hlasting.every_array_iff] at hitems
      exact .of_ok (hlasting.every_array_iff.mpr (List.forall_mem_append.mpr ⟨hitems, hparts⟩))
  | .delete position length, _, path, items, hitems => by
      rw [applyArrayEdit]
      split
      · exact .of_error _
      · refine .of_ok (hlasting.array_of_subset hitems fun item hitem => ?_)
        rcases SequenceEdit.mem_replaceRange hitem with hitem | hitem
        · exact hitem
        · cases hitem
  | .modify position operation, hparts, path, items, hitems => by
      rw [applyArrayEdit]
      split
      · exact .of_error _
      · rename_i item hitem
        have hvalue := hlasting.every_array_iff.mp hitems item (List.mem_of_getElem? hitem)
        exact (every_apply hlasting operation hparts.2 (path.child (.index position)) hvalue).map
          fun new hnew => hlasting.array_set hitems position hnew

theorem every_applyObjectEdits (hlasting : Json.Lasting p) :
    (edits : List (MapEdit String Json Operation)) →
    EveryObjectEdits (.lasting p) edits → (path : Path) → {entries : Entries Json} →
    (Json.object entries).Every p →
    Yields (fun entries => (Json.object entries).Every p) (applyObjectEdits mode path edits entries)
  | [], _, path, entries, hentries => by
      rw [applyObjectEdits]
      exact .of_ok hentries
  | edit :: rest, hparts, path, entries, hentries => by
      rw [applyObjectEdits]
      have hmiddle := every_applyObjectEdit hlasting edit hparts.1 path hentries
      exact (hmiddle.recover mode hentries).bind
        fun others hothers => every_applyObjectEdits hlasting rest hparts.2 path hothers

theorem every_applyObjectEdit (hlasting : Json.Lasting p) : (edit : MapEdit String Json Operation) →
    EveryObjectEdit (.lasting p) edit → (path : Path) → {entries : Entries Json} →
    (Json.object entries).Every p →
    Yields (fun entries => (Json.object entries).Every p) (applyObjectEdit mode path edit entries)
  | .add key value, hparts, path, entries, hentries => by
      rw [applyObjectEdit]
      split
      · exact .of_error _
      · -- the key keeps its place or comes at the end, so it is there once
        exact .of_ok (hlasting.object_put hentries key hparts)
  | .remove key, _, path, entries, hentries => by
      rw [applyObjectEdit]
      split
      · exact .of_ok (hlasting.object_of_sublist hentries List.filter_sublist)
      · exact .of_error _
  | .modify key operation, hparts, path, entries, hentries => by
      rw [applyObjectEdit]
      split
      · exact .of_error _
      · rename_i value hvalue
        have hfound := (hlasting.every_object_iff.mp hentries).2 _ (Entries.mem_of_find? hvalue)
        exact (every_apply hlasting operation hparts (path.child (.field key)) hfound).map
          fun new hnew => hlasting.object_replace hentries key hnew

theorem every_applyPatch (hlasting : Json.Lasting p) : (patch : List (Path × Operation)) →
    EveryEntry (.lasting p) patch → (base : Path) → {tree : Json} → tree.Every p →
    Yields (Json.Every p) (applyPatch mode base patch tree)
  | [], _, base, tree, htree => by
      rw [applyPatch]
      exact .of_ok htree
  | (path, operation) :: rest, hparts, base, tree, htree => by
      rw [applyPatch]
      exact (every_applyAt hlasting hparts.1 base
        (fun place value hvalue => every_apply hlasting operation hparts.2.1 place hvalue) htree).bind
          fun next hnext => every_applyPatch hlasting rest hparts.2.2 base hnext

end

end Operation

/-- **Applying a patch keeps what lasts.** -/
theorem Json.Lasting.applyPatch {p : Json → Prop} (hlasting : Json.Lasting p) {patch : Patch}
    (hparts : patch.Every (.lasting p)) (mode : PatchMode) {tree : Json} (htree : tree.Every p) :
    Yields (Json.Every p) (patch.apply mode tree) :=
  Operation.every_applyPatch hlasting patch hparts Path.root htree

end JsonEdit
