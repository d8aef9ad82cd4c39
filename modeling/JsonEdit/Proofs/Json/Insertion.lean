import JsonEdit.Proofs.Json.Failure

/-!
# Insertion can be undone

To insert is to add a child to every container that the parent path leads to, or to fail. To delete along
the same path takes the child out of each of them. Both are walks that put images into the slots of the
same places, so the one after the other is a walk too, and it puts back at every place what was there.

An entry is only added where its key does not occur, and an element moves those behind it up by one. So what
is deleted, which is every entry of the key or the element at the position, is what was inserted.
-/

namespace JsonEdit.Json

/-! ### One container -/

inductive Gains (step : Step) (new : Json) : Json → Json → Prop
  | entry {entries : Entries Json} {key : String} (hkey : step.entryKey? = some key)
      (hfresh : Entries.find? key entries = none) :
      Gains step new (.object entries) (.object (entries ++ [(key, new)]))
  | element {items : List Json} {position : Nat} (hposition : step.position? = some position)
      (hle : position ≤ items.length) :
      Gains step new (.array items) (.array (items.take position ++ new :: items.drop position))

theorem gains_of_insertChild {place : Path} {step : Step} {new container filled : Json}
    (hinsert : insertChild place step new container = .ok filled) : Gains step new container filled := by
  unfold insertChild at hinsert
  split at hinsert
  · rename_i entries key _ hkey
    split at hinsert
    · cases hinsert
    · rename_i hfresh
      cases hinsert
      exact .entry hkey (Entries.has_eq_false_iff.mp (by simpa using hfresh))
  · rename_i items position hposition
    split at hinsert
    · cases hinsert
    · rename_i hle
      cases hinsert
      exact .element hposition (Nat.not_lt.mp hle)
  · split at hinsert <;> cases hinsert

namespace Gains

variable {step : Step} {new container filled : Json}

theorem isWildcard (hgains : Gains step new container filled) : step.isWildcard = false := by
  cases hgains with
  | entry hkey => cases step <;> first | rfl | cases hkey
  | element hposition =>
      rw [Step.eq_index_of_position? hposition]
      rfl

theorem kind_ne_string (hgains : Gains step new container filled) : container.kind ≠ .string := by
  cases hgains <;> exact nofun

/-- The new child is what the step leads to. -/
theorem child? (hgains : Gains step new container filled) : filled.child? step = some new := by
  cases hgains with
  | entry hkey hfresh =>
      rw [Json.child?, hkey, Option.bind_some, Entries.find?_append, hfresh, Option.none_or,
        Entries.find?_cons, if_pos rfl]
  | @element items position hposition hle =>
      have hlength : (items.take position).length = position := List.length_take_of_le hle
      rw [Json.child?, hposition, Option.bind_some, List.getElem?_append_right hlength.le, hlength,
        Nat.sub_self, List.getElem?_cons_zero]

theorem get (hgains : Gains step new container filled) : filled.get [step] = [new] := by
  have hsingle : Path.hasWildcards [step] = false := by
    rw [Path.hasWildcards, List.any_cons, hgains.isWildcard]
    rfl
  rw [get_of_single hsingle, valueAt?, hgains.child?]
  rfl

/-- **To delete the new child** leaves the container as it was. -/
theorem deleteChildren (hgains : Gains step new container filled) :
    Json.deleteChildren step filled = some container := by
  cases hgains with
  | @entry entries key hkey hfresh =>
      have hhas : Entries.has key (entries ++ [(key, new)]) = true := by
        rw [Entries.has, Entries.find?_append, hfresh, Option.none_or, Entries.find?_cons, if_pos rfl]
        rfl
      have hothers : Entries.erase key entries = entries :=
        List.filter_eq_self.mpr fun entry hentry =>
          decide_eq_true (Entries.find?_eq_none_iff.mp hfresh entry hentry)
      have herase : Entries.erase key (entries ++ [(key, new)]) = entries := by
        rw [Entries.erase, List.filter_append, ← Entries.erase, hothers]
        simp
      cases step with
      | field name | key name =>
          cases hkey
          rw [Json.deleteChildren, if_pos hhas, herase]
      | _ => cases hkey
  | @element items position hposition hle =>
      have hlength : (items.take position).length = position := List.length_take_of_le hle
      have hlt : position < (items.take position ++ new :: items.drop position).length := by
        rw [List.length_append, hlength, List.length_cons]
        omega
      have herase : (items.take position ++ new :: items.drop position).eraseIdx position = items := by
        rw [List.eraseIdx_append_of_length_le hlength.le, hlength, Nat.sub_self, List.eraseIdx_cons_zero,
          List.take_append_drop]
      rw [Step.eq_index_of_position? hposition, Json.deleteChildren, if_pos hlt, herase]

end Gains

/-! ### All containers of the parent path -/

theorem tryInsert_child (tree : Json) (parent : Path) (step : Step) (new : Json) :
    tree.tryInsert (parent.child step) new =
      changedOr ⟨.unresolvedParent, parent⟩
        (tree.updateFrom (fun place container => (insertChild place step new container).map some)
          Path.root parent) := by
  rw [tryInsert, Path.splitLast?_child]
  rfl

theorem updateFrom_of_changedOr {fault : Fault} {result : Except Fault (Option Json)} {tree : Json}
    (hchanged : changedOr fault result = .ok tree) : result = .ok (some tree) := by
  rcases result with other | after | after
  · cases hchanged
  · cases hchanged
  · cases hchanged
    rfl

def withNewChild? (step : Step) (new : Json) (place : Path) (container : Json) : Option Json :=
  (insertChild place step new container).toOption

/-- The images of the containers are these containers with the new child, and there is one at least. -/
structure Fills (image : Path → Json → Option Json) (parent : Path) (step : Step) (new tree : Json) :
    Prop where
  names : Step.names ∉ parent
  reached : tree.locate parent ≠ []
  gains : ∀ place ∈ tree.locate parent,
    ∃ filled, image place.1 place.2 = some filled ∧ Gains step new place.2 filled

/-- **To insert is to put in images** of the containers that the parent path leads to. -/
theorem exists_fills_of_tryInsert {tree after new : Json} {parent : Path} {step : Step}
    (hinsert : tree.tryInsert (parent.child step) new = .ok after) :
    ∃ image, Fills image parent step new tree ∧ after = alterFrom image Path.root parent tree := by
  rw [tryInsert_child] at hinsert
  have hupdate := updateFrom_of_changedOr hinsert
  have hinserted : ∀ place ∈ tree.locate parent,
      ∃ filled, insertChild place.1 step new place.2 = .ok filled := by
    intro place hmem
    obtain ⟨result, hresult⟩ := exists_change_of_updateFrom hupdate hmem
    obtain ⟨filled, hfilled, -⟩ := except_map_eq_ok hresult
    exact ⟨filled, hfilled⟩
  have hreached : tree.locate parent ≠ [] := by
    intro hplaces
    cases (updateFrom_of_unreached hplaces).symm.trans hupdate
  have hnames : Step.names ∉ parent := by
    intro hnames
    obtain ⟨place, hmem⟩ := List.exists_mem_of_ne_nil _ hreached
    obtain ⟨filled, hfilled⟩ := hinserted place hmem
    exact (gains_of_insertChild hfilled).kind_ne_string (kind_of_mem_locateFrom_names hnames hmem)
  have himages : ∀ place ∈ tree.locate parent,
      ∃ filled, withNewChild? step new place.1 place.2 = some filled ∧
        (insertChild place.1 step new place.2).map some = .ok (some filled) := by
    intro place hmem
    obtain ⟨filled, hfilled⟩ := hinserted place hmem
    exact ⟨filled, toOption_eq_some_iff.mpr hfilled, congrArg (Except.map some) hfilled⟩
  have hgains : ∀ place ∈ tree.locate parent,
      ∃ filled, withNewChild? step new place.1 place.2 = some filled ∧
        Gains step new place.2 filled := by
    intro place hmem
    obtain ⟨filled, hfilled⟩ := hinserted place hmem
    exact ⟨filled, toOption_eq_some_iff.mpr hfilled, gains_of_insertChild hfilled⟩
  have hput : tree.updateFrom
      (fun place container => (insertChild place step new container).map some) Path.root parent =
      .ok (some (alterFrom (withNewChild? step new) Path.root parent tree)) :=
    updateFrom_of_images hnames hreached himages
  refine ⟨withNewChild? step new, ⟨hnames, hreached, hgains⟩, ?_⟩
  exact Option.some.inj (Except.ok.inj (hupdate.symm.trans hput))

namespace Fills

variable {image : Path → Json → Option Json} {parent : Path} {step : Step} {new tree : Json}

theorem locate_alterFrom (hfills : Fills image parent step new tree) :
    (alterFrom image Path.root parent tree).locate parent =
      (tree.locate parent).map fun place => (place.1, (image place.1 place.2).getD place.2) :=
  locateFrom_alterFrom hfills.names image Path.root tree

/-- Every container is read with its new child. -/
theorem get_child (hfills : Fills image parent step new tree) :
    (alterFrom image Path.root parent tree).get (parent.child step) =
      List.replicate (tree.locate parent).length new := by
  have hread : ∀ place ∈ tree.locate parent,
      ((image place.1 place.2).getD place.2).get [step] = [new] := by
    intro place hmem
    obtain ⟨filled, himage, hgains⟩ := hfills.gains place hmem
    rw [himage, Option.getD_some, hgains.get]
  rw [Path.child, get_append, Json.get, hfills.locate_alterFrom, List.map_map, List.flatMap_map]
  calc ((tree.locate parent).flatMap fun place => ((image place.1 place.2).getD place.2).get [step])
      = (tree.locate parent).flatMap fun _ => [new] := List.flatMap_congr hread
    _ = (tree.locate parent).map fun _ => new := List.map_eq_flatMap.symm
    _ = List.replicate (tree.locate parent).length new := List.map_const'

/-- To put in what deleting leaves of the containers gives the tree from before. -/
theorem alterFrom_deleteChildren (hfills : Fills image parent step new tree) :
    alterFrom (fun _ container => deleteChildren step container) Path.root parent
        (alterFrom image Path.root parent tree) = tree := by
  rw [alterFrom_alterFrom hfills.names]
  refine alterFrom_eq_self hfills.names fun place hmem => ?_
  obtain ⟨filled, himage, hgains⟩ := hfills.gains place hmem
  rw [himage, Option.getD_some, hgains.deleteChildren]
  rfl

/-- **Every container is put back** by deleting. -/
theorem tryDelete_child (hfills : Fills image parent step new tree) :
    (alterFrom image Path.root parent tree).tryDelete (parent.child step) = .ok tree := by
  have hplaces := hfills.locate_alterFrom
  have hreached : (alterFrom image Path.root parent tree).locate parent ≠ [] := by
    rw [hplaces]
    exact mt List.map_eq_nil_iff.mp hfills.reached
  have hdeleted : ∀ place ∈ (alterFrom image Path.root parent tree).locate parent,
      ∃ container, deleteChildren step place.2 = some container ∧
        Except.ok (deleteChildren step place.2) = (.ok (some container) : Except Fault _) := by
    rw [hplaces, List.forall_mem_map]
    intro place hmem
    obtain ⟨filled, himage, hgains⟩ := hfills.gains place hmem
    have hback : deleteChildren step ((image place.1 place.2).getD place.2) = some place.2 := by
      rw [himage, Option.getD_some, hgains.deleteChildren]
    exact ⟨place.2, hback, congrArg Except.ok hback⟩
  have hupdate : (alterFrom image Path.root parent tree).updateFrom
      (fun _ container => .ok (deleteChildren step container)) Path.root parent =
      .ok (some (alterFrom (fun _ container => deleteChildren step container) Path.root parent
        (alterFrom image Path.root parent tree))) :=
    updateFrom_of_images hfills.names hreached hdeleted
  rw [Json.tryDelete_child, hupdate, hfills.alterFrom_deleteChildren]
  rfl

end Fills

/-- **Insertion can be undone.** If a value can be inserted along a path, the path leads to it and to
nothing else afterwards, and to delete along the path gives the very tree that was there before. -/
theorem tryInsert_undone {tree after new : Json} {path : Path}
    (hinsert : tree.tryInsert path new = .ok after) :
    after.get path ≠ [] ∧ (∀ value ∈ after.get path, value = new) ∧ after.tryDelete path = .ok tree := by
  rcases List.eq_nil_or_concat' path with rfl | ⟨parent, step, rfl⟩
  · cases hinsert
  · obtain ⟨image, hfills, rfl⟩ := exists_fills_of_tryInsert hinsert
    have hget := hfills.get_child
    refine ⟨?_, ?_, hfills.tryDelete_child⟩
    · intro hnothing
      rw [← Path.child, hget, List.replicate_eq_nil_iff, List.length_eq_zero_iff] at hnothing
      exact hfills.reached hnothing
    · intro value hvalue
      rw [← Path.child, hget] at hvalue
      exact List.eq_of_mem_replicate hvalue

/-- At position 1 of both arrays of the entry, which is the end of the second one. The first of them is
come to twice, and the key of the entry repeats. -/
theorem tryInsert_undone_indices :
    let tree : Json := .object [("a", .array [.array [.null, .bool true], .array [.string "x"]]),
      ("a", .null)]
    let path : Path := [.key "a", .indices [0, 1, 0], .index 1]
    let after : Json := .object [("a", .array [.array [.null, .string "y", .bool true],
      .array [.string "x", .string "y"]]), ("a", .null)]
    tree.tryInsert path (.string "y") = .ok after ∧
      after.get path ≠ [] ∧ (∀ value ∈ after.get path, value = .string "y") ∧
      after.tryDelete path = .ok tree := by
  intro tree path after
  have hinsert : tree.tryInsert path (.string "y") = .ok after := rfl
  exact ⟨hinsert, tryInsert_undone hinsert⟩

end JsonEdit.Json
