import JsonEdit.Proofs.Json.Images
import JsonEdit.Proofs.Json.Locations
import JsonEdit.Proofs.Json.Removal

/-!
# When an edit fails

Modifying and deleting have a form that fails if it cannot be done. Whether it does can be read from the
places of the path, without the walk.

To modify fails at the first place whose value has no image, and then nothing is changed. To delete fails
if there is nothing to delete. The exception is a step that asks for all children: a container without
children has all of them deleted and stays as it is, so nothing is read along the path, but deleting does
not fail.
-/

namespace JsonEdit

namespace Json

/-! ### Modifying -/

/-- The image of a value, which is missed at the place that has none. -/
def imageOrFault (image : Json → Option Json) (place : Path) (value : Json) : Except Fault (Option Json) :=
  match image value with
  | some new => .ok (some new)
  | none => .error ⟨.outsideDomain, place⟩

section Modify

variable {image : Json → Option Json} {path : Path} {tree : Json} {place : Path × Json}

theorem tryModify_eq_changedOr (tree : Json) (path : Path) (image : Json → Option Json) :
    tree.tryModify path image =
      changedOr ⟨.unresolved, path⟩ (tree.updateFrom (imageOrFault image) Path.root path) := rfl

theorem faultAt_of_image (hnames : Step.names ∉ path) (himage : (image place.2).isSome) :
    faultAt (imageOrFault image) path place = none := by
  obtain ⟨new, hnew⟩ := Option.isSome_iff_exists.mp himage
  have hlast : path.getLast? ≠ some .names := by
    intro hlast
    exact hnames (List.mem_of_getLast? hlast)
  simp [faultAt, imageOrFault, hnew, hlast]

theorem faultAt_of_outside (himage : image place.2 = none) :
    faultAt (imageOrFault image) path place = some ⟨.outsideDomain, place.1⟩ := by
  simp [faultAt, imageOrFault, himage]

/-- The first place without an image is the one that is reported. -/
theorem tryModify_of_outside (hnames : Step.names ∉ path) {before after : List (Path × Json)}
    (hplaces : tree.locate path = before ++ place :: after)
    (hbefore : ∀ earlier ∈ before, (image earlier.2).isSome) (himage : image place.2 = none) :
    tree.tryModify path image = .error ⟨.outsideDomain, place.1⟩ := by
  have hearlier : before.findSome? (faultAt (imageOrFault image) path) = none := by
    rw [List.findSome?_eq_none_iff]
    intro earlier hmem
    exact faultAt_of_image hnames (hbefore earlier hmem)
  have hfault : (tree.locate path).findSome? (faultAt (imageOrFault image) path) =
      some ⟨.outsideDomain, place.1⟩ := by
    rw [hplaces, List.findSome?_append, hearlier, List.findSome?_cons, faultAt_of_outside himage]
    rfl
  rw [tryModify_eq_changedOr, updateFrom_eq_error_iff.mpr hfault]
  rfl

theorem tryModify_of_unreached (hplaces : tree.locate path = []) :
    tree.tryModify path image = .error ⟨.unresolved, path⟩ := by
  rw [tryModify_eq_changedOr, updateFrom_of_unreached hplaces]
  rfl

/-- Where every value has an image, it is put in without a chance to fail. -/
theorem tryModify_of_images (hnames : Step.names ∉ path) (hplaces : tree.locate path ≠ [])
    (himages : ∀ place ∈ tree.locate path, (image place.2).isSome) :
    tree.tryModify path image = .ok (tree.modify path image) := by
  have hgiven : ∀ place ∈ tree.locate path,
      ∃ new, image place.2 = some new ∧ imageOrFault image place.1 place.2 = .ok (some new) := by
    intro place hmem
    obtain ⟨new, hnew⟩ := Option.isSome_iff_exists.mp (himages place hmem)
    exact ⟨new, hnew, by rw [imageOrFault, hnew]⟩
  have hupdate : tree.updateFrom (imageOrFault image) Path.root path =
      .ok (some (alterFrom (fun _ value => image value) Path.root path tree)) :=
    updateFrom_of_images hnames hplaces hgiven
  rw [tryModify_eq_changedOr, hupdate]
  rfl

/-- Of the places without an image one is the first. -/
theorem exists_first_outside {places : List (Path × Json)} (houtside : ∃ place ∈ places, image place.2 = none) :
    ∃ before place after, places = before ++ place :: after ∧
      (∀ earlier ∈ before, (image earlier.2).isSome) ∧ image place.2 = none := by
  have hfound : (places.find? fun place => (image place.2).isNone).isSome := by
    rw [List.find?_isSome]
    simpa using houtside
  obtain ⟨place, hplace⟩ := Option.isSome_iff_exists.mp hfound
  obtain ⟨himage, before, after, hsplit, hbefore⟩ := List.find?_eq_some_iff_append.mp hplace
  refine ⟨before, place, after, hsplit, ?_, Option.isNone_iff_eq_none.mp himage⟩
  intro earlier hmem
  simpa [Option.isNone_eq_false_iff] using hbefore earlier hmem

/-- **To modify is all or nothing.** The path does not lead to keys. There is a result if and only if the
path leads to some place and every value there has an image, and then it is the same as without the chance
to fail. Else the first place without an image is reported, or the path if it leads nowhere. -/
theorem tryModify_all_or_nothing (hnames : Step.names ∉ path) (tree : Json) (image : Json → Option Json) :
    ((∃ result, tree.tryModify path image = .ok result) ↔
      tree.locate path ≠ [] ∧ ∀ place ∈ tree.locate path, (image place.2).isSome) ∧
    (∀ result, tree.tryModify path image = .ok result → result = tree.modify path image) ∧
    (∀ before place after, tree.locate path = before ++ place :: after →
      (∀ earlier ∈ before, (image earlier.2).isSome) → image place.2 = none →
      tree.tryModify path image = .error ⟨.outsideDomain, place.1⟩) ∧
    (tree.locate path = [] → tree.tryModify path image = .error ⟨.unresolved, path⟩) := by
  have hdefined : ∀ result, tree.tryModify path image = .ok result →
      tree.locate path ≠ [] ∧ ∀ place ∈ tree.locate path, (image place.2).isSome := by
    intro result hresult
    refine ⟨?_, ?_⟩
    · intro hplaces
      cases hresult.symm.trans (tryModify_of_unreached hplaces)
    · by_contra houtside
      push Not at houtside
      obtain ⟨before, place, after, hsplit, hbefore, himage⟩ :=
        exists_first_outside (by simpa using houtside)
      cases hresult.symm.trans (tryModify_of_outside hnames hsplit hbefore himage)
  refine ⟨⟨?_, ?_⟩, ?_, ?_, tryModify_of_unreached⟩
  · rintro ⟨result, hresult⟩
    exact hdefined result hresult
  · rintro ⟨hplaces, himages⟩
    exact ⟨_, tryModify_of_images hnames hplaces himages⟩
  · intro result hresult
    obtain ⟨hplaces, himages⟩ := hdefined result hresult
    rw [tryModify_of_images hnames hplaces himages] at hresult
    exact (Except.ok.inj hresult).symm
  · intro before place after hsplit hbefore himage
    exact tryModify_of_outside hnames hsplit hbefore himage

/-- Strings only: of the four places the third is reported, and the others alone are modified. -/
theorem tryModify_all_or_nothing_nested :
    let tree : Json := .array [.object [("a", .string "x"), ("b", .string "y")],
      .object [("a", .null), ("b", .bool true)]]
    let image : Json → Option Json := fun value => if value.kind = .string then some .null else none
    Step.names ∉ [Step.elements, .values] ∧
      tree.tryModify [.elements, .values] image = .error ⟨.outsideDomain, [.index 1, .field "a"]⟩ ∧
      tree.tryModify [.index 0, .values] image = .ok (tree.modify [.index 0, .values] image) ∧
      tree.tryModify [.elements, .index 0] image = .error ⟨.unresolved, [.elements, .index 0]⟩ := by
  intro tree image
  have hnames : Step.names ∉ [Step.elements, .values] := by decide
  obtain ⟨-, -, houtside, -⟩ := tryModify_all_or_nothing hnames tree image
  have hvalues : Step.names ∉ [Step.index 0, .values] := by decide
  have hindex : Step.names ∉ [Step.elements, .index 0] := by decide
  obtain ⟨hdefined, hmodify, -, -⟩ := tryModify_all_or_nothing hvalues tree image
  obtain ⟨-, -, -, hunreached⟩ := tryModify_all_or_nothing hindex tree image
  obtain ⟨result, hresult⟩ := hdefined.mpr ⟨List.cons_ne_nil _ _, by decide⟩
  refine ⟨hnames, ?_, ?_, hunreached rfl⟩
  · exact houtside [([.index 0, .field "a"], .string "x"), ([.index 0, .field "b"], .string "y")]
      ([.index 1, .field "a"], .null) [([.index 1, .field "b"], .bool true)] rfl (by decide) rfl
  · rw [hresult, hmodify result hresult]

end Modify

/-! ### Deleting -/

/-- The step asks for all children of a container, and the container has none. -/
def asksEmpty : Step → Json → Bool
  | .values, .object [] | .names, .object [] | .elements, .array [] => true
  | _, _ => false

section Delete

variable {step : Step}

/-- A step leads nowhere if it selects no child. -/
theorem places_eq_nil_iff (hstep : step ≠ .names) (tree : Json) :
    tree.places step = [] ↔ ∀ other ∈ tree.children.map Prod.fst, ¬step.selects other := by
  have hsteps : tree.places step = [] ↔ tree.steps step = [] := List.map_eq_nil_iff.symm
  rw [hsteps, List.eq_nil_iff_forall_not_mem]
  refine forall_congr' fun other => ?_
  rw [mem_steps_iff hstep, not_and]

theorem forall_mem_children_array {items : List Json} {p : Step → Prop} :
    (∀ other ∈ (array items).children.map Prod.fst, p other) ↔
      ∀ position < items.length, p (.index position) := by
  rw [map_fst_children_array, List.forall_mem_map]
  exact forall_congr' fun position => imp_congr_left List.mem_range

theorem forall_mem_children_object {entries : Entries Json} {p : Step → Prop} :
    (∀ other ∈ (object entries).children.map Prod.fst, p other) ↔
      ∀ entry ∈ entries, p (.field entry.1) := by
  rw [map_fst_children_object, List.forall_mem_map, List.forall_mem_map]

/-- What is kept is everything if nothing is dropped. -/
theorem ite_length_filter_eq_none_iff {α : Type} (dropped : α → Bool) (items : List α) (after : Json) :
    (if (items.filter fun item => !dropped item).length < items.length then some after else none) = none ↔
      ∀ item ∈ items, ¬dropped item := by
  rw [ite_eq_right_iff, List.length_filter_lt_length_iff_exists]
  simp

theorem deleteChildren_array_eq_none_iff (items : List Json) :
    deleteChildren step (.array items) = none ↔
      (∀ position < items.length, ¬step.selects (.index position)) ∧
        asksEmpty step (.array items) = false := by
  cases step with
  | index position =>
      have hpast : ¬position < items.length ↔ ∀ other < items.length, ¬other = position := by
        constructor
        · rintro hpast other hlt rfl
          exact hpast hlt
        · intro hnone hlt
          exact hnone position hlt rfl
      simp only [deleteChildren, asksEmpty, Step.selects, and_true, ite_eq_right_iff, reduceCtorEq,
        imp_false, decide_eq_true_iff]
      exact hpast
  | indices positions =>
      have hkept := ite_length_filter_eq_none_iff
        (fun item : Json × Nat => positions.contains item.2) items.zipIdx
        (.array ((items.zipIdx.filter fun item => !positions.contains item.2).map Prod.fst))
      rw [List.length_zipIdx] at hkept
      refine hkept.trans (Iff.trans ?_ (and_iff_left rfl).symm)
      constructor
      · intro hnone position hlt
        exact hnone (items[position], position) (List.mem_zipIdx_iff_getElem?.mpr (List.getElem?_eq_getElem hlt))
      · rintro hnone ⟨item, position⟩ hmem
        obtain ⟨hlt, -⟩ := List.getElem?_eq_some_iff.mp (List.mem_zipIdx_iff_getElem?.mp hmem)
        exact hnone position hlt
  | elements =>
      cases items with
      | nil => simp [deleteChildren, asksEmpty]
      | cons item items =>
          refine iff_of_false (Option.some_ne_none _) fun hnone => ?_
          exact hnone.1 0 (Nat.zero_lt_succ _) rfl
  | _ => exact iff_of_true rfl ⟨fun _ _ => Bool.false_ne_true, rfl⟩

theorem deleteChildren_object_eq_none_iff (hstep : step ≠ .names) (entries : Entries Json) :
    deleteChildren step (.object entries) = none ↔
      (∀ entry ∈ entries, ¬step.selects (.field entry.1)) ∧ asksEmpty step (.object entries) = false := by
  cases step with
  | field name | key name =>
      have hfresh : Entries.has name entries = false ↔ ∀ entry ∈ entries, entry.1 ≠ name :=
        Entries.has_eq_false_iff.trans Entries.find?_eq_none_iff
      simp [deleteChildren, asksEmpty, Step.selects, hfresh]
  | keys texts =>
      exact (ite_length_filter_eq_none_iff (fun entry : String × Json => texts.contains entry.1) entries
        _).trans (and_iff_left rfl).symm
  | values =>
      cases entries with
      | nil => simp [deleteChildren, asksEmpty]
      | cons entry entries =>
          refine iff_of_false (Option.some_ne_none _) fun hnone => ?_
          exact hnone.1 entry List.mem_cons_self rfl
  | names => exact absurd rfl hstep
  | _ => exact iff_of_true rfl ⟨fun _ _ => Bool.false_ne_true, rfl⟩

/-- **There is nothing to delete** if the step leads nowhere, unless it asks for all children of a
container that has none. -/
theorem deleteChildren_eq_none_iff (step : Step) (tree : Json) :
    deleteChildren step tree = none ↔ tree.places step = [] ∧ asksEmpty step tree = false := by
  by_cases hnames : step = .names
  · subst hnames
    cases tree with
    | object entries =>
        cases entries with
        | nil => exact iff_of_false (Option.some_ne_none _) nofun
        | cons entry entries => exact iff_of_false (Option.some_ne_none _) nofun
    | _ => exact iff_of_true rfl ⟨rfl, rfl⟩
  · rw [places_eq_nil_iff hnames]
    cases tree with
    | array items => rw [forall_mem_children_array, deleteChildren_array_eq_none_iff]
    | object entries => rw [forall_mem_children_object, deleteChildren_object_eq_none_iff hnames]
    | _ =>
        refine iff_of_true rfl ⟨List.forall_mem_nil _, ?_⟩
        cases step <;> rfl

/-- To delete cannot fail on the way: the keys themselves have no children. -/
theorem exists_updateFrom_deleteChildren (step : Step) (trail path : Path) (tree : Json) :
    ∃ after, updateFrom (fun _ container => .ok (deleteChildren step container)) trail path tree =
      .ok after := by
  by_cases hnames : Step.names ∈ path
  · refine ⟨none, updateFrom_eq_ok_none_iff.mpr ?_⟩
    rintro ⟨place, value⟩ hmem
    have hkind : value.kind = .string := kind_of_mem_locateFrom_names hnames hmem
    cases value with
    | string text => rfl
    | _ => cases hkind
  · exact exists_updateFrom_image (fun _ container => deleteChildren step container) hnames trail tree

/-- To delete along a path is to change the containers that the path without its last step leads to. -/
theorem tryDelete_child (tree : Json) (parent : Path) (step : Step) :
    tree.tryDelete (parent.child step) =
      changedOr ⟨.unresolved, parent.child step⟩
        (tree.updateFrom (fun _ container => .ok (deleteChildren step container)) Path.root parent) := by
  rw [tryDelete, Path.splitLast?_child]
  rfl

/-- Nothing is deleted if and only if no container on the way has anything to delete. -/
theorem updateFrom_deleteChildren_eq_none_iff (tree : Json) (parent : Path) (step : Step) :
    tree.updateFrom (fun _ container => .ok (deleteChildren step container)) Path.root parent =
        .ok none ↔
      ∀ container ∈ tree.get parent, deleteChildren step container = none := by
  rw [updateFrom_eq_ok_none_iff, get, locate, List.forall_mem_map]
  refine forall₂_congr fun place _ => ?_
  rw [Except.ok.injEq]

/-- A path leads nowhere if its last step leads nowhere from all that the path before it leads to. -/
theorem get_child_eq_nil_iff (tree : Json) (parent : Path) (step : Step) :
    tree.get (parent.child step) = [] ↔ ∀ container ∈ tree.get parent, container.places step = [] := by
  rw [Path.child, get_append, List.flatMap_eq_nil_iff]
  refine forall₂_congr fun container _ => ?_
  rw [get_single, List.map_eq_nil_iff]

/-- **When deleting fails.** The path does not lead to any value, and its last step does not ask for all
children of a container without children at some place of its parent path. -/
theorem tryDelete_eq_error_iff (tree : Json) (parent : Path) (step : Step) :
    (∃ fault, tree.tryDelete (parent.child step) = .error fault) ↔
      tree.get (parent.child step) = [] ∧
        ∀ container ∈ tree.get parent, asksEmpty step container = false := by
  have hnone : (∃ fault, tree.tryDelete (parent.child step) = .error fault) ↔
      tree.updateFrom (fun _ container => .ok (deleteChildren step container)) Path.root parent =
        .ok none := by
    obtain ⟨after, hafter⟩ := exists_updateFrom_deleteChildren step Path.root parent tree
    rw [tryDelete_child, hafter]
    cases after with
    | none => exact iff_of_true ⟨_, rfl⟩ rfl
    | some new => exact iff_of_false nofun nofun
  rw [hnone, updateFrom_deleteChildren_eq_none_iff, get_child_eq_nil_iff, ← forall₂_and]
  exact forall₂_congr fun container _ => deleteChildren_eq_none_iff step container

/-- All elements of an empty array are deleted without a failure, though there is none to be read. -/
theorem not_forall_tryDelete_eq_error_iff :
    ¬∀ (tree : Json) (path : Path), path ≠ [] →
      ((∃ fault, tree.tryDelete path = .error fault) ↔ tree.get path = []) := by
  intro hall
  obtain ⟨fault, hfault⟩ := (hall (.array []) [.elements] (List.cons_ne_nil _ _)).mpr rfl
  cases hfault

end Delete

end Json

end JsonEdit
