import JsonEdit.Proofs.Json.Removal
import JsonEdit.Proofs.Patch.Addressing

/-!
# Fan-out edits are concrete edits

Setting, modifying, deleting and a lenient operation along a path with wildcards are compared with the same
edit at each of the places, one after the other. All of them are walks that ask for images, and the lenient
mode makes of every operation an image that each value has.

The paths of keys are left out. A key that is renamed is not found any more by the path that led to it.
-/

namespace JsonEdit

namespace Operation

/-- Under the lenient mode an operation is a walk that asks for images. -/
theorem applyPatch_single_lenient (base path : Path) (operation : Operation) (tree : Json) :
    applyPatch .lenient base [(path, operation)] tree =
      .ok (Json.alterFrom (fun place value => (apply .lenient place operation value).toOption) base path
        tree) := by
  have himage : (fun place value => (apply .lenient place operation value).map some) =
      fun place value => .ok (apply .lenient place operation value).toOption := by
    funext place value
    obtain ⟨new, hnew⟩ := exists_apply_lenient place operation value
    rw [hnew]
    rfl
  rw [applyPatch_single, Json.alterFrom]
  unfold applyAt
  cases hplaces : tree.locateFrom base path with
  | nil =>
      have hunreached : tree.updateFrom
          (fun place value => .ok (apply .lenient place operation value).toOption) base path = .ok none :=
        Json.updateFrom_of_unreached hplaces
      rw [hunreached]
      rfl
  | cons first others =>
      rw [himage]
      cases others <;>
        rcases tree.updateFrom (fun place value => .ok (apply .lenient place operation value).toOption)
          base path with fault | after | after <;> rfl

/-- A lenient operation at one place after the other is a loop of edits that ask for images. -/
theorem foldlM_applyPatch_lenient (base : Path) (operation : Operation) (paths : List Path) (tree : Json) :
    paths.foldlM (fun tree place => applyPatch .lenient base [(place, operation)] tree) tree =
      .ok (paths.foldl (fun tree place =>
        Json.alterFrom (fun place value => (apply .lenient place operation value).toOption) base place
          tree) tree) := by
  induction paths generalizing tree with
  | nil => rfl
  | cons path paths ih =>
      rw [List.foldlM_cons, applyPatch_single_lenient]
      exact ih _

end Operation

/-- **Fan-out edits are concrete edits.** No key of the tree repeats and the path does not lead to keys. To
set, to modify and to apply an operation leniently along the path is to do so at one of its places after
the other, each of them once and in any order. To delete along the path is to delete its places one after
the other, from the last to the first in the order of the document. -/
theorem Json.edits_eq_foldl {tree : Json} (hkeyed : tree.Keyed) {path : Path} (hnames : Step.names ∉ path)
    {paths : List Path} (hnodup : paths.Nodup)
    (hpaths : ∀ place, place ∈ paths ↔ place ∈ (tree.locate path).map Prod.fst) :
    (∀ new : Json, tree.set path new = paths.foldl (fun tree place => tree.set place new) tree) ∧
    (∀ image : Json → Option Json,
      tree.modify path image = paths.foldl (fun tree place => tree.modify place image) tree) ∧
    (∀ operation : Operation, ∃ result,
      Patch.apply [(path, operation)] .lenient tree = .ok result ∧
      paths.foldlM (fun tree place => Patch.apply [(place, operation)] .lenient tree) tree =
        .ok result) ∧
    (tree.inDocumentOrder paths).Perm paths ∧
    (path ≠ [] →
      tree.delete path =
        (tree.inDocumentOrder paths).foldr (fun place tree => tree.delete place) tree) := by
  have hwalk : ∀ image : Path → Json → Option Json, alterFrom image Path.root path tree =
      paths.foldl (fun tree place => alterFrom image Path.root place tree) tree := by
    intro image
    exact alterFrom_eq_foldl hnames hkeyed hnodup hpaths
  refine ⟨fun new => ?_, fun image => hwalk fun _ value => image value, fun operation => ?_,
    perm_inDocumentOrder hkeyed hnodup hpaths, fun hpath => ?_⟩
  · have hset := hwalk fun _ _ => some new
    simp only [← set_eq_alterFrom] at hset
    exact hset
  · have happly := Operation.applyPatch_single_lenient Path.root path operation tree
    rw [hwalk] at happly
    exact ⟨_, happly, Operation.foldlM_applyPatch_lenient Path.root operation paths tree⟩
  · have hdelete := eraseFrom_eq_foldl hpath hnames hkeyed hpaths Path.root
    rw [List.foldl_reverse] at hdelete
    simp only [← delete_eq_eraseFrom] at hdelete
    exact hdelete

/-- Positions that are listed out of order and twice. The first array loses both of its elements and the
second one its only element. -/
theorem Json.edits_eq_foldl_indices :
    let tree : Json := .object [("a", .array [.array [.null, .string "x"], .array [.string "y"]])]
    let path : Path := [.values, .indices [1, 0, 1], .elements]
    let paths : List Path := [[.field "a", .index 1, .index 0], [.field "a", .index 0, .index 0],
      [.field "a", .index 0, .index 1]]
    let image : Json → Option Json := fun value => if value.kind = .null then none else some .null
    let operation : Operation := .editString [.append "z"]
    tree.Keyed ∧ Step.names ∉ path ∧ paths.Nodup ∧
      (∀ place, place ∈ paths ↔ place ∈ (tree.locate path).map Prod.fst) ∧
      tree.set path .null = paths.foldl (fun tree place => tree.set place .null) tree ∧
      tree.modify path image = paths.foldl (fun tree place => tree.modify place image) tree ∧
      (∃ result, Patch.apply [(path, operation)] .lenient tree = .ok result ∧
        paths.foldlM (fun tree place => Patch.apply [(place, operation)] .lenient tree) tree =
          .ok result) ∧
      tree.delete path = .object [("a", .array [.array [], .array []])] ∧
      tree.delete path =
        (tree.inDocumentOrder paths).foldr (fun place tree => tree.delete place) tree := by
  intro tree path paths image operation
  have hkeyed : tree.Keyed := by simp [tree, Keyed, Every, EveryItem, EveryEntry, Entries.Distinct]
  have hnames : Step.names ∉ path := by decide
  have hnodup : paths.Nodup := by decide
  have hlocate : (tree.locate path).map Prod.fst = [[.field "a", .index 1, .index 0],
      [.field "a", .index 0, .index 0], [.field "a", .index 0, .index 1],
      [.field "a", .index 1, .index 0]] := rfl
  have hpaths : ∀ place, place ∈ paths ↔ place ∈ (tree.locate path).map Prod.fst := by
    intro place
    rw [hlocate]
    simp only [paths, List.mem_cons, List.not_mem_nil, or_false]
    tauto
  obtain ⟨hset, hmodify, happly, -, hdelete⟩ := edits_eq_foldl hkeyed hnames hnodup hpaths
  exact ⟨hkeyed, hnames, hnodup, hpaths, hset .null, hmodify image, happly operation, rfl,
    hdelete (List.cons_ne_nil _ _)⟩

end JsonEdit
