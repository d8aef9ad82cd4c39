import JsonEdit.Proofs.Patch.Failure
import JsonEdit.Proofs.Patch.FanOut

/-!
# A patch that sets is an edit that sets

To set along a path and to apply a patch that sets there are two walks, and the patch counts the places in
a third one. Under the lenient mode they do the same. Under the other modes the patch also asks that the
path leads to exactly one place, where a place that is reached twice counts twice.
-/

namespace JsonEdit

namespace Operation

/-- Under the modes that can fail the path has to lead to exactly one place, and the walk has to give a
new tree. -/
theorem applyAt_ok_eq_ok_iff {mode : PatchMode} (hmode : mode ≠ .lenient) {base path : Path}
    {new tree result : Json} (unresolved : Fault) :
    applyAt mode base path (fun _ _ => .ok new) tree = .ok result ↔
      (tree.locateFrom base path).length = 1 ∧
        Json.changedOr unresolved (tree.updateFrom (fun _ _ => .ok (some new)) base path) = .ok result := by
  have hkeep : ∀ outcome : Except Fault Json, mode.recover tree outcome = outcome := fun outcome =>
    PatchMode.recover_of_finishes (fun hlenient => absurd hlenient hmode) tree
  match hplaces : tree.locateFrom base path with
  | [] =>
      rw [applyAt_of_none hplaces, hkeep]
      exact iff_of_false nofun nofun
  | [place] =>
      rw [applyAt_of_one hplaces, hkeep, and_iff_right List.length_singleton]
      change (tree.updateFrom (fun _ _ => .ok (some new)) base path).map _ = _ ↔ _
      cases hupdate : tree.updateFrom (fun _ _ => .ok (some new)) base path with
      | error fault => exact Iff.rfl
      | ok after =>
          cases after with
          | none =>
              -- the place gets a new value
              have hnone := Json.updateFrom_eq_ok_none_iff.mp hupdate place
                (hplaces ▸ List.mem_singleton_self place)
              cases hnone
          | some changed => exact Iff.rfl
  | first :: second :: more =>
      rw [applyAt_of_many hmode hplaces]
      exact iff_of_false nofun fun hone => nomatch hone.1

theorem applyPatch_set (mode : PatchMode) (base path : Path) (new tree : Json) :
    applyPatch mode base [(path, .set new)] tree =
      applyAt mode base path (fun _ _ => .ok new) tree := by
  rw [applyPatch_single]
  simp only [apply]

end Operation

/-- **To set by a patch is to set.** The lenient mode gives what setting gives, which leaves the tree as
it was where the path leads nowhere. The other modes give what setting gives if the path leads to exactly
one value and setting has a result, and fail in every other case. -/
theorem Patch.apply_set (tree : Json) (path : Path) (new : Json) :
    Patch.apply [(path, .set new)] .lenient tree = .ok (tree.set path new) ∧
    ∀ result : Json,
      (Patch.apply [(path, .set new)] .strict tree = .ok result ↔
        (tree.get path).length = 1 ∧ tree.trySet path new = .ok result) ∧
      (Patch.apply [(path, .set new)] .clobber tree = .ok result ↔
        (tree.get path).length = 1 ∧ tree.trySet path new = .ok result) := by
  have hmode : ∀ mode : PatchMode, mode ≠ .lenient → ∀ result : Json,
      (Patch.apply [(path, .set new)] mode tree = .ok result ↔
        (tree.get path).length = 1 ∧ tree.trySet path new = .ok result) := by
    intro mode hmode result
    rw [Patch.apply, Operation.applyPatch_set, Json.get, List.length_map]
    exact Operation.applyAt_ok_eq_ok_iff hmode ⟨.unresolved, path⟩
  refine ⟨?_, fun result => ⟨hmode .strict (by decide) result, hmode .clobber (by decide) result⟩⟩
  have hlenient := Operation.applyPatch_single_lenient Path.root path (.set new) tree
  simp only [Operation.apply] at hlenient
  rw [Json.set_eq_alterFrom]
  exact hlenient

end JsonEdit
