import JsonEdit.Proofs.Outcome
import JsonEdit.Proofs.Patch.Addressing

/-!
# Operations that do not meet

What an operation along a concrete path does depends on the value there alone, and it changes nothing but
this value. Two operations whose paths part can therefore be done in either order. If one of them fails,
it fails in both orders, though of two that fail the first one is reported.
-/

namespace JsonEdit

namespace Operation

section

variable {path other : Path} (hpath : path.Concrete) (hother : other.Concrete)
  (hparts : Json.Parts path other)

include hpath hother hparts

/-- The second operation finds what it would have found without the first one. -/
theorem applyPatch_pair (mode : PatchMode) (base : Path) (first second : Operation) (tree : Json) :
    applyPatch mode base [(path, first), (other, second)] tree =
      (effect mode (base ++ path) first (tree.valueAt? path)).bind fun new =>
        (effect mode (base ++ other) second (tree.valueAt? other)).map
          ((tree.withValueAt path new).withValueAt other) := by
  have hfirst := applyPatch_single_of_concrete hpath mode base first tree
  rw [applyPatch_single] at hfirst
  rw [applyPatch, hfirst]
  cases effect mode (base ++ path) first (tree.valueAt? path) with
  | error fault => rfl
  | ok new =>
      have hsecond := applyPatch_single_of_concrete hother mode base second (tree.withValueAt path new)
      rw [Json.valueAt?_withValueAt_of_parts hpath hother hparts] at hsecond
      exact hsecond

/-- Two operations on places that lie apart can change places. -/
theorem matches_applyPatch_pair (mode : PatchMode) (base : Path) (first second : Operation) (tree : Json) :
    Matches Eq (applyPatch mode base [(path, first), (other, second)] tree)
      (applyPatch mode base [(other, second), (path, first)] tree) := by
  rw [applyPatch_pair hpath hother hparts, applyPatch_pair hother hpath ⟨hparts.2, hparts.1⟩]
  cases effect mode (base ++ path) first (tree.valueAt? path) with
  | error fault =>
      cases effect mode (base ++ other) second (tree.valueAt? other) with
      | error fault' => exact .error fault fault'
      | ok new' => exact .error fault fault
  | ok new =>
      cases effect mode (base ++ other) second (tree.valueAt? other) with
      | error fault' => exact .error fault' fault'
      | ok new' => exact .ok (Json.withValueAt_comm hpath hother hparts tree new new')

/-- An operation leaves what the other path leads to as it was. -/
theorem get_applyPatch_single {mode : PatchMode} {base : Path} {operation : Operation} {tree result : Json}
    (happly : applyPatch mode base [(path, operation)] tree = .ok result) :
    result.get other = tree.get other := by
  rw [applyPatch_single_of_concrete hpath] at happly
  obtain ⟨new, -, rfl⟩ := except_map_eq_ok happly
  rw [Json.get_of_single hother.hasWildcards, Json.get_of_single hother.hasWildcards,
    Json.valueAt?_withValueAt_of_parts hpath hother hparts]

end

end Operation

/-- **Operations that do not meet commute.** Two concrete paths, neither of which leads through the place
of the other: in both orders the result is the same, or, under the modes that can fail, there is none. The
one operation leaves what the path of the other one leads to. -/
theorem Patch.apply_independent {path other : Path} (hpath : path.Concrete) (hother : other.Concrete)
    (hbelow : ¬path <+: other) (habove : ¬other <+: path) (first second : Operation) (tree : Json) :
    (∃ result, Patch.apply [(path, first), (other, second)] .lenient tree = .ok result ∧
      Patch.apply [(other, second), (path, first)] .lenient tree = .ok result) ∧
    (∀ mode : PatchMode, mode ≠ .lenient →
      Matches Eq (Patch.apply [(path, first), (other, second)] mode tree)
        (Patch.apply [(other, second), (path, first)] mode tree)) ∧
    ∀ (mode : PatchMode) (result : Json), Patch.apply [(path, first)] mode tree = .ok result →
      result.get other = tree.get other := by
  have hmatches := fun mode =>
    Operation.matches_applyPatch_pair hpath hother ⟨hbelow, habove⟩ mode Path.root first second tree
  refine ⟨?_, fun mode _ => hmatches mode, fun mode result happly =>
    Operation.get_applyPatch_single hpath hother ⟨hbelow, habove⟩ happly⟩
  obtain ⟨result, hresult⟩ :=
    Operation.exists_applyPatch_lenient Path.root [(path, first), (other, second)] tree
  obtain ⟨swapped, hswapped, rfl⟩ := (hmatches .lenient).exists_ok hresult
  exact ⟨result, hresult, hswapped⟩

/-- An edit that shifts the elements of one array and a change in another, below a repeated key. -/
theorem Patch.apply_independent_shift :
    let path : Path := [.field "a", .index 0]
    let other : Path := [.field "a", .index 1, .field "x"]
    let first : Operation := .editArray [.delete 0 1, .insert 1 [.null, .null]]
    let second : Operation := .addNumber { whole := 1 }
    let tree : Json := .object [("a", .array [.array [.string "u", .string "v"],
      .object [("x", .number { whole := 1 }), ("x", .null)]]), ("a", .null)]
    path.Concrete ∧ other.Concrete ∧ ¬path <+: other ∧ ¬other <+: path ∧
      (∃ result, Patch.apply [(path, first), (other, second)] .lenient tree = .ok result ∧
        Patch.apply [(other, second), (path, first)] .lenient tree = .ok result) ∧
      Matches Eq (Patch.apply [(path, first), (other, second)] .strict tree)
        (Patch.apply [(other, second), (path, first)] .strict tree) ∧
      ∃ result, Patch.apply [(path, first)] .clobber tree = .ok result ∧
        result.get other = tree.get other := by
  intro path other first second tree
  have hpath : path.Concrete := by decide
  have hother : other.Concrete := by decide
  have hbelow : ¬path <+: other := by decide
  have habove : ¬other <+: path := by decide
  obtain ⟨hlenient, hmodes, hget⟩ :=
    apply_independent hpath hother hbelow habove first second tree
  exact ⟨hpath, hother, hbelow, habove, hlenient, hmodes .strict (by decide), _, rfl,
    hget .clobber _ rfl⟩

end JsonEdit
