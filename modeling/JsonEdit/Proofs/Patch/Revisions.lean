import JsonEdit.Proofs.Json.Merge
import JsonEdit.Proofs.Patch.Lasting

/-!
# Keys stay distinct

A tree can be revised in four ways along a path, by merging and by a patch. Each of them keeps what
lasts, as long as what it brings in has the property and its paths do not lead to keys. So a tree in
which no key repeats stays such a tree however often it is revised. That is what reading back its text
asks for.
-/

namespace JsonEdit

/-- One change of a tree. What begins with `try` may fail, and so may a patch. -/
inductive Revision where
  | set (path : Path) (new : Json)
  | trySet (path : Path) (new : Json)
  | insert (path : Path) (new : Json)
  | tryInsert (path : Path) (new : Json)
  | delete (path : Path)
  | tryDelete (path : Path)
  | modify (path : Path) (image : Json → Option Json)
  | tryModify (path : Path) (image : Json → Option Json)
  /-- the tree is the left side -/
  | mergeRight (strategy : MergeStrategy) (right : Json)
  /-- the tree is the right side -/
  | mergeLeft (strategy : MergeStrategy) (left : Json)
  | apply (mode : PatchMode) (patch : Patch)

namespace Revision

def run (tree : Json) : Revision → Except Fault Json
  | .set path new => .ok (tree.set path new)
  | .trySet path new => tree.trySet path new
  | .insert path new => .ok (tree.insert path new)
  | .tryInsert path new => tree.tryInsert path new
  | .delete path => .ok (tree.delete path)
  | .tryDelete path => tree.tryDelete path
  | .modify path image => .ok (tree.modify path image)
  | .tryModify path image => tree.tryModify path image
  | .mergeRight strategy right => .ok (tree.merge strategy right)
  | .mergeLeft strategy left => .ok (left.merge strategy tree)
  | .apply mode patch => patch.apply mode tree

/-- One revision after the other. The first one that fails is the last. -/
def runAll (tree : Json) (revisions : List Revision) : Except Fault Json := revisions.foldlM run tree

/-- No path leads to keys, and everything that is brought in has the property, or has it if it is made
from trees that do. -/
def Brings (p : Json → Prop) : Revision → Prop
  | .set path new | .trySet path new | .insert path new | .tryInsert path new =>
    Step.names ∉ path ∧ new.Every p
  | .delete path | .tryDelete path => Step.names ∉ path
  | .modify path image | .tryModify path image =>
    Step.names ∉ path ∧ ∀ value new, value.Every p → image value = some new → new.Every p
  | .mergeRight strategy other | .mergeLeft strategy other => strategy.Keeps p ∧ other.Every p
  | .apply _ patch => patch.Every (.lasting p)

variable {p : Json → Prop}

theorem every_run (hlasting : Json.Lasting p) {revision : Revision} (hbrings : revision.Brings p)
    {tree : Json} (htree : tree.Every p) : Yields (Json.Every p) (revision.run tree) := by
  cases revision with
  | set path new => exact .of_ok (hlasting.set hbrings.1 htree hbrings.2)
  | trySet path new => exact hlasting.trySet hbrings.1 htree hbrings.2
  | insert path new => exact .of_ok (hlasting.insert hbrings.1 htree hbrings.2)
  | tryInsert path new => exact hlasting.tryInsert hbrings.1 htree hbrings.2
  | delete path => exact .of_ok (hlasting.delete hbrings htree)
  | tryDelete path => exact hlasting.tryDelete hbrings htree
  | modify path image =>
      exact .of_ok (hlasting.modify hbrings.1 htree fun value hvalue new => hbrings.2 value new hvalue)
  | tryModify path image =>
      exact hlasting.tryModify hbrings.1 htree fun value hvalue new => hbrings.2 value new hvalue
  | mergeRight strategy right => exact .of_ok (hlasting.merge hbrings.1 htree hbrings.2)
  | mergeLeft strategy left => exact .of_ok (hlasting.merge hbrings.1 hbrings.2 htree)
  | apply mode patch => exact hlasting.applyPatch hbrings mode htree

/-- **A lasting property survives any revisions** that bring in nothing without it. -/
theorem every_runAll (hlasting : Json.Lasting p) {revisions : List Revision}
    (hbrings : ∀ revision ∈ revisions, revision.Brings p) {tree : Json} (htree : tree.Every p) :
    Yields (Json.Every p) (runAll tree revisions) :=
  .foldlM (fun revision hrevision _ hstate => every_run hlasting (hbrings revision hrevision) hstate)
    htree

/-- **No key comes to be repeated,** whatever is done to a tree and in which order, unless a path leads to
keys or something that is brought in repeats one already. -/
theorem keyed_runAll {revisions : List Revision} {tree result : Json} (htree : tree.Keyed)
    (hbrings : ∀ revision ∈ revisions, revision.Brings Json.DistinctKeys)
    (hrun : runAll tree revisions = .ok result) : result.Keyed :=
  every_runAll Json.lasting_distinctKeys hbrings htree result hrun

/-- Elements that get a copy of themselves, a wildcard, keys of both sides of two merges, and a patch in
two modes that adds a key that is there. -/
theorem keyed_runAll_nested :
    let copied : Json → Option Json := fun value =>
      value.entries?.map fun entries => .object (entries.put "copy" value)
    let patch : Patch :=
      [([.field "b"], .nested [(Path.root, .editObject [.add "y" (.bool true), .add "n" .null])])]
    let revisions : List Revision :=
      [.modify [.field "a", .elements] copied, .insert [.values, .field "w"] .null,
        .mergeRight .concat (.object [("c", .null), ("a", .array [.null])]),
        .mergeLeft .deep (.object [("c", .bool true), ("d", .null)]),
        .apply .clobber patch, .apply .lenient patch, .tryDelete [.key "d"]]
    let tree : Json := .object [("a", .array [.object [("x", .null)]]), ("b", .object [("y", .null)])]
    let result : Json :=
      .object [("c", .null),
        ("a", .array [.object [("x", .null), ("copy", .object [("x", .null)])], .null]),
        ("b", .object [("y", .bool true), ("w", .null), ("n", .null)])]
    tree.Keyed ∧ (∀ revision ∈ revisions, revision.Brings Json.DistinctKeys) ∧
      runAll tree revisions = .ok result ∧ result.Keyed := by
  intro copied patch revisions tree result
  have htree : tree.Keyed := by
    simp [tree, Json.Keyed, Json.Every, Json.EveryItem, Json.EveryEntry, Entries.Distinct]
  have hcopied : ∀ value new : Json, value.Every Json.DistinctKeys → copied value = some new →
      new.Every Json.DistinctKeys := by
    intro value new hvalue hnew
    obtain ⟨entries, hentries, rfl⟩ := Option.map_eq_some_iff.mp hnew
    cases value with
    | object others =>
        cases hentries
        exact Json.lasting_distinctKeys.object_put hvalue "copy" hvalue
    | _ => cases hentries
  have hpatch : patch.Every (.lasting Json.DistinctKeys) := by
    simp [patch, Patch.Every, Operation.EveryEntry, Operation.Every, Operation.EveryObjectEdits,
      Operation.EveryObjectEdit, PatchParts.lasting, Json.Every, Json.DistinctKeys, Path.root]
  have hbrings : ∀ revision ∈ revisions, revision.Brings Json.DistinctKeys := by
    simpa [revisions, Brings, hpatch, MergeStrategy.Keeps, Json.Every, Json.EveryItem,
      Json.EveryEntry, Json.DistinctKeys, Entries.Distinct] using hcopied
  have hrun : runAll tree revisions = .ok result := rfl
  exact ⟨htree, hbrings, hrun, keyed_runAll htree hbrings hrun⟩

end Revision

end JsonEdit
