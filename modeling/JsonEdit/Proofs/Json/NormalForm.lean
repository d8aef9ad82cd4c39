import JsonEdit.Proofs.Json.Division
import JsonEdit.Proofs.Json.KeyOrder

/-!
# The normal form of a tree

A tree is brought to its normal form in three passes. Taking out nulls leaves containers that are empty,
taking out empty containers from the leaves up leaves none, and sorting the keys only moves what is left.
So each pass keeps what the passes before it have reached, and in a normal form no pass finds anything to do.
No pass loses a leaf that is no null.
-/

namespace JsonEdit.Json

variable {p q : Json → Prop} {tree : Json}

def Below (p : Json → Prop) (tree : Json) : Prop := ∀ child ∈ tree.childValues, child.Every p

/-- Neither null nor a container without children. -/
def Solid (value : Json) : Prop := value.isNull = false ∧ value.isEmptyContainer = false

theorem below_array {items : List Json} : (array items).Below p ↔ ∀ item ∈ items, item.Every p := by
  rw [Below, childValues_array]

theorem below_object {entries : Entries Json} :
    (object entries).Below p ↔ ∀ entry ∈ entries, entry.2.Every p := by
  rw [Below, childValues_object, List.forall_mem_map]

theorem every_iff_below : tree.Every p ↔ p tree ∧ tree.Below p := by
  cases tree with
  | array items => rw [every_array, below_array]
  | object entries => rw [every_object, below_object]
  | _ => exact (and_iff_left (List.forall_mem_nil _)).symm

theorem Below.mono (hbelow : tree.Below p) (himp : ∀ value, p value → q value) : tree.Below q :=
  fun child hmem => (hbelow child hmem).mono himp

/-! ### Without nulls -/

/-- A predicate on values alone divides a node in the same way wherever it stands. -/
theorem divideFrom_of_path (chosen : Json → Bool) (path : Path) (tree : Json) :
    divideFrom (fun _ => chosen) path tree = divideFrom (fun _ => chosen) Path.root tree := by
  induction tree using Json.induct generalizing path with
  | array items ih =>
      have hshares : ∀ item ∈ items.zipIdx,
          share (fun _ => chosen) (path.child (.index item.2)) item.1 =
            share (fun _ => chosen) (Path.root.child (.index item.2)) item.1 := by
        intro item hitem
        have hmem := List.fst_mem_of_mem_zipIdx hitem
        rw [share, share, ih _ hmem, ih _ hmem (Path.root.child _)]
      rw [divideFrom, divideFrom, divideItems_eq_map, divideItems_eq_map, List.map_congr_left hshares]
  | object entries ih =>
      have hshares : ∀ entry ∈ entries,
          (entry.1, share (fun _ => chosen) (path.child (.field entry.1)) entry.2) =
            (entry.1, share (fun _ => chosen) (Path.root.child (.field entry.1)) entry.2) := by
        intro entry hentry
        rw [share, share, ih _ hentry, ih _ hentry (Path.root.child _)]
      rw [divideFrom, divideFrom, divideEntries_eq_map, divideEntries_eq_map,
        List.map_congr_left hshares]
  | _ => rfl

/-- The second tree gets a child without its nulls, unless it is null. -/
theorem share_isNull (path : Path) (value : Json) :
    (share (fun _ value => value.isNull) path value).2 =
      if value.isNull then none else some value.dropNulls := by
  rw [dropNulls, prune, ← divideFrom_of_path isNull path, share, divideChild]
  cases value <;> rfl

theorem filterMap_ite_none {α β : Type} (left : α → Bool) (image : α → β) (items : List α) :
    items.filterMap (fun item => if left item then none else some (image item)) =
      (items.filter fun item => !left item).map image := by
  rw [← List.filterMap_eq_map, List.filterMap_filter]
  refine List.filterMap_congr fun item _ => ?_
  cases left item <;> rfl

theorem dropNulls_array (items : List Json) :
    (array items).dropNulls = array ((items.filter fun item => !item.isNull).map dropNulls) := by
  have hkept : (items.zipIdx.map Prod.fst).filterMap
      (fun item => if item.isNull then none else some item.dropNulls) =
        items.zipIdx.filterMap fun item =>
          (share (fun _ value => value.isNull) (Path.root.child (.index item.2)) item.1).2 := by
    rw [List.filterMap_map]
    exact List.filterMap_congr fun item _ => (share_isNull _ item.1).symm
  rw [List.zipIdx_map_fst] at hkept
  rw [← filterMap_ite_none, hkept, dropNulls, prune, divideFrom, divideItems_eq_map]
  exact congrArg array List.filterMap_map

theorem dropNulls_object (entries : Entries Json) :
    (object entries).dropNulls =
      object ((entries.filter fun entry => !entry.2.isNull).map fun entry =>
        (entry.1, entry.2.dropNulls)) := by
  rw [← filterMap_ite_none, dropNulls, prune, divideFrom, divideEntries_eq_map, object.injEq,
    List.filterMap_map]
  refine List.filterMap_congr fun entry _ => ?_
  change ((share (fun _ value => value.isNull) _ entry.2).2.map fun value => (entry.1, value)) = _
  rw [share_isNull]
  cases entry.2.isNull <;> rfl

theorem childValues_dropNulls (tree : Json) :
    tree.dropNulls.childValues = (tree.childValues.filter fun child => !child.isNull).map dropNulls := by
  cases tree with
  | array items => rw [dropNulls_array, childValues_array, childValues_array]
  | object entries =>
      rw [dropNulls_object, childValues_object, childValues_object, List.filter_map, List.map_map,
        List.map_map]
      rfl
  | _ => rfl

theorem isNull_dropNulls (tree : Json) : tree.dropNulls.isNull = tree.isNull := by
  cases tree <;> rfl

theorem isContainer_dropNulls (tree : Json) : tree.dropNulls.isContainer = tree.isContainer := by
  cases tree <;> rfl

/-- No null is left below the root. -/
theorem below_dropNulls (tree : Json) : tree.dropNulls.Below fun node => node.isNull = false := by
  induction tree using induct_childValues with
  | htree tree ih =>
      rw [Below, childValues_dropNulls, List.forall_mem_map]
      intro child hchild
      obtain ⟨hmem, hkept⟩ := List.mem_filter.mp hchild
      rw [every_iff_below, isNull_dropNulls]
      exact ⟨by simpa using hkept, ih child hmem⟩

theorem dropNulls_eq_self (hbelow : tree.Below fun node => node.isNull = false) :
    tree.dropNulls = tree := by
  induction tree using Json.induct with
  | array items ih =>
      have hitems := fun item hitem => every_iff_below.mp (below_array.mp hbelow item hitem)
      rw [dropNulls_array, List.filter_eq_self.mpr fun item hitem => by rw [(hitems item hitem).1]; rfl,
        array.injEq]
      exact map_eq_self fun item hitem => ih item hitem (hitems item hitem).2
  | object entries ih =>
      have hentries := fun entry hentry => every_iff_below.mp (below_object.mp hbelow entry hentry)
      rw [dropNulls_object, List.filter_eq_self.mpr fun entry hentry => by rw [(hentries entry hentry).1]; rfl,
        object.injEq]
      apply Entries.map_values_eq_self
      intro entry hentry
      exact ih entry hentry (hentries entry hentry).2
  | _ => rfl

/-- What has no images may be left out. -/
theorem flatMap_filter_of_nil {α β : Type} {kept : α → Bool} {images : α → List β} {items : List α}
    (hnil : ∀ item ∈ items, kept item = false → images item = []) :
    (items.filter kept).flatMap images = items.flatMap images := by
  induction items with
  | nil => rfl
  | cons item items ih =>
      obtain ⟨hitem, hitems⟩ := List.forall_mem_cons.mp hnil
      rw [List.filter_cons, List.flatMap_cons, ← ih hitems]
      by_cases hkept : kept item
      · rw [if_pos hkept, List.flatMap_cons]
      · rw [if_neg hkept, hitem (by simpa using hkept), List.nil_append]

theorem filter_leaves_of_isNull (hnull : tree.isNull) :
    (tree.leaves.filter fun leaf => !leaf.isNull) = [] := by
  cases tree with
  | null => rfl
  | _ => cases hnull

/-- A value that is no null loses its nulls and no other leaf. -/
theorem leaves_dropNulls (hnull : tree.isNull = false) :
    tree.dropNulls.leaves = tree.leaves.filter fun leaf => !leaf.isNull := by
  induction tree using induct_childValues with
  | htree tree ih =>
      by_cases hcontainer : tree.isContainer
      · rw [leaves_eq_flatMap_childValues ((isContainer_dropNulls tree).trans hcontainer),
          leaves_eq_flatMap_childValues hcontainer, childValues_dropNulls, List.flatMap_map,
          List.filter_flatMap]
        refine (List.flatMap_congr fun child hchild => ?_).trans
          (flatMap_filter_of_nil fun child _ hkept => filter_leaves_of_isNull (by simpa using hkept))
        obtain ⟨hmem, hkept⟩ := List.mem_filter.mp hchild
        exact ih child hmem (by simpa using hkept)
      · cases tree with
        | null => cases hnull
        | array | object => exact absurd rfl hcontainer
        | _ => rfl

/-! ### Without empty containers -/

theorem dropEmpty_array (items : List Json) :
    (array items).dropEmpty =
      array ((items.map dropEmpty).filter fun item => !item.isEmptyContainer) :=
  transformUp_array dropEmptyChildren items

theorem dropEmpty_object (entries : Entries Json) :
    (object entries).dropEmpty =
      object ((entries.map fun entry => (entry.1, entry.2.dropEmpty)).filter fun entry =>
        !entry.2.isEmptyContainer) :=
  transformUp_object dropEmptyChildren entries

theorem childValues_dropEmpty (tree : Json) :
    tree.dropEmpty.childValues =
      (tree.childValues.map dropEmpty).filter fun child => !child.isEmptyContainer := by
  cases tree with
  | array items => rw [dropEmpty_array, childValues_array, childValues_array]
  | object entries =>
      rw [dropEmpty_object, childValues_object, childValues_object, List.map_map, List.filter_map,
        List.filter_map, List.map_map]
      rfl
  | _ => rfl

theorem isNull_dropEmpty (tree : Json) : tree.dropEmpty.isNull = tree.isNull := by
  cases tree <;> rfl

theorem isContainer_dropEmpty (tree : Json) : tree.dropEmpty.isContainer = tree.isContainer := by
  cases tree <;> rfl

/-- Nulls do not come back. -/
theorem below_dropEmpty (hbelow : tree.Below fun node => node.isNull = false) :
    tree.dropEmpty.Below Solid := by
  induction tree using induct_childValues with
  | htree tree ih =>
      intro child hchild
      rw [childValues_dropEmpty] at hchild
      obtain ⟨hmem, hkept⟩ := List.mem_filter.mp hchild
      obtain ⟨old, hold, rfl⟩ := List.mem_map.mp hmem
      obtain ⟨hnull, hbelow⟩ := every_iff_below.mp (hbelow old hold)
      exact every_iff_below.mpr
        ⟨⟨(isNull_dropEmpty old).trans hnull, by simpa using hkept⟩, ih old hold hbelow⟩

/-- Where everything is solid there is no empty container to drop. -/
theorem dropEmpty_eq_self (hbelow : tree.Below Solid) : tree.dropEmpty = tree := by
  induction tree using Json.induct with
  | array items ih =>
      have hitems := fun item hitem => every_iff_below.mp (below_array.mp hbelow item hitem)
      have hsame : items.map dropEmpty = items :=
        map_eq_self fun item hitem => ih item hitem (hitems item hitem).2
      rw [dropEmpty_array, hsame, List.filter_eq_self.mpr]
      intro item hitem
      rw [(hitems item hitem).1.2]
      rfl
  | object entries ih =>
      have hentries := fun entry hentry => every_iff_below.mp (below_object.mp hbelow entry hentry)
      have hsame : entries.map (fun entry => (entry.1, entry.2.dropEmpty)) = entries := by
        apply Entries.map_values_eq_self
        intro entry hentry
        exact ih entry hentry (hentries entry hentry).2
      rw [dropEmpty_object, hsame, List.filter_eq_self.mpr]
      intro entry hentry
      rw [(hentries entry hentry).1.2]
      rfl
  | _ => rfl

/-- No leaf is lost with the empty containers. -/
theorem leaves_dropEmpty (tree : Json) : tree.dropEmpty.leaves = tree.leaves := by
  induction tree using induct_childValues with
  | htree tree ih =>
      by_cases hcontainer : tree.isContainer
      · rw [leaves_eq_flatMap_childValues ((isContainer_dropEmpty tree).trans hcontainer),
          leaves_eq_flatMap_childValues hcontainer, childValues_dropEmpty,
          flatMap_filter_of_nil fun child _ hkept => leaves_of_isEmptyContainer (by simpa using hkept),
          List.flatMap_map]
        exact List.flatMap_congr ih
      · cases tree with
        | array | object => exact absurd rfl hcontainer
        | _ => rfl

/-! ### With the keys in order -/

theorem perm_childValues_sortKeys (tree : Json) :
    tree.sortKeys.childValues.Perm (tree.childValues.map sortKeys) := by
  cases tree with
  | array items =>
      rw [sortKeys_array, childValues_array, childValues_array]
  | object entries =>
      rw [sortKeys_object, childValues_object, childValues_object, List.map_map, List.map_map]
      exact (Entries.perm_sorted entries).map _
  | _ => exact .refl _

theorem Solid.sortKeys (hsolid : tree.Solid) : tree.sortKeys.Solid := by
  refine ⟨?_, ?_⟩
  · rw [← hsolid.1]
    cases tree <;> rfl
  · rw [← hsolid.2]
    cases tree with
    | array items =>
        rw [sortKeys_array]
        exact List.isEmpty_map
    | object entries =>
        rw [sortKeys_object]
        exact List.isEmpty_map.trans (Entries.perm_sorted entries).isEmpty_eq
    | _ => rfl

theorem below_sortKeys (hbelow : tree.Below Solid) : tree.sortKeys.Below Solid := by
  induction tree using induct_childValues with
  | htree tree ih =>
      intro child hchild
      obtain ⟨old, hold, rfl⟩ := List.mem_map.mp ((perm_childValues_sortKeys tree).mem_iff.mp hchild)
      obtain ⟨hsolid, hbelow⟩ := every_iff_below.mp (hbelow old hold)
      exact every_iff_below.mpr ⟨hsolid.sortKeys, ih old hold hbelow⟩

theorem isContainer_sortKeys (tree : Json) : tree.sortKeys.isContainer = tree.isContainer := by
  cases tree <;> rfl

/-- To sort the keys only rearranges the leaves. -/
theorem perm_leaves_sortKeys (tree : Json) : tree.sortKeys.leaves.Perm tree.leaves := by
  induction tree using induct_childValues with
  | htree tree ih =>
      by_cases hcontainer : tree.isContainer
      · rw [leaves_eq_flatMap_childValues ((isContainer_sortKeys tree).trans hcontainer),
          leaves_eq_flatMap_childValues hcontainer]
        apply ((perm_childValues_sortKeys tree).flatMap_right leaves).trans
        rw [List.flatMap_map]
        exact .flatMap_left _ ih
      · cases tree with
        | array | object => exact absurd rfl hcontainer
        | _ => exact .refl _

/-- **The normal form is reached and kept.** Strictly below the root of a normal form there is no null and
no empty container, all its keys are in order, and its normal form is the tree itself. A container keeps
all its leaves but the nulls. -/
theorem normalize_normal (tree : Json) :
    tree.normalize.Below Solid ∧
      tree.normalize.InOrder ∧ tree.normalize.normalize = tree.normalize ∧
      (tree.isContainer → tree.normalize.leaves.Perm (tree.leaves.filter fun leaf => !leaf.isNull)) := by
  have hbelow : tree.normalize.Below Solid :=
    below_sortKeys (below_dropEmpty (below_dropNulls tree))
  have horder : tree.normalize.InOrder := inOrder_sortKeys _
  refine ⟨hbelow, horder, ?_, fun hcontainer => ?_⟩
  · -- each pass finds what it would leave behind
    rw [normalize, dropNulls_eq_self (hbelow.mono fun _ hsolid => hsolid.1), dropEmpty_eq_self hbelow,
      horder.sortKeys_eq_self]
  · have hnull : tree.isNull = false := by
      cases tree with
      | array | object => rfl
      | _ => cases hcontainer
    rw [← leaves_dropNulls hnull, ← leaves_dropEmpty tree.dropNulls]
    exact perm_leaves_sortKeys _

/-- Nulls leave empty containers behind, and a key repeats. -/
theorem normalize_normal_nested :
    let tree : Json := .object
      [("c", .array [.null, .array [.object [("x", .null)]], .bool true]), ("b", .object [("y", .array [])]),
        ("a", .string "s"), ("a", .null), ("a", .bool false)]
    tree.isContainer ∧
      tree.normalize = .object [("a", .string "s"), ("a", .bool false), ("c", .array [.bool true])] ∧
      tree.normalize.leaves.Perm [.bool true, .string "s", .bool false] := by
  intro tree
  have htidy : tree.dropNulls.dropEmpty =
      .object [("c", .array [.bool true]), ("a", .string "s"), ("a", .bool false)] := rfl
  have hsorted : Entries.sorted [("c", Json.array [.bool true]), ("a", .string "s"), ("a", .bool false)] =
      [("a", .string "s"), ("a", .bool false), ("c", .array [.bool true])] := by
    simp [Entries.sorted, List.mergeSort, Entries.keyLe]
  have hnormal : tree.normalize =
      .object [("a", .string "s"), ("a", .bool false), ("c", .array [.bool true])] := by
    rw [normalize, htidy, sortKeys_object, hsorted]
    rfl
  exact ⟨rfl, hnormal, (normalize_normal tree).2.2.2 rfl⟩

end JsonEdit.Json
