import JsonEdit.Json.Fold
import JsonEdit.Proofs.Json.FanOut

/-!
# Places in the order of the document

The nodes of a tree, parents first, are the tree itself and the nodes of its children one after the other.
If no key repeats, every place is there once, and the places below one child are in the order that they
have in that child.
-/

namespace JsonEdit

namespace Path

variable {step : Step} {paths : List Path}

theorem below_map_cons (step first : Step) (paths : List Path) :
    below step (paths.map (List.cons first)) = if first = step then paths else [] := by
  induction paths with
  | nil => rw [ite_self]; rfl
  | cons path paths ih =>
      rw [List.map_cons, below_cons, ih]
      split <;> rfl

theorem below_flatMap {α : Type} (step : Step) (f : α → List Path) (items : List α) :
    below step (items.flatMap f) = items.flatMap fun item => below step (f item) :=
  List.filterMap_flatMap

theorem below_filter (step : Step) (chosen : Path → Bool) (paths : List Path) :
    below step (paths.filter chosen) = (below step paths).filter fun rest => chosen (step :: rest) := by
  induction paths with
  | nil => rfl
  | cons path paths ih =>
      cases path with
      | nil => cases hchosen : chosen [] <;> simpa [List.filter_cons, hchosen, below] using ih
      | cons first rest =>
          rw [below_cons, List.filter_cons]
          by_cases hfirst : first = step
          · subst hfirst
            rw [if_pos rfl, List.filter_cons, ← ih]
            split
            · rw [below_cons, if_pos rfl]
            · rfl
          · rw [if_neg hfirst, ← ih]
            split
            · rw [below_cons, if_neg hfirst]
            · rfl

end Path

namespace Json

def children : Json → List (Step × Json)
  | .array items => items.zipIdx.map fun item => (.index item.2, item.1)
  | .object entries => entries.map fun entry => (.field entry.1, entry.2)
  | _ => []

section Children

variable {tree : Json}

theorem mem_children_iff (hdistinct : tree.DistinctKeys) {step : Step} {child : Json} :
    (step, child) ∈ tree.children ↔ step.isConcrete ∧ tree.child? step = some child := by
  constructor
  · intro hmem
    cases tree with
    | array items =>
        obtain ⟨⟨item, position⟩, hitem, ⟨⟩⟩ := List.mem_map.mp hmem
        exact ⟨rfl, List.mem_zipIdx_iff_getElem?.mp hitem⟩
    | object entries =>
        obtain ⟨⟨key, value⟩, hentry, ⟨⟩⟩ := List.mem_map.mp hmem
        exact ⟨rfl, Entries.Distinct.find?_of_mem hdistinct hentry⟩
    | _ => cases hmem
  · rintro ⟨hconcrete, hchild⟩
    cases tree with
    | array items =>
        obtain ⟨position, hposition, hitem⟩ := Option.bind_eq_some_iff.mp hchild
        rw [Step.eq_index_of_position? hposition]
        exact List.mem_map.mpr ⟨(child, position), List.mem_zipIdx_iff_getElem?.mpr hitem, rfl⟩
    | object entries =>
        obtain ⟨key, hkey, hfound⟩ := Option.bind_eq_some_iff.mp hchild
        rw [Step.eq_field_of_entryKey? hconcrete hkey]
        exact List.mem_map.mpr ⟨(key, child), Entries.mem_of_find? hfound, rfl⟩
    | _ => cases hchild

theorem map_fst_children_array (items : List Json) :
    (array items).children.map Prod.fst = (List.range items.length).map Step.index := by
  rw [List.range_eq_range', ← List.zipIdx_map_snd, children, List.map_map, List.map_map]
  rfl

theorem map_fst_children_object (entries : Entries Json) :
    (object entries).children.map Prod.fst = (entries.map Prod.fst).map Step.field := by
  rw [children, List.map_map, List.map_map]
  rfl

theorem nodup_children (hdistinct : tree.DistinctKeys) : (tree.children.map Prod.fst).Nodup := by
  cases tree with
  | array items =>
      rw [map_fst_children_array]
      exact List.nodup_range.map fun _ _ hsame => Step.index.inj hsame
  | object entries =>
      rw [map_fst_children_object]
      exact (Entries.distinct_iff_nodup.mp hdistinct).map fun _ _ hsame => Step.field.inj hsame
  | _ => exact List.nodup_nil

theorem mem_children_of_placeIn {place : Place} (hplace : PlaceIn tree place) :
    (place.step, place.value) ∈ tree.children := by
  cases hplace with
  | @element items position item hitem =>
      exact List.mem_map.mpr ⟨(item, position), List.mem_zipIdx_iff_getElem?.mpr hitem, rfl⟩
  | value hentry => exact List.mem_map.mpr ⟨_, List.mem_of_getElem? hentry, rfl⟩

theorem flatMap_children (hdistinct : tree.DistinctKeys) {α : Type} (f : Json → List α) {step : Step}
    {child : Json} (hmem : (step, child) ∈ tree.children) :
    (tree.children.flatMap fun other => if other.1 = step then f other.2 else []) = f child := by
  have hnodup := nodup_children hdistinct
  generalize tree.children = items at hnodup hmem
  induction items with
  | nil => cases hmem
  | cons item items ih =>
      obtain ⟨hfresh, hnodup⟩ := List.nodup_cons.mp hnodup
      rw [List.flatMap_cons]
      rcases List.mem_cons.mp hmem with rfl | hmem
      · have hothers : (items.flatMap fun other => if other.1 = step then f other.2 else []) = [] := by
          refine List.flatMap_eq_nil_iff.mpr fun other hother => if_neg ?_
          rintro rfl
          exact hfresh (List.mem_map.mpr ⟨other, hother, rfl⟩)
        rw [hothers, if_pos rfl, List.append_nil]
      · have hother : item.1 ≠ step := by
          rintro rfl
          exact hfresh (List.mem_map.mpr ⟨_, hmem, rfl⟩)
        rw [if_neg hother, List.nil_append, ih hnodup hmem]

/-- Induction from the children to the tree. -/
theorem induct_children {motive : Json → Prop}
    (htree : ∀ tree, (∀ child ∈ tree.children, motive child.2) → motive tree) (tree : Json) :
    motive tree := by
  induction tree using Json.induct with
  | array items ih =>
      refine htree _ fun child hmem => ?_
      obtain ⟨item, hitem, rfl⟩ := List.mem_map.mp hmem
      exact ih _ (List.fst_mem_of_mem_zipIdx hitem)
  | object entries ih =>
      refine htree _ fun child hmem => ?_
      obtain ⟨entry, hentry, rfl⟩ := List.mem_map.mp hmem
      exact ih entry hentry
  | _ => exact htree _ (List.forall_mem_nil _)

end Children

def childValues (tree : Json) : List Json := tree.children.map Prod.snd

theorem childValues_array (items : List Json) : (array items).childValues = items := by
  rw [childValues, children, List.map_map]
  exact List.zipIdx_map_fst 0 items

theorem childValues_object (entries : Entries Json) :
    (object entries).childValues = entries.map Prod.snd := by
  rw [childValues, children, List.map_map]
  rfl

/-- Induction from the values of the children to the tree. -/
theorem induct_childValues {motive : Json → Prop}
    (htree : ∀ tree, (∀ child ∈ tree.childValues, motive child) → motive tree) (tree : Json) :
    motive tree := by
  induction tree using induct_children with
  | htree tree ih => exact htree tree (List.forall_mem_map.mpr ih)

/-! ### Nodes -/

namespace VisitOrder

variable {α β : Type} {parent : α} {below : List α}

def arrange (order : VisitOrder) (parent : α) (below : List α) : List α :=
  match order with
  | .parentFirst => parent :: below
  | .parentLast => below ++ [parent]

theorem perm_arrange (order : VisitOrder) (parent : α) (below : List α) :
    (order.arrange parent below).Perm (parent :: below) := by
  cases order with
  | parentFirst => exact .refl _
  | parentLast => exact List.perm_append_singleton parent below

theorem mem_arrange {order : VisitOrder} {item : α} :
    item ∈ order.arrange parent below ↔ item = parent ∨ item ∈ below :=
  (perm_arrange order parent below).mem_iff.trans List.mem_cons

theorem map_arrange (order : VisitOrder) (f : α → β) :
    (order.arrange parent below).map f = order.arrange (f parent) (below.map f) := by
  cases order with
  | parentFirst => exact List.map_cons
  | parentLast => exact List.map_append

theorem pairwise_arrange {order : VisitOrder} {before : α → α → Prop} (hbelow : below.Pairwise before)
    (hfirst : order = .parentFirst → ∀ item ∈ below, before parent item)
    (hlast : order = .parentLast → ∀ item ∈ below, before item parent) :
    (order.arrange parent below).Pairwise before := by
  cases order with
  | parentFirst => exact List.pairwise_cons.mpr ⟨hfirst rfl, hbelow⟩
  | parentLast =>
      refine List.pairwise_append.mpr ⟨hbelow, List.pairwise_singleton _ _, ?_⟩
      intro item hitem
      exact List.forall_mem_singleton.mpr (hlast rfl item hitem)

end VisitOrder

theorem nodesOfItems_eq_flatMap (order : VisitOrder) (trail : Path) (start : Nat) (items : List Json) :
    nodesOfItems order trail start items =
      (items.zipIdx start).flatMap fun item => nodesFrom order (trail.child (.index item.2)) item.1 := by
  induction items generalizing start with
  | nil => rfl
  | cons item rest ih => rw [nodesOfItems, ih, List.zipIdx_cons, List.flatMap_cons]

theorem nodesOfEntries_eq_flatMap (order : VisitOrder) (trail : Path) (entries : Entries Json) :
    nodesOfEntries order trail entries =
      entries.flatMap fun entry => nodesFrom order (trail.child (.field entry.1)) entry.2 := by
  induction entries with
  | nil => rfl
  | cons entry rest ih => rw [nodesOfEntries, ih, List.flatMap_cons]

theorem nodesFrom_eq_arrange (order : VisitOrder) (trail : Path) (tree : Json) :
    nodesFrom order trail tree =
      order.arrange (trail, tree) (tree.children.flatMap fun child =>
        nodesFrom order (trail.child child.1) child.2) := by
  cases tree with
  | array items =>
      rw [children, List.flatMap_map, ← nodesOfItems_eq_flatMap]
      cases order <;> rfl
  | object entries =>
      rw [children, List.flatMap_map, ← nodesOfEntries_eq_flatMap]
      cases order <;> rfl
  | _ => cases order <;> rfl

theorem nodesFrom_parentFirst (trail : Path) (tree : Json) :
    nodesFrom .parentFirst trail tree =
      (trail, tree) :: tree.children.flatMap fun child =>
        nodesFrom .parentFirst (trail.child child.1) child.2 :=
  nodesFrom_eq_arrange .parentFirst trail tree

/-- The paths of nodes go on from the path of the tree. -/
theorem nodesFrom_eq_map (order : VisitOrder) (trail : Path) (tree : Json) :
    nodesFrom order trail tree = (tree.nodes order).map fun node => (trail ++ node.1, node.2) := by
  unfold nodes
  induction tree using induct_children generalizing trail with
  | htree tree ih =>
      have hchildren : ∀ child ∈ tree.children,
          nodesFrom order (trail.child child.1) child.2 =
            (nodesFrom order (Path.root.child child.1) child.2).map fun node =>
              (trail ++ node.1, node.2) := by
        intro child hmem
        rw [ih child hmem (trail.child child.1), ih child hmem (Path.root.child child.1), List.map_map]
        simp [Path.child, Path.root]
      rw [nodesFrom_eq_arrange, nodesFrom_eq_arrange, VisitOrder.map_arrange, List.map_flatMap,
        List.flatMap_congr hchildren, Path.root, List.append_nil]

def nodePaths (tree : Json) : List Path := (tree.nodes .parentFirst).map Prod.fst

theorem map_fst_nodesFrom (trail : Path) (tree : Json) :
    (nodesFrom .parentFirst trail tree).map Prod.fst = tree.nodePaths.map (trail ++ ·) := by
  rw [nodesFrom_eq_map .parentFirst, nodePaths, List.map_map, List.map_map]
  rfl

theorem nodePaths_eq (tree : Json) :
    tree.nodePaths =
      [] :: tree.children.flatMap fun child => child.2.nodePaths.map (List.cons child.1) := by
  rw [nodePaths, nodes, nodesFrom_parentFirst, List.map_cons, List.map_flatMap]
  refine congrArg (List.cons []) (List.flatMap_congr fun child _ => ?_)
  exact map_fst_nodesFrom (Path.root.child child.1) child.2

theorem nil_mem_nodePaths (tree : Json) : [] ∈ tree.nodePaths := by
  rw [nodePaths_eq]
  exact List.mem_cons_self

section NodePaths

variable {tree : Json}

/-- A key is reported by the step to its value, and nothing lies below it. -/
theorem exists_child_of_mem_names {place : Place} (hplace : place ∈ tree.places .names) {rest below : Path}
    (hbelow : below ∈ place.value.reached rest) :
    ∃ child, (place.step, child) ∈ tree.children ∧ below = [] := by
  cases tree with
  | object entries =>
      obtain ⟨⟨entry, position⟩, hentry, rfl⟩ := List.mem_map.mp hplace
      refine ⟨entry.2, List.mem_map_of_mem (List.fst_mem_of_mem_zipIdx hentry), ?_⟩
      cases rest with
      | nil => exact List.mem_singleton.mp hbelow
      | cons => cases hbelow
  | _ => cases hplace

/-- What a path leads to is among the places of the tree. -/
theorem mem_nodePaths_of_mem_reached {path place : Path} (hmem : place ∈ tree.reached path) :
    place ∈ tree.nodePaths := by
  induction path generalizing tree place with
  | nil =>
      rw [List.mem_singleton.mp hmem]
      exact nil_mem_nodePaths tree
  | cons step rest ih =>
      obtain ⟨first, hfirst, below, hbelow, rfl⟩ := mem_reached_cons.mp hmem
      have hchild : ∃ child, (first.step, child) ∈ tree.children ∧ below ∈ child.nodePaths := by
        by_cases hnames : step = .names
        · subst hnames
          obtain ⟨child, hchild, rfl⟩ := exists_child_of_mem_names hfirst hbelow
          exact ⟨child, hchild, nil_mem_nodePaths child⟩
        · exact ⟨first.value, mem_children_of_placeIn (placeIn_of_mem_places hnames hfirst), ih hbelow⟩
      obtain ⟨child, hchild, hbelow⟩ := hchild
      rw [nodePaths_eq]
      exact List.mem_cons_of_mem _ (List.mem_flatMap.mpr ⟨_, hchild, List.mem_map_of_mem hbelow⟩)

theorem below_nodePaths (hdistinct : tree.DistinctKeys) {step : Step} (hconcrete : step.isConcrete)
    {child : Json} (hchild : tree.child? step = some child) :
    Path.below step tree.nodePaths = child.nodePaths := by
  have hmem := (mem_children_iff hdistinct).mpr ⟨hconcrete, hchild⟩
  have hnil : ∀ paths, Path.below step ([] :: paths) = Path.below step paths := fun _ => rfl
  rw [nodePaths_eq, hnil, Path.below_flatMap]
  simp only [Path.below_map_cons]
  exact flatMap_children hdistinct nodePaths hmem

/-- No two places have one path, if no key repeats. -/
theorem nodup_nodePaths (hkeyed : tree.Keyed) : tree.nodePaths.Nodup := by
  induction tree using induct_children with
  | htree tree ih =>
      have hdistinct := hkeyed.distinctKeys
      rw [nodePaths_eq, List.nodup_cons, List.nodup_flatMap]
      refine ⟨?_, fun child hmem => ?_, ?_⟩
      · intro hroot
        obtain ⟨child, -, hchild⟩ := List.mem_flatMap.mp hroot
        obtain ⟨_, -, hnil⟩ := List.mem_map.mp hchild
        cases hnil
      · obtain ⟨-, hchild⟩ := (mem_children_iff hdistinct).mp hmem
        exact (ih child hmem (hkeyed.child? hchild)).map (List.cons_injective)
      · -- below different children the paths begin with different steps
        refine (List.pairwise_map.mp (nodup_children hdistinct)).imp fun hsteps path hpath hother => ?_
        obtain ⟨_, -, rfl⟩ := List.mem_map.mp hpath
        obtain ⟨_, -, hsame⟩ := List.mem_map.mp hother
        exact hsteps (List.cons.inj hsame).1.symm

end NodePaths

/-- The places of a tree that are listed, in the order of the document. -/
def inDocumentOrder (tree : Json) (paths : List Path) : List Path := tree.nodePaths.filter paths.contains

section Order

variable {tree : Json} {path : Path} {paths : List Path}

theorem mem_inDocumentOrder {place : Path} :
    place ∈ tree.inDocumentOrder paths ↔ place ∈ tree.nodePaths ∧ place ∈ paths := by
  rw [inDocumentOrder, List.mem_filter, List.contains_iff_mem]

theorem below_inDocumentOrder (hdistinct : tree.DistinctKeys) {step : Step}
    (hconcrete : step.isConcrete) {child : Json} (hchild : tree.child? step = some child) :
    Path.below step (tree.inDocumentOrder paths) = child.inDocumentOrder (Path.below step paths) := by
  rw [inDocumentOrder, Path.below_filter, below_nodePaths hdistinct hconcrete hchild, inDocumentOrder]
  refine List.filter_congr fun rest _ => ?_
  rw [Bool.eq_iff_iff, List.contains_iff_mem, List.contains_iff_mem, Path.mem_below]

/-- The places of a path are all there, each of them once. -/
theorem perm_inDocumentOrder (hkeyed : tree.Keyed) (hnodup : paths.Nodup)
    (hpaths : ∀ place, place ∈ paths ↔ place ∈ tree.reached path) :
    (tree.inDocumentOrder paths).Perm paths := by
  refine (List.perm_ext_iff_of_nodup ((nodup_nodePaths hkeyed).filter _) hnodup).mpr fun place => ?_
  rw [← inDocumentOrder, mem_inDocumentOrder]
  refine and_iff_right_of_imp fun hmem => ?_
  exact mem_nodePaths_of_mem_reached ((hpaths place).mp hmem)

end Order

end Json

end JsonEdit
