import JsonEdit.Json.Sift
import JsonEdit.Proofs.Json.DocumentOrder

/-!
# The leaves of a tree that is taken apart

Two nodes may have one path when a key repeats, so what a leaf stands below is not read off its path. The
line of a leaf is the list of the nodes from the root down to it, and the lines of a tree stand in the
order of the document.

A predicate that holds of a node takes the whole node to the first tree. So a leaf goes there with the
first node of its line below the root that is chosen, and it goes to the second tree if there is none.
-/

namespace JsonEdit.Json

variable {tree : Json} {path : Path}

/-! ### Leaves -/

def leafNodesFrom (path : Path) (tree : Json) : List (Path × Json) :=
  (nodesFrom .parentFirst path tree).filter fun node => !node.2.isContainer

/-- The null, boolean, number and string values of a tree, in the order of the document. -/
def leaves (tree : Json) : List Json := (leafNodesFrom Path.root tree).map Prod.snd

theorem leafNodesFrom_of_leaf (hleaf : tree.isContainer = false) (path : Path) :
    leafNodesFrom path tree = [(path, tree)] := by
  cases tree with
  | array | object => cases hleaf
  | _ => rfl

theorem leafNodesFrom_of_container (hcontainer : tree.isContainer) (path : Path) :
    leafNodesFrom path tree =
      tree.children.flatMap fun child => leafNodesFrom (path.child child.1) child.2 := by
  rw [leafNodesFrom, nodesFrom_parentFirst, List.filter_cons, hcontainer, List.filter_flatMap]
  rfl

theorem map_snd_leafNodesFrom (path : Path) (tree : Json) :
    (leafNodesFrom path tree).map Prod.snd = tree.leaves := by
  rw [leaves, leafNodesFrom, leafNodesFrom, nodesFrom_eq_map, ← nodes, List.filter_map, List.map_map]
  rfl

theorem leaves_of_leaf (hleaf : tree.isContainer = false) : tree.leaves = [tree] := by
  rw [leaves, leafNodesFrom_of_leaf hleaf]
  rfl

theorem leaves_of_container (hcontainer : tree.isContainer) :
    tree.leaves = tree.children.flatMap fun child => child.2.leaves := by
  rw [leaves, leafNodesFrom_of_container hcontainer, List.map_flatMap]
  exact List.flatMap_congr fun child _ => map_snd_leafNodesFrom _ child.2

theorem leaves_eq_flatMap_childValues (hcontainer : tree.isContainer) :
    tree.leaves = tree.childValues.flatMap leaves := by
  rw [leaves_of_container hcontainer, childValues, List.flatMap_map]

theorem leaves_array (items : List Json) : (array items).leaves = items.flatMap leaves := by
  rw [leaves_eq_flatMap_childValues rfl, childValues_array]

theorem leaves_object (entries : Entries Json) :
    (object entries).leaves = entries.flatMap fun entry => entry.2.leaves := by
  rw [leaves_eq_flatMap_childValues rfl, childValues_object, List.flatMap_map]

/-! ### Lines -/

mutual

/-- The lines of a tree whose path is `path`: for each leaf the nodes from the tree down to it. -/
def linesFrom (path : Path) : Json → List (List (Path × Json))
  | .array items => (linesOfItems path 0 items).map (List.cons (path, .array items))
  | .object entries => (linesOfEntries path entries).map (List.cons (path, .object entries))
  | leaf => [[(path, leaf)]]

def linesOfItems (path : Path) (position : Nat) : List Json → List (List (Path × Json))
  | [] => []
  | item :: rest =>
    linesFrom (path.child (.index position)) item ++ linesOfItems path (position + 1) rest

def linesOfEntries (path : Path) : List (String × Json) → List (List (Path × Json))
  | [] => []
  | (key, value) :: rest => linesFrom (path.child (.field key)) value ++ linesOfEntries path rest

end

def lines (tree : Json) : List (List (Path × Json)) := linesFrom Path.root tree

def endsOf (lines : List (List (Path × Json))) : List Json :=
  (lines.filterMap List.getLast?).map Prod.snd

theorem linesFrom_of_leaf (hleaf : tree.isContainer = false) (path : Path) :
    linesFrom path tree = [[(path, tree)]] := by
  cases tree with
  | array | object => cases hleaf
  | _ => rfl

theorem linesOfItems_eq_flatMap (path : Path) (start : Nat) (items : List Json) :
    linesOfItems path start items =
      (items.zipIdx start).flatMap fun item => linesFrom (path.child (.index item.2)) item.1 := by
  induction items generalizing start with
  | nil => rfl
  | cons item rest ih => rw [linesOfItems, ih, List.zipIdx_cons, List.flatMap_cons]

theorem linesOfEntries_eq_flatMap (path : Path) (entries : Entries Json) :
    linesOfEntries path entries =
      entries.flatMap fun entry => linesFrom (path.child (.field entry.1)) entry.2 := by
  induction entries with
  | nil => rfl
  | cons entry rest ih => rw [linesOfEntries, ih, List.flatMap_cons]

/-- The lines of a container are those of its children, and start with the container. -/
theorem linesFrom_of_container (hcontainer : tree.isContainer) (path : Path) :
    linesFrom path tree =
      (tree.children.flatMap fun child => linesFrom (path.child child.1) child.2).map
        (List.cons (path, tree)) := by
  cases tree with
  | array items => rw [linesFrom, linesOfItems_eq_flatMap, children, List.flatMap_map]
  | object entries => rw [linesFrom, linesOfEntries_eq_flatMap, children, List.flatMap_map]
  | _ => cases hcontainer

theorem exists_of_mem_linesFrom {line : List (Path × Json)} (hline : line ∈ linesFrom path tree) :
    ∃ below, line = (path, tree) :: below := by
  cases hcontainer : tree.isContainer with
  | false =>
      rw [linesFrom_of_leaf hcontainer] at hline
      exact ⟨[], List.mem_singleton.mp hline⟩
  | true =>
      rw [linesFrom_of_container hcontainer] at hline
      obtain ⟨below, -, rfl⟩ := List.mem_map.mp hline
      exact ⟨below, rfl⟩

/-- Along a line each node is followed by one of its children. -/
theorem isChain_of_mem_linesFrom {line : List (Path × Json)} (hline : line ∈ linesFrom path tree) :
    line.IsChain fun node next =>
      ∃ step, (step, next.2) ∈ node.2.children ∧ next.1 = node.1.child step := by
  induction tree using induct_children generalizing path line with
  | htree tree ih =>
      cases hcontainer : tree.isContainer with
      | false =>
          rw [linesFrom_of_leaf hcontainer] at hline
          obtain rfl := List.mem_singleton.mp hline
          exact .singleton _
      | true =>
          rw [linesFrom_of_container hcontainer] at hline
          obtain ⟨below, hbelow, rfl⟩ := List.mem_map.mp hline
          obtain ⟨child, hmem, hbelow⟩ := List.mem_flatMap.mp hbelow
          have hchain := ih child hmem hbelow
          obtain ⟨rest, rfl⟩ := exists_of_mem_linesFrom hbelow
          exact .cons_cons ⟨child.1, hmem, rfl⟩ hchain

/-- The lines end with the leaves. -/
theorem getLast?_linesFrom (path : Path) (tree : Json) :
    (linesFrom path tree).filterMap List.getLast? = leafNodesFrom path tree := by
  induction tree using induct_children generalizing path with
  | htree tree ih =>
      cases hcontainer : tree.isContainer with
      | false =>
          rw [linesFrom_of_leaf hcontainer, leafNodesFrom_of_leaf hcontainer]
          rfl
      | true =>
          rw [linesFrom_of_container hcontainer, leafNodesFrom_of_container hcontainer,
            List.filterMap_map, List.filterMap_flatMap]
          refine List.flatMap_congr fun child hmem => ?_
          rw [← ih child hmem]
          refine List.filterMap_congr fun line hline => ?_
          obtain ⟨below, rfl⟩ := exists_of_mem_linesFrom hline
          exact List.getLast?_cons_of_ne_nil (List.cons_ne_nil _ _)

theorem endsOf_linesFrom (path : Path) (tree : Json) : endsOf (linesFrom path tree) = tree.leaves := by
  rw [endsOf, getLast?_linesFrom, map_snd_leafNodesFrom]

/-- To choose among the lines of a container by what follows it is to choose among those of its
children. -/
theorem endsOf_filter_tail (hcontainer : tree.isContainer) (path : Path)
    (select : List (Path × Json) → Bool) :
    endsOf ((linesFrom path tree).filter fun line => select line.tail) =
      tree.children.flatMap fun child =>
        endsOf ((linesFrom (path.child child.1) child.2).filter select) := by
  rw [linesFrom_of_container hcontainer, List.filter_map, endsOf, List.filterMap_map,
    List.filter_flatMap, List.filterMap_flatMap, List.map_flatMap]
  refine List.flatMap_congr fun child _ => congrArg (List.map Prod.snd) ?_
  refine List.filterMap_congr fun line hline => ?_
  obtain ⟨below, rfl⟩ := exists_of_mem_linesFrom (List.mem_of_mem_filter hline)
  exact List.getLast?_cons_of_ne_nil (List.cons_ne_nil _ _)

/-! ### Shares -/

variable (chosen : Path → Json → Bool)

def touches (line : List (Path × Json)) : Bool := line.any fun node => chosen node.1 node.2

def share (path : Path) (value : Json) : Option Json × Option Json :=
  divideChild (chosen path value) value (divideFrom chosen path value)

theorem divideItems_eq_map (path : Path) (start : Nat) (items : List Json) :
    divideItems chosen path start items =
      (items.zipIdx start).map fun item => share chosen (path.child (.index item.2)) item.1 := by
  induction items generalizing start with
  | nil => rfl
  | cons item rest ih =>
      rw [divideItems, ih, List.zipIdx_cons, List.map_cons]
      rfl

theorem divideEntries_eq_map (path : Path) (entries : Entries Json) :
    divideEntries chosen path entries =
      entries.map fun entry => (entry.1, share chosen (path.child (.field entry.1)) entry.2) := by
  induction entries with
  | nil => rfl
  | cons entry rest ih =>
      rw [divideEntries, ih, List.map_cons]
      rfl

/-- The leaves of either tree are those of its shares of the children. -/
theorem leaves_divideFrom_eq_flatMap (hcontainer : tree.isContainer) (path : Path) :
    (divideFrom chosen path tree).1.leaves = (tree.children.flatMap fun child =>
        (share chosen (path.child child.1) child.2).1.toList.flatMap leaves) ∧
      (divideFrom chosen path tree).2.leaves = tree.children.flatMap fun child =>
        (share chosen (path.child child.1) child.2).2.toList.flatMap leaves := by
  cases tree with
  | array items =>
      rw [divideFrom, divideItems_eq_map, children]
      simp only [leaves_array, List.filterMap_eq_flatMap_toList, List.flatMap_assoc, List.flatMap_map,
        and_self]
  | object entries =>
      rw [divideFrom, divideEntries_eq_map, children]
      simp only [leaves_object, List.filterMap_eq_flatMap_toList, List.flatMap_assoc, List.flatMap_map,
        Option.toList_map, and_self]
  | _ => cases hcontainer

theorem leaves_of_isEmptyContainer (hempty : tree.isEmptyContainer) : tree.leaves = [] := by
  cases tree with
  | array items =>
      obtain rfl := List.isEmpty_iff.mp hempty
      rfl
  | object entries =>
      obtain rfl := List.isEmpty_iff.mp hempty
      rfl
  | _ => cases hempty

/-- The first of the two trees has the leaves below a chosen node, not counting the tree itself, and the
second one has the others. -/
def Divided (path : Path) (tree : Json) : Prop :=
  (divideFrom chosen path tree).1.leaves =
      endsOf ((linesFrom path tree).filter fun line => touches chosen line.tail) ∧
    (divideFrom chosen path tree).2.leaves =
      endsOf ((linesFrom path tree).filter fun line => !touches chosen line.tail)

/-- Of a value whose children are divided, the shares have the leaves on lines that are chosen, and the
others. -/
theorem leaves_share (hparts : tree.isContainer → Divided chosen path tree) :
    (share chosen path tree).1.toList.flatMap leaves =
        endsOf ((linesFrom path tree).filter (touches chosen)) ∧
      (share chosen path tree).2.toList.flatMap leaves =
        endsOf ((linesFrom path tree).filter fun line => !touches chosen line) := by
  have htouches : ∀ line ∈ linesFrom path tree,
      touches chosen line = (chosen path tree || touches chosen line.tail) := by
    intro line hline
    obtain ⟨below, rfl⟩ := exists_of_mem_linesFrom hline
    exact List.any_cons
  rw [List.filter_congr htouches, List.filter_congr fun line hline => congrArg _ (htouches line hline),
    share, divideChild]
  cases hchosen : chosen path tree with
  | true =>
      simp only [Bool.true_or, Bool.not_true, List.filter_true, List.filter_false, if_true]
      exact ⟨(List.flatMap_singleton leaves tree).trans (endsOf_linesFrom path tree).symm, rfl⟩
  | false =>
      simp only [Bool.false_or, Bool.false_eq_true, if_false]
      cases hcontainer : tree.isContainer with
      | false =>
          rw [linesFrom_of_leaf hcontainer]
          exact ⟨rfl, (List.flatMap_singleton leaves tree).trans (leaves_of_leaf hcontainer)⟩
      | true =>
          obtain ⟨hfirst, hsecond⟩ := hparts hcontainer
          rw [← hfirst, ← hsecond, if_pos rfl]
          refine ⟨?_, List.flatMap_singleton leaves _⟩
          -- an empty first tree is dropped, and has no leaves
          by_cases hempty : (divideFrom chosen path tree).1.isEmptyContainer
          · rw [if_pos hempty, leaves_of_isEmptyContainer hempty]
            rfl
          · rw [if_neg hempty]
            exact List.flatMap_singleton leaves _

/-- **Every container is divided** by what is chosen on the lines of its leaves. -/
theorem divided (hcontainer : tree.isContainer) (path : Path) : Divided chosen path tree := by
  induction tree using induct_children generalizing path with
  | htree tree ih =>
      obtain ⟨hfirst, hsecond⟩ := leaves_divideFrom_eq_flatMap chosen hcontainer path
      have hshares := fun (child : Step × Json) hmem =>
        leaves_share chosen fun hchild => ih child hmem hchild (path.child child.1)
      rw [Divided, hfirst, hsecond, endsOf_filter_tail hcontainer path (touches chosen),
        endsOf_filter_tail hcontainer path fun line => !touches chosen line]
      exact ⟨List.flatMap_congr fun child hmem => (hshares child hmem).1,
        List.flatMap_congr fun child hmem => (hshares child hmem).2⟩

/-- **Taking a tree apart loses and repeats no leaf.** Every line goes from the root from child to child, and
every leaf is at the end of one line. In the order of the document, the first tree has the leaves on whose
line a node below the root is chosen, and the second tree has the others. They are the trees that retaining
and pruning give. -/
theorem leaves_partition (tree : Json) (hcontainer : tree.isContainer)
    (chosen : Path → Json → Bool) :
    (∀ line ∈ tree.lines, line.head? = some (Path.root, tree) ∧
      line.IsChain fun node next => ∃ step, (step, next.2) ∈ node.2.children ∧ next.1 = node.1.child step) ∧
      tree.lines.filterMap List.getLast? = leafNodesFrom Path.root tree ∧
      (tree.partition chosen).1.leaves =
        endsOf (tree.lines.filter fun line => touches chosen line.tail) ∧
      (tree.partition chosen).2.leaves =
        endsOf (tree.lines.filter fun line => !touches chosen line.tail) ∧
      (tree.partition chosen).1 = tree.retain chosen ∧
      (tree.partition chosen).2 = tree.prune chosen := by
  obtain ⟨hfirst, hsecond⟩ := divided chosen hcontainer Path.root
  have hlines : ∀ line ∈ tree.lines, line.head? = some (Path.root, tree) ∧
      line.IsChain fun node next =>
        ∃ step, (step, next.2) ∈ node.2.children ∧ next.1 = node.1.child step := by
    intro line hline
    obtain ⟨below, rfl⟩ := exists_of_mem_linesFrom hline
    exact ⟨rfl, isChain_of_mem_linesFrom hline⟩
  rw [partition, if_pos hcontainer]
  exact ⟨hlines, getLast?_linesFrom Path.root tree, hfirst, hsecond, rfl, rfl⟩

/-- An array is chosen by its path, and an element further down by its value. Of two entries with one key
each keeps its own leaf. -/
theorem leaves_partition_nested :
    let tree : Json := .object [("a", .array [.bool true, .null]),
      ("k", .array [.array [.null], .string "x"]), ("k", .bool false)]
    let chosen : Path → Json → Bool := fun path value => path = [.field "a"] || value.isNull
    (tree.partition chosen).1.leaves = [.bool true, .null, .null] ∧
      (tree.partition chosen).2.leaves = [.string "x", .bool false] := by
  intro tree chosen
  obtain ⟨-, -, hfirst, hsecond, -, -⟩ := leaves_partition tree rfl chosen
  exact ⟨hfirst, hsecond⟩

end JsonEdit.Json
