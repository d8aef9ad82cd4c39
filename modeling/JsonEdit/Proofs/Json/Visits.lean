import JsonEdit.Proofs.Json.DocumentOrder

/-!
# The visits of a fold

A fold is a loop over the list of nodes that belongs to its order, and ends where the loop ends. What the
two lists have in common, and how they differ, is said by addresses: the address of a node has the positions
of the children on the way to it, so that it tells nodes apart whose paths are the same because a key
repeats. Every address is listed once. An address comes before the addresses that go on from it if parents
are visited first, and after them if parents are visited last; of two addresses that part, the one with the
smaller position where they part comes first in either order.
-/

namespace JsonEdit.Json

variable {tree : Json} {order : VisitOrder}

/-! ### A fold is a loop -/

section Fold

variable {β ε : Type} (order : VisitOrder) (visit : Path → Json → β → Except ε β)

theorem foldItems_eq_foldlM (path : Path) (start : Nat) (items : List Json) (carried : β) :
    foldItems order visit path start items carried =
      (items.zipIdx start).foldlM (fun carried item =>
        foldFrom order visit (path.child (.index item.2)) item.1 carried) carried := by
  induction items generalizing start carried with
  | nil => rfl
  | cons item rest ih =>
      rw [foldItems, List.zipIdx_cons, List.foldlM_cons]
      exact congrArg _ (funext fun carried => ih (start + 1) carried)

theorem foldEntries_eq_foldlM (path : Path) (entries : Entries Json) (carried : β) :
    foldEntries order visit path entries carried =
      entries.foldlM (fun carried entry =>
        foldFrom order visit (path.child (.field entry.1)) entry.2 carried) carried := by
  induction entries generalizing carried with
  | nil => rfl
  | cons entry rest ih =>
      rw [foldEntries, List.foldlM_cons]
      exact congrArg _ (funext ih)

def foldBelow (path : Path) (tree : Json) (carried : β) : Except ε β :=
  tree.children.foldlM (fun carried child =>
    foldFrom order visit (path.child child.1) child.2 carried) carried

theorem foldBelow_array (path : Path) (items : List Json) :
    foldBelow order visit path (array items) = foldItems order visit path 0 items := by
  funext carried
  rw [foldItems_eq_foldlM, foldBelow, children, List.foldlM_map]

theorem foldBelow_object (path : Path) (entries : Entries Json) :
    foldBelow order visit path (object entries) = foldEntries order visit path entries := by
  funext carried
  rw [foldEntries_eq_foldlM, foldBelow, children, List.foldlM_map]

theorem foldFrom_parentFirst (path : Path) (tree : Json) (carried : β) :
    foldFrom .parentFirst visit path tree carried =
      (visit path tree carried).bind (foldBelow .parentFirst visit path tree) := by
  cases tree with
  | array items => rw [foldFrom, foldBelow_array]
  | object entries => rw [foldFrom, foldBelow_object]
  | _ => exact (bind_pure (visit path _ carried)).symm

theorem foldFrom_parentLast (path : Path) (tree : Json) (carried : β) :
    foldFrom .parentLast visit path tree carried =
      (foldBelow .parentLast visit path tree carried).bind (visit path tree) := by
  cases tree with
  | array items => rw [foldFrom, foldBelow_array]
  | object entries => rw [foldFrom, foldBelow_object]
  | _ => rfl

/-- **A fold is a loop over the list of the nodes.** -/
theorem foldFrom_eq_foldlM (path : Path) (tree : Json) (carried : β) :
    foldFrom order visit path tree carried =
      (nodesFrom order path tree).foldlM (fun carried node => visit node.1 node.2 carried) carried := by
  induction tree using induct_children generalizing path carried with
  | htree tree ih =>
      have hbelow : foldBelow order visit path tree = fun carried =>
          (tree.children.flatMap fun child => nodesFrom order (path.child child.1) child.2).foldlM
            (fun carried node => visit node.1 node.2 carried) carried := by
        funext carried
        rw [except_foldlM_flatMap]
        exact except_foldlM_congr (fun child hmem carried => ih child hmem _ carried) carried
      rw [nodesFrom_eq_arrange]
      cases order with
      | parentFirst =>
          rw [foldFrom_parentFirst, hbelow]
          rfl
      | parentLast =>
          rw [foldFrom_parentLast, hbelow, VisitOrder.arrange, List.foldlM_append]
          refine congrArg _ (funext fun carried => ?_)
          rw [List.foldlM_cons]
          exact (bind_pure _).symm

end Fold

/-! ### The nodes in both orders -/

theorem nodes_eq (order : VisitOrder) (tree : Json) :
    tree.nodes order =
      order.arrange (Path.root, tree) (tree.children.flatMap fun child =>
        (child.2.nodes order).map fun node => (child.1 :: node.1, node.2)) := by
  rw [nodes, nodesFrom_eq_arrange]
  refine congrArg _ (List.flatMap_congr fun child _ => ?_)
  exact nodesFrom_eq_map order _ child.2

/-- Both orders visit the same nodes. -/
theorem perm_nodes (order other : VisitOrder) (tree : Json) :
    (tree.nodes order).Perm (tree.nodes other) := by
  induction tree using induct_children with
  | htree tree ih =>
      have hbelow := List.Perm.flatMap_left tree.children fun child hmem =>
        (ih child hmem).map fun node => (child.1 :: node.1, node.2)
      rw [nodes_eq, nodes_eq]
      exact (order.perm_arrange _ _).trans ((hbelow.cons _).trans (other.perm_arrange _ _).symm)

/-- If no key repeats, the path of a node leads to it. -/
theorem valueAt?_of_mem_nodes (hkeyed : tree.Keyed) {node : Path × Json} (hnode : node ∈ tree.nodes order) :
    node.1.Concrete ∧ tree.valueAt? node.1 = some node.2 := by
  induction tree using induct_children generalizing node with
  | htree tree ih =>
      rw [nodes_eq, VisitOrder.mem_arrange] at hnode
      rcases hnode with rfl | hnode
      · exact ⟨List.forall_mem_nil _, rfl⟩
      · obtain ⟨child, hmem, hnode⟩ := List.mem_flatMap.mp hnode
        obtain ⟨below, hbelow, rfl⟩ := List.mem_map.mp hnode
        obtain ⟨hstep, hchild⟩ := (mem_children_iff hkeyed.distinctKeys).mp hmem
        obtain ⟨hconcrete, hvalue⟩ := ih child hmem (hkeyed.child? hchild) hbelow
        refine ⟨Path.concrete_cons.mpr ⟨hstep, hconcrete⟩, ?_⟩
        rw [valueAt?, hchild, Option.bind_some, hvalue]

/-- The path of a node leads to it alone, if no key repeats. -/
theorem get_of_mem_nodes (hkeyed : tree.Keyed) {node : Path × Json} (hnode : node ∈ tree.nodes order) :
    tree.get node.1 = [node.2] := by
  obtain ⟨hconcrete, hvalue⟩ := valueAt?_of_mem_nodes hkeyed hnode
  rw [get_of_single hconcrete.hasWildcards, hvalue]
  rfl

/-! ### Addresses -/

def nodeAt? (tree : Json) : List Nat → Option (Path × Json)
  | [] => some (Path.root, tree)
  | position :: rest =>
    tree.children[position]?.bind fun child =>
      (nodeAt? child.2 rest).map fun node => (child.1 :: node.1, node.2)

mutual

def addresses (order : VisitOrder) : Json → List (List Nat)
  | .array items => order.arrange [] (addressesOfItems order 0 items)
  | .object entries => order.arrange [] (addressesOfEntries order 0 entries)
  | _ => [[]]

def addressesOfItems (order : VisitOrder) (position : Nat) : List Json → List (List Nat)
  | [] => []
  | item :: rest =>
    (addresses order item).map (List.cons position) ++ addressesOfItems order (position + 1) rest

def addressesOfEntries (order : VisitOrder) (position : Nat) : List (String × Json) → List (List Nat)
  | [] => []
  | (_, value) :: rest =>
    (addresses order value).map (List.cons position) ++ addressesOfEntries order (position + 1) rest

end

theorem addressesOfItems_eq (order : VisitOrder) (start : Nat) (items : List Json) :
    addressesOfItems order start items =
      (items.zipIdx start).flatMap fun item => (item.1.addresses order).map (List.cons item.2) := by
  induction items generalizing start with
  | nil => rfl
  | cons item rest ih => rw [addressesOfItems, ih, List.zipIdx_cons, List.flatMap_cons]

theorem addressesOfEntries_eq (order : VisitOrder) (start : Nat) (entries : Entries Json) :
    addressesOfEntries order start entries = addressesOfItems order start (entries.map Prod.snd) := by
  induction entries generalizing start with
  | nil => rfl
  | cons entry rest ih => rw [addressesOfEntries, ih, List.map_cons, addressesOfItems]

theorem addresses_eq (order : VisitOrder) (tree : Json) :
    tree.addresses order =
      order.arrange [] (tree.children.zipIdx.flatMap fun child =>
        (child.1.2.addresses order).map (List.cons child.2)) := by
  have hbelow : (tree.children.zipIdx.flatMap fun child =>
      (child.1.2.addresses order).map (List.cons child.2)) = addressesOfItems order 0 tree.childValues := by
    rw [addressesOfItems_eq, childValues, List.zipIdx_map, List.flatMap_map]
    rfl
  rw [hbelow]
  cases tree with
  | array items => rw [addresses, childValues_array]
  | object entries => rw [addresses, addressesOfEntries_eq, childValues_object]
  | _ => cases order <;> rfl

/-- The nodes at the addresses are the nodes, in the same order. -/
theorem map_nodeAt?_addresses (order : VisitOrder) (tree : Json) :
    (tree.addresses order).map tree.nodeAt? = (tree.nodes order).map some := by
  induction tree using induct_children with
  | htree tree ih =>
      have hchildren : (tree.children.flatMap fun child =>
          ((child.2.nodes order).map fun node => (child.1 :: node.1, node.2)).map some) =
            tree.children.zipIdx.flatMap fun child =>
              ((child.1.2.addresses order).map (List.cons child.2)).map tree.nodeAt? := by
        conv_lhs => rw [← List.zipIdx_map_fst 0 tree.children, List.flatMap_map]
        refine List.flatMap_congr fun child hmem => ?_
        have hchild : tree.children[child.2]? = some child.1 := List.mem_zipIdx_iff_getElem?.mp hmem
        have hnode : tree.nodeAt? ∘ List.cons child.2 = fun rest =>
            (child.1.2.nodeAt? rest).map fun node => (child.1.1 :: node.1, node.2) := by
          funext rest
          rw [Function.comp_apply, nodeAt?, hchild, Option.bind_some]
        have hbelow := congrArg (List.map (Option.map fun node => (child.1.1 :: node.1, node.2)))
          (ih child.1 (List.fst_mem_of_mem_zipIdx hmem))
        rw [List.map_map, List.map_map] at hbelow
        rw [List.map_map, List.map_map, hnode]
        exact hbelow.symm
      rw [addresses_eq, nodes_eq, VisitOrder.map_arrange, VisitOrder.map_arrange, List.map_flatMap,
        List.map_flatMap, hchildren]
      rfl

/-- The addresses are those at which there is a node. -/
theorem mem_addresses {address : List Nat} :
    address ∈ tree.addresses order ↔ (tree.nodeAt? address).isSome := by
  constructor
  · intro hmem
    have hnode : tree.nodeAt? address ∈ (tree.nodes order).map some := by
      rw [← map_nodeAt?_addresses]
      exact List.mem_map_of_mem hmem
    obtain ⟨node, -, hnode⟩ := List.mem_map.mp hnode
    rw [← hnode, Option.isSome_some]
  · intro hsome
    induction address generalizing tree with
    | nil =>
        rw [addresses_eq, VisitOrder.mem_arrange]
        exact .inl rfl
    | cons position rest ih =>
        obtain ⟨node, hnode⟩ := Option.isSome_iff_exists.mp hsome
        obtain ⟨child, hchild, hrest⟩ := Option.bind_eq_some_iff.mp hnode
        obtain ⟨below, hbelow, -⟩ := Option.map_eq_some_iff.mp hrest
        rw [addresses_eq, VisitOrder.mem_arrange, List.mem_flatMap]
        refine .inr ⟨(child, position), List.mem_zipIdx_iff_getElem?.mpr hchild, ?_⟩
        exact List.mem_map_of_mem (ih (Option.isSome_of_eq_some hbelow))

/-! ### Before and after -/

/-- The address is visited before the other one, in a tree that has both. -/
def VisitOrder.Earlier (order : VisitOrder) : List Nat → List Nat → Prop
  | [], [] => False
  | [], _ :: _ => order = .parentFirst
  | _ :: _, [] => order = .parentLast
  | first :: path, second :: other => first < second ∨ first = second ∧ order.Earlier path other

namespace VisitOrder

theorem Earlier.asymm {first second : List Nat} (hfirst : order.Earlier first second) :
    ¬order.Earlier second first := by
  intro hsecond
  induction first generalizing second with
  | nil =>
      cases second with
      | nil => exact hfirst
      | cons => cases hfirst.symm.trans hsecond
  | cons position first ih =>
      cases second with
      | nil => cases hfirst.symm.trans hsecond
      | cons other second =>
          rcases hfirst with hless | ⟨rfl, hfirst⟩
          · rcases hsecond with hless' | ⟨rfl, -⟩ <;> omega
          · rcases hsecond with hless | ⟨-, hsecond⟩
            · omega
            · exact ih hfirst hsecond

/-- Below one node the order of visits is that of the rest of the address. -/
theorem earlier_append_iff (parent first second : List Nat) :
    order.Earlier (parent ++ first) (parent ++ second) ↔ order.Earlier first second := by
  induction parent with
  | nil => exact Iff.rfl
  | cons position parent ih => simp [Earlier, ih]

end VisitOrder

theorem pairwise_addresses (order : VisitOrder) (tree : Json) :
    (tree.addresses order).Pairwise order.Earlier := by
  induction tree using induct_children with
  | htree tree ih =>
      have hcons : ∀ address ∈ tree.children.zipIdx.flatMap fun child =>
          (child.1.2.addresses order).map (List.cons child.2), ∃ position rest, address = position :: rest := by
        intro address hmem
        obtain ⟨child, -, hmem⟩ := List.mem_flatMap.mp hmem
        obtain ⟨rest, -, rfl⟩ := List.mem_map.mp hmem
        exact ⟨child.2, rest, rfl⟩
      rw [addresses_eq]
      apply VisitOrder.pairwise_arrange
      · rw [List.pairwise_flatMap]
        constructor
        · intro child hmem
          rw [List.pairwise_map]
          apply (ih child.1 (List.fst_mem_of_mem_zipIdx hmem)).imp
          intro first second hearlier
          exact .inr ⟨rfl, hearlier⟩
        · -- below different children the addresses begin with different positions
          have hpositions : tree.children.zipIdx.Pairwise fun child other => child.2 < other.2 := by
            rw [← List.pairwise_map, List.zipIdx_map_snd]
            exact List.pairwise_lt_range'
          apply hpositions.imp
          intro child other hless first hfirst second hsecond
          obtain ⟨_, -, rfl⟩ := List.mem_map.mp hfirst
          obtain ⟨_, -, rfl⟩ := List.mem_map.mp hsecond
          exact .inl hless
      all_goals
        intro horder address hmem
        obtain ⟨position, rest, rfl⟩ := hcons address hmem
        exact horder

/-- Every node is visited once. -/
theorem nodup_addresses (order : VisitOrder) (tree : Json) : (tree.addresses order).Nodup := by
  apply (pairwise_addresses order tree).imp
  rintro first second hearlier rfl
  exact hearlier.asymm hearlier

/-- In a list that ascends, the smaller of two items stands before the other one. -/
theorem pair_sublist {α : Type} {before : α → α → Prop} {items : List α}
    (hasymm : ∀ first second, before first second → ¬before second first) (hitems : items.Pairwise before)
    {first second : α} (hfirst : first ∈ items) (hsecond : second ∈ items) (hbefore : before first second) :
    [first, second].Sublist items := by
  induction items with
  | nil => cases hfirst
  | cons item items ih =>
      obtain ⟨hitem, hitems⟩ := List.pairwise_cons.mp hitems
      rcases List.mem_cons.mp hsecond with rfl | hlater
      · -- nothing in the list is smaller than its first item
        rcases List.mem_cons.mp hfirst with rfl | hlater
        · exact absurd hbefore (hasymm _ _ hbefore)
        · exact absurd (hitem first hlater) (hasymm _ _ hbefore)
      · rcases List.mem_cons.mp hfirst with rfl | hfirst
        · exact (List.singleton_sublist.mpr hlater).cons_cons first
        · exact (ih hitems hfirst hlater).cons item

theorem sublist_addresses {first second : List Nat} (hfirst : (tree.nodeAt? first).isSome)
    (hsecond : (tree.nodeAt? second).isSome) (hearlier : order.Earlier first second) :
    [first, second].Sublist (tree.addresses order) :=
  pair_sublist (fun _ _ => VisitOrder.Earlier.asymm) (pairwise_addresses order tree)
    (mem_addresses.mpr hfirst) (mem_addresses.mpr hsecond) hearlier

/-- On the way to a node there are nodes. -/
theorem isSome_nodeAt?_of_append {parent below : List Nat} (hsome : (tree.nodeAt? (parent ++ below)).isSome) :
    (tree.nodeAt? parent).isSome := by
  induction parent generalizing tree with
  | nil => rfl
  | cons position parent ih =>
      obtain ⟨node, hnode⟩ := Option.isSome_iff_exists.mp hsome
      obtain ⟨child, hchild, hrest⟩ := Option.bind_eq_some_iff.mp hnode
      obtain ⟨rest, hrest, -⟩ := Option.map_eq_some_iff.mp hrest
      rw [nodeAt?, hchild, Option.bind_some, Option.isSome_map]
      exact ih (Option.isSome_of_eq_some hrest)

/-- **A fold visits every node once and in order.** It is the loop over the list of nodes that belongs to
its order, which ends at the first error. The lists of both orders have the same nodes, and at each place
of a list stands the node of the address there, with every address once. A node stands before all nodes
below it in the first list and behind them in the second; of two children of a node, the one with the smaller
position stands before the other one in both, and so does all that lies below it. If no key repeats, the
paths are different and lead to the listed nodes and to nothing else. -/
theorem tryFold_visits {β ε : Type} (visit : Path → Json → β → Except ε β) (tree : Json) (start : β) :
    (∀ order, tree.tryFold order visit start =
      (tree.nodes order).foldlM (fun carried node => visit node.1 node.2 carried) start) ∧
    (tree.nodes .parentFirst).Perm (tree.nodes .parentLast) ∧
    (∀ order, (tree.addresses order).map tree.nodeAt? = (tree.nodes order).map some ∧
      (tree.addresses order).Nodup ∧
      ∀ address, address ∈ tree.addresses order ↔ (tree.nodeAt? address).isSome) ∧
    (∀ parent below, below ≠ [] → (tree.nodeAt? (parent ++ below)).isSome →
      [parent, parent ++ below].Sublist (tree.addresses .parentFirst) ∧
      [parent ++ below, parent].Sublist (tree.addresses .parentLast)) ∧
    (∀ order parent (first second : Nat) below below', first < second →
      (tree.nodeAt? (parent ++ first :: below)).isSome →
      (tree.nodeAt? (parent ++ second :: below')).isSome →
      [parent ++ first :: below, parent ++ second :: below'].Sublist (tree.addresses order)) ∧
    (tree.Keyed → ∀ order, ((tree.nodes order).map Prod.fst).Nodup ∧
      ∀ node ∈ tree.nodes order, tree.get node.1 = [node.2]) := by
  refine ⟨?_, perm_nodes _ _ tree, ?_, ?_, ?_, ?_⟩
  · intro order
    exact foldFrom_eq_foldlM order visit Path.root tree start
  · intro order
    exact ⟨map_nodeAt?_addresses order tree, nodup_addresses order tree, fun _ => mem_addresses⟩
  · intro parent below hbelow hsome
    obtain ⟨position, rest, rfl⟩ := List.exists_cons_of_ne_nil hbelow
    have hparent := isSome_nodeAt?_of_append hsome
    have hfirst := (VisitOrder.earlier_append_iff parent [] (position :: rest)).mpr rfl
    have hlast := (VisitOrder.earlier_append_iff parent (position :: rest) []).mpr rfl
    rw [List.append_nil] at hfirst hlast
    exact ⟨sublist_addresses hparent hsome hfirst, sublist_addresses hsome hparent hlast⟩
  · intro order parent first second below below' hless hfirst hsecond
    apply sublist_addresses hfirst hsecond
    exact (VisitOrder.earlier_append_iff parent _ _).mpr (.inl hless)
  · intro hkeyed order
    refine ⟨?_, fun node hnode => get_of_mem_nodes hkeyed hnode⟩
    exact (((perm_nodes order .parentFirst tree).map Prod.fst).nodup_iff).mpr (nodup_nodePaths hkeyed)

/-- Both folds end at the null, which the second one comes to before the root. -/
theorem tryFold_visits_nested :
    let tree : Json := .object [("a", .array [.bool true, .object []]), ("b", .null), ("c", .string "s")]
    let visit : Path → Json → List Path → Except (List Path) (List Path) := fun path node seen =>
      if node.isNull then .error seen else .ok (seen ++ [path])
    tree.tryFold .parentFirst visit [] =
        .error [[], [.field "a"], [.field "a", .index 0], [.field "a", .index 1]] ∧
      tree.tryFold .parentLast visit [] =
        .error [[.field "a", .index 0], [.field "a", .index 1], [.field "a"]] ∧
      [[0], [0, 1]].Sublist (tree.addresses .parentFirst) ∧
      [[0, 1], [0]].Sublist (tree.addresses .parentLast) ∧
      [[0, 1], [2]].Sublist (tree.addresses .parentLast) ∧
      tree.Keyed ∧ tree.get [.field "a", .index 1] = [.object []] := by
  intro tree visit
  have hkeyed : tree.Keyed := by simp [tree, Keyed, Every, EveryItem, EveryEntry, Entries.Distinct]
  obtain ⟨hloop, -, -, hbelow, hchildren, hpaths⟩ := tryFold_visits visit tree []
  refine ⟨?_, ?_, ?_, ?_, ?_, hkeyed, ?_⟩
  · rw [hloop]
    rfl
  · rw [hloop]
    rfl
  · exact (hbelow [0] [1] (List.cons_ne_nil _ _) rfl).1
  · exact (hbelow [0] [1] (List.cons_ne_nil _ _) rfl).2
  · exact hchildren .parentLast [] 0 2 [1] [] (by decide) rfl rfl
  · exact (hpaths hkeyed .parentLast).2 _ (.tail _ (.head _))

end JsonEdit.Json
