import JsonEdit.Proofs.Json.Division
import JsonEdit.Proofs.Json.Pairs

/-!
# The part of a tree that paths lead to

The fringe of a tree is what its pairs hold: its leaves and its empty containers. A predicate on paths that
reaches down, from a place to all places inside it, takes the part of the fringe to the first tree whose
paths it holds of. A container on the way is kept only for what is kept of its children, and a container
that is chosen is kept whole, even if it is empty. So the first tree has that part of the fringe and nothing
else, as soon as there is something in it.
-/

namespace JsonEdit.Json

variable {tree : Json} {chosen : Path → Bool}

/-! ### The fringe -/

def fringe (tree : Json) : List Json := tree.toPairs.map Prod.snd

def fringeAt (chosen : Path → Bool) (tree : Json) : List Json :=
  (tree.toPairs.filter fun pair => chosen pair.1).map Prod.snd

theorem fringe_of_not_isLeaf (hinner : tree.isLeaf = false) :
    tree.fringe = tree.childValues.flatMap fringe := by
  rw [fringe, toPairs_of_not_isLeaf hinner, List.map_flatMap, childValues, List.flatMap_map]
  exact List.flatMap_congr fun child _ => List.map_map

theorem fringeAt_of_isLeaf (hleaf : tree.isLeaf) :
    tree.fringeAt chosen = if chosen Path.root then [tree] else [] := by
  rw [fringeAt, toPairs_of_isLeaf hleaf, List.filter_cons, List.filter_nil]
  split <;> rfl

theorem fringeAt_of_not_isLeaf (hinner : tree.isLeaf = false) :
    tree.fringeAt chosen =
      tree.children.flatMap fun child => child.2.fringeAt fun rest => chosen (child.1 :: rest) := by
  rw [fringeAt, toPairs_of_not_isLeaf hinner, List.filter_flatMap, List.map_flatMap]
  refine List.flatMap_congr fun child _ => ?_
  rw [List.filter_map, List.map_map]
  rfl

theorem fringeAt_of_forall (hall : ∀ path, chosen path) : tree.fringeAt chosen = tree.fringe := by
  rw [fringeAt, List.filter_eq_self.mpr fun pair _ => hall pair.1, fringe]

/-- At or below every place there is something of the fringe. -/
theorem exists_pair_of_mem_nodePaths {place : Path} (hplace : place ∈ tree.nodePaths) :
    ∃ pair ∈ tree.toPairs, place <+: pair.1 := by
  induction tree using induct_children generalizing place with
  | htree tree ih =>
      rw [nodePaths_eq, List.mem_cons] at hplace
      cases hleaf : tree.isLeaf with
      | true =>
          rw [isLeaf_iff_children.mp hleaf, List.flatMap_nil] at hplace
          obtain rfl := hplace.resolve_right List.not_mem_nil
          rw [toPairs_of_isLeaf hleaf]
          exact ⟨_, List.mem_singleton_self _, List.nil_prefix⟩
      | false =>
          -- a path to the container itself is a beginning of any path through its children
          have hbelow : ∃ child ∈ tree.children, ∃ rest ∈ child.2.nodePaths, place <+: child.1 :: rest := by
            rcases hplace with rfl | hplace
            · have hchildren : tree.children ≠ [] := by
                rw [ne_eq, ← isLeaf_iff_children, hleaf]
                exact Bool.false_ne_true
              obtain ⟨child, hchild⟩ := List.exists_mem_of_ne_nil _ hchildren
              exact ⟨child, hchild, [], nil_mem_nodePaths child.2, List.nil_prefix⟩
            · obtain ⟨child, hchild, hplace⟩ := List.mem_flatMap.mp hplace
              obtain ⟨rest, hrest, rfl⟩ := List.mem_map.mp hplace
              exact ⟨child, hchild, rest, hrest, List.prefix_rfl⟩
          obtain ⟨child, hchild, rest, hrest, hprefix⟩ := hbelow
          obtain ⟨pair, hpair, hrest⟩ := ih child hchild hrest
          rw [toPairs_of_not_isLeaf hleaf]
          refine ⟨_, List.mem_flatMap.mpr ⟨child, hchild, List.mem_map_of_mem hpair⟩, ?_⟩
          exact hprefix.trans ((List.prefix_cons_inj child.1).mpr hrest)

/-! ### What is retained -/

theorem childValues_divideFrom (chosen : Path → Json → Bool) (path : Path) (tree : Json) :
    (divideFrom chosen path tree).1.childValues =
      tree.children.filterMap fun child => (share chosen (path.child child.1) child.2).1 := by
  cases tree with
  | array items =>
      rw [divideFrom, divideItems_eq_map, childValues_array, children, List.filterMap_map,
        List.filterMap_map]
      rfl
  | object entries =>
      rw [divideFrom, divideEntries_eq_map, childValues_object, children, List.filterMap_map,
        List.filterMap_map, List.map_filterMap]
      refine List.filterMap_congr fun entry _ => ?_
      exact Option.map_map .. |>.trans Option.map_id'
  | _ => rfl

theorem isContainer_divideFrom (chosen : Path → Json → Bool) (path : Path) (tree : Json) :
    (divideFrom chosen path tree).1.isContainer = tree.isContainer := by
  cases tree <;> rfl

def ReachesDown (chosen : Path → Bool) : Prop := ∀ path rest, chosen path → chosen (path ++ rest)

/-- The first tree's shares of the children have the part of the fringe at chosen paths. -/
theorem flatMap_fringe_shares (path : Path) (hinner : tree.isLeaf = false)
    (hshares : ∀ child ∈ tree.children,
      (share (fun path _ => chosen path) (path.child child.1) child.2).1.toList.flatMap fringe =
        child.2.fringeAt fun rest => chosen (path.child child.1 ++ rest)) :
    (divideFrom (fun path _ => chosen path) path tree).1.childValues.flatMap fringe =
      tree.fringeAt fun rest => chosen (path ++ rest) := by
  rw [childValues_divideFrom, List.filterMap_eq_flatMap_toList, List.flatMap_assoc,
    List.flatMap_congr hshares, fringeAt_of_not_isLeaf hinner]
  simp only [Path.child, List.append_assoc, List.singleton_append]

/-- A child that is not chosen is kept for its own children, if there are any left. -/
theorem share_of_not_chosen {chosen : Path → Json → Bool} {path : Path} (hchosen : ¬chosen path tree) :
    (share chosen path tree).1 =
      if (divideFrom chosen path tree).1.isLeaf then none else some (divideFrom chosen path tree).1 := by
  rw [share, divideChild, if_neg hchosen, isLeaf, isContainer_divideFrom]
  cases tree.isContainer with
  | true => rfl
  | false => rfl

theorem childValues_of_isLeaf (hleaf : tree.isLeaf) : tree.childValues = [] := by
  rw [childValues, isLeaf_iff_children.mp hleaf, List.map_nil]

theorem fringe_share (hdown : ReachesDown chosen) (path : Path) (tree : Json) :
    (share (fun path _ => chosen path) path tree).1.toList.flatMap fringe =
      tree.fringeAt fun rest => chosen (path ++ rest) := by
  induction tree using induct_children generalizing path with
  | htree tree ih =>
      by_cases hchosen : chosen path
      · rw [share, divideChild, if_pos hchosen, fringeAt_of_forall fun rest => hdown path rest hchosen]
        exact List.flatMap_singleton fringe tree
      · have hparts : (share (fun path _ => chosen path) path tree).1.toList.flatMap fringe =
            (divideFrom (fun path _ => chosen path) path tree).1.childValues.flatMap fringe := by
          rw [share_of_not_chosen hchosen]
          split
          · rename_i hleaf
            rw [childValues_of_isLeaf hleaf]
            rfl
          · rename_i hinner
            rw [← fringe_of_not_isLeaf (by simpa using hinner)]
            exact List.flatMap_singleton fringe _
        rw [hparts]
        cases hleaf : tree.isLeaf with
        | true =>
            rw [childValues_divideFrom, isLeaf_iff_children.mp hleaf, fringeAt_of_isLeaf hleaf,
              Path.root, List.append_nil, if_neg hchosen]
            rfl
        | false => exact flatMap_fringe_shares path hleaf fun child hmem => ih child hmem _

/-- What is retained of a container by a predicate that reaches down has the part of the fringe that the
predicate holds of. -/
theorem fringe_retain (hdown : ReachesDown chosen) (hinner : tree.isLeaf = false)
    (hsome : tree.fringeAt chosen ≠ []) :
    (tree.retain fun path _ => chosen path).fringe = tree.fringeAt chosen := by
  have hparts : (tree.retain fun path _ => chosen path).childValues.flatMap fringe = tree.fringeAt chosen :=
    flatMap_fringe_shares Path.root hinner fun child _ => fringe_share hdown _ child.2
  have hkept : (tree.retain fun path _ => chosen path).isLeaf = false := by
    by_contra hleaf
    rw [childValues_of_isLeaf (by simpa using hleaf)] at hparts
    exact hsome hparts.symm
  rw [fringe_of_not_isLeaf hkept, hparts]

/-! ### Projections -/

/-- The path leads to one of the places or into it. -/
def Enters (places : List Path) (path : Path) : Prop := ∃ place ∈ places, place <+: path

instance (places : List Path) : DecidablePred (Enters places) := fun path =>
  inferInstanceAs (Decidable (∃ place ∈ places, place <+: path))

theorem any_startsWith (places : List Path) (path : Path) :
    places.any path.startsWith = decide (Enters places path) := by
  rw [Bool.eq_iff_iff, List.any_eq_true, decide_eq_true_iff]
  refine exists_congr fun place => and_congr_right fun _ => ?_
  exact List.isPrefixOf_iff_prefix

/-- What lies inside a place that a path enters is entered too. -/
theorem reachesDown_enters (places : List Path) : ReachesDown fun path => decide (Enters places path) := by
  intro path rest hpath
  obtain ⟨place, hplace, hprefix⟩ := of_decide_eq_true hpath
  exact decide_eq_true ⟨place, hplace, hprefix.trans (List.prefix_append path rest)⟩

/-- **A projection has what its paths lead to.** If they lead nowhere it is null. Otherwise the values of
its pairs are, in the same order, the values of those pairs of the tree whose paths start with the path of a
place that is reached. -/
theorem toPairs_project (paths : List Path) (tree : Json) :
    let places := paths.flatMap fun path => (tree.locate path).map Prod.fst
    (places = [] → tree.project paths = .null) ∧
      (places ≠ [] → (tree.project paths).toPairs.map Prod.snd =
        (tree.toPairs.filter fun pair => Enters places pair.1).map Prod.snd) := by
  intro places
  have hproject : tree.project paths =
      if places.isEmpty then .null
      else if places.any Path.isRoot then tree
      else tree.retain fun path _ => places.any path.startsWith := rfl
  constructor
  · intro hnone
    rw [hproject, hnone]
    rfl
  · intro hplaces
    rw [hproject, if_neg (mt List.isEmpty_iff.mp hplaces)]
    by_cases hroot : places.any Path.isRoot
    · rw [if_pos hroot]
      obtain ⟨place, hplace, hempty⟩ := List.any_eq_true.mp hroot
      obtain rfl := List.isEmpty_iff.mp hempty
      rw [List.filter_eq_self.mpr fun pair _ => decide_eq_true ⟨[], hplace, List.nil_prefix⟩]
    · simp only [if_neg hroot, any_startsWith]
      obtain ⟨place, hplace⟩ := List.exists_mem_of_ne_nil _ hplaces
      obtain ⟨path, -, hreached⟩ := List.mem_flatMap.mp hplace
      obtain ⟨pair, hpair, hprefix⟩ := exists_pair_of_mem_nodePaths (mem_nodePaths_of_mem_reached hreached)
      apply fringe_retain (reachesDown_enters places)
      · -- only the root of a leaf is reached
        by_contra hleaf
        rw [Bool.not_eq_false] at hleaf
        rw [toPairs_of_isLeaf hleaf, List.mem_singleton] at hpair
        rw [hpair, Path.root, List.prefix_nil] at hprefix
        subst hprefix
        exact hroot (List.any_eq_true.mpr ⟨_, hplace, rfl⟩)
      · refine List.ne_nil_of_mem (List.mem_map_of_mem (List.mem_filter.mpr ⟨hpair, ?_⟩))
        exact decide_eq_true ⟨place, hplace, hprefix⟩

/-- Both entries of a key, an empty container that is reached and one that is not, and places that
overlap. -/
theorem toPairs_project_overlapping :
    let tree : Json := .object [("a", .array [.null, .array [], .object [("x", .bool true), ("y", .null)]]),
      ("b", .array []), ("k", .string "s"), ("k", .array [.string "t"])]
    let paths : List Path := [[.key "a", .indices [2, 7], .values], [.field "a", .elements, .field "x"],
      [.field "none"], [.field "k"], [.key "a", .index 1]]
    let places := paths.flatMap fun path => (tree.locate path).map Prod.fst
    places ≠ [] ∧
      (tree.project paths).toPairs.map Prod.snd =
        [.array [], .bool true, .null, .string "s", .string "t"] := by
  intro tree paths places
  have hplaces : places ≠ [] := List.cons_ne_nil _ _
  exact ⟨hplaces, (toPairs_project paths tree).2 hplaces⟩

end JsonEdit.Json
