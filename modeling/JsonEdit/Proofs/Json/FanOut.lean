import JsonEdit.Proofs.Json.Images

/-!
# Edits at many places, one place at a time

A path with wildcards leads to many places, and an edit along it is meant to be the edit of each of them.
The walk along the path does all of them in one go: it shows every place as it was before, it may come to
a place twice, and it makes each container anew.

Both ways are compared child by child. The walk does at each child what it does along the rest of the path.
The edits of single places do at a child what those of them do that lead through it. So the two agree by
induction on the path, in whatever order the places are taken.
-/

namespace JsonEdit

namespace Path

def below (step : Step) (paths : List Path) : List Path :=
  paths.filterMap fun
    | [] => none
    | first :: rest => if first = step then some rest else none

variable {step : Step} {paths : List Path}

theorem below_cons (step first : Step) (rest : Path) (paths : List Path) :
    below step ((first :: rest) :: paths) =
      if first = step then rest :: below step paths else below step paths := by
  unfold below
  rw [List.filterMap_cons]
  split <;> rename_i heq <;> split at heq <;> simp_all

theorem mem_below {rest : Path} : rest ∈ below step paths ↔ step :: rest ∈ paths := by
  unfold below
  rw [List.mem_filterMap]
  constructor
  · rintro ⟨path, hpath, hrest⟩
    cases path with
    | nil => cases hrest
    | cons first others =>
        obtain ⟨rfl, hothers⟩ := Option.ite_none_right_eq_some.mp hrest
        cases hothers
        exact hpath
  · intro hpath
    exact ⟨step :: rest, hpath, if_pos rfl⟩

theorem nodup_below (hnodup : paths.Nodup) : (below step paths).Nodup := by
  refine List.Nodup.filterMap ?_ hnodup
  intro path other rest hpath hother
  cases path with
  | nil => cases hpath
  | cons first others =>
      cases other with
      | nil => cases hother
      | cons first' others' =>
          obtain ⟨rfl, hothers⟩ := Option.ite_none_right_eq_some.mp hpath
          obtain ⟨rfl, hothers'⟩ := Option.ite_none_right_eq_some.mp hother
          cases hothers
          cases hothers'
          rfl

end Path

namespace Json

/-! ### The places of a path -/

def reached (tree : Json) (path : Path) : List Path := (tree.locate path).map Prod.fst

theorem locateFrom_eq_map (trail path : Path) (tree : Json) :
    locateFrom trail path tree =
      (tree.locate path).map fun place => (trail ++ place.1, place.2) := by
  unfold locate
  induction path generalizing trail tree with
  | nil => simp [locateFrom, Path.root]
  | cons step rest ih =>
      simp only [locateFrom, List.map_flatMap]
      refine congrArg (List.flatMap · (tree.places step)) (funext fun place => ?_)
      rw [ih (trail.child place.step), ih (Path.root.child place.step), List.map_map]
      simp [Path.child, Path.root]

/-- The places of a path are those of its rest in the children that its first step leads to. -/
theorem locate_cons (step : Step) (rest : Path) (tree : Json) :
    tree.locate (step :: rest) =
      (tree.places step).flatMap fun place =>
        (place.value.locate rest).map fun below => (place.step :: below.1, below.2) := by
  rw [locate, locateFrom]
  refine List.flatMap_congr fun place _ => ?_
  rw [locateFrom_eq_map]
  rfl

theorem reached_nil (tree : Json) : tree.reached [] = [[]] := rfl

theorem mem_reached_cons {tree : Json} {step : Step} {rest path : Path} :
    path ∈ tree.reached (step :: rest) ↔
      ∃ place ∈ tree.places step, ∃ below ∈ place.value.reached rest, path = place.step :: below := by
  rw [reached, locate_cons, List.map_flatMap, List.mem_flatMap]
  refine exists_congr fun place => and_congr_right fun _ => ?_
  rw [List.map_map, List.mem_map]
  simp [reached, eq_comm]

section Reached

variable {tree : Json} {path : Path}

theorem length_of_mem_reached {place : Path} (hmem : place ∈ tree.reached path) :
    place.length = path.length := by
  induction path generalizing tree place with
  | nil => exact congrArg List.length (List.mem_singleton.mp hmem)
  | cons step rest ih =>
      obtain ⟨_, _, below, hbelow, rfl⟩ := mem_reached_cons.mp hmem
      rw [List.length_cons, List.length_cons, ih hbelow]

theorem concrete_of_mem_reached (hnames : Step.names ∉ path) {place : Path}
    (hmem : place ∈ tree.reached path) : place.Concrete := by
  induction path generalizing tree place with
  | nil =>
      rw [List.mem_singleton.mp hmem]
      exact List.forall_mem_nil _
  | cons step rest ih =>
      rw [List.mem_cons, not_or] at hnames
      obtain ⟨first, hfirst, below, hbelow, rfl⟩ := mem_reached_cons.mp hmem
      have hplace := placeIn_of_mem_places (Ne.symm hnames.1) hfirst
      exact Path.concrete_cons.mpr ⟨hplace.isConcrete, ih hnames.2 hbelow⟩

/-- Through a child the path leads to the places that its rest leads to there. -/
theorem mem_reached_child {step other : Step} {rest below : Path} {child : Json} (hstep : step ≠ .names)
    (hdistinct : tree.DistinctKeys) (hchild : tree.child? other = some child) :
    other :: below ∈ tree.reached (step :: rest) ↔
      other ∈ tree.steps step ∧ below ∈ child.reached rest := by
  rw [mem_reached_cons]
  constructor
  · rintro ⟨place, hmem, _, hbelow, ⟨⟩⟩
    have hplace := placeIn_of_mem_places hstep hmem
    cases (hplace.child? hdistinct).symm.trans hchild
    exact ⟨List.mem_map_of_mem hmem, hbelow⟩
  · rintro ⟨hother, hbelow⟩
    obtain ⟨place, hmem, rfl⟩ := List.mem_map.mp hother
    have hplace := placeIn_of_mem_places hstep hmem
    cases (hplace.child? hdistinct).symm.trans hchild
    exact ⟨place, hmem, below, hbelow, rfl⟩

theorem mem_below_reached {step other : Step} {rest : Path} {child : Json} (hstep : step ≠ .names)
    (hdistinct : tree.DistinctKeys) (hchild : tree.child? other = some child)
    (hother : other ∈ tree.steps step) {paths : List Path}
    (hpaths : ∀ place, place ∈ paths ↔ place ∈ tree.reached (step :: rest)) (place : Path) :
    place ∈ Path.below other paths ↔ place ∈ child.reached rest := by
  rw [Path.mem_below, hpaths, mem_reached_child hstep hdistinct hchild]
  exact and_iff_right hother

end Reached

/-! ### Edits that go down from child to child -/

/-- What the edit does along a path it does at each child of the first step along the rest. The edit is
given the path of the tree, the path to follow and the tree. -/
def Descends (edit : Path → Path → Json → Json) (rest : Path) : Prop :=
  ∀ (trail : Path) (step : Step) (tree : Json), step ≠ .names → tree.DistinctKeys →
    MapsChildren
      (fun other child =>
        if other ∈ tree.steps step then edit (trail.child other) rest child else child)
      tree (edit trail (step :: rest) tree)

section Descends

variable {edit : Path → Path → Json → Json} {trail : Path} {tree : Json} {paths : List Path}

/-- Edits of single places, seen from a child. -/
theorem mapsChildren_foldl (hdistinct : tree.DistinctKeys)
    (hpaths : ∀ path ∈ paths, ∃ step rest, path = step :: rest ∧ step.isConcrete ∧ Descends edit rest) :
    MapsChildren
      (fun step child => (Path.below step paths).foldl
        (fun below path => edit (trail.child step) path below) child)
      tree (paths.foldl (fun tree path => edit trail path tree) tree) := by
  induction paths generalizing tree with
  | nil => exact .refl tree
  | cons path paths ih =>
      obtain ⟨⟨first, rest, rfl, hfirst, hdescends⟩, hothers⟩ := List.forall_mem_cons.mp hpaths
      have hnames : first ≠ .names := by
        rintro rfl
        cases hfirst
      have hmaps := hdescends trail first tree hnames hdistinct
      have hrest := ih (hmaps.shape.distinctKeys hdistinct) hothers
      refine (hmaps.trans hrest).congr fun step child _ hchild => ?_
      have hmem : step ∈ tree.steps first ↔ first = step := by
        rw [mem_steps_of_isConcrete hfirst, eq_comm]
        refine and_iff_left_of_imp ?_
        rintro rfl
        exact ⟨child, hchild⟩
      -- the first path changes this child, or leaves it as it is for the others
      rw [Path.below_cons]
      by_cases hsame : first = step
      · rw [if_pos (hmem.mpr hsame), if_pos hsame, List.foldl_cons]
      · rw [if_neg (mt hmem.mp hsame), if_neg hsame]

/-- **The step case.** If the edit along the rest of a path is the edits of single places at each child,
then so is the edit along the path. -/
theorem eq_foldl_of_descends {step : Step} {rest : Path} (hnames : Step.names ∉ step :: rest)
    (hdistinct : tree.DistinctKeys) (hdescends : Descends edit rest)
    (hplaces : ∀ below : Path, below.Concrete → below.length = rest.length → Descends edit below)
    (hpaths : ∀ path, path ∈ paths ↔ path ∈ tree.reached (step :: rest))
    (hchildren : ∀ other child, other.isConcrete → tree.child? other = some child →
      other ∈ tree.steps step →
      edit (trail.child other) rest child = (Path.below other paths).foldl
        (fun below path => edit (trail.child other) path below) child) :
    edit trail (step :: rest) tree = paths.foldl (fun tree path => edit trail path tree) tree := by
  have hstep : step ≠ .names := (List.ne_of_not_mem_cons hnames).symm
  have hfirst : ∀ path ∈ paths,
      ∃ step rest, path = step :: rest ∧ step.isConcrete ∧ Descends edit rest := by
    intro path hpath
    have hreached := (hpaths path).mp hpath
    obtain ⟨place, -, below, hbelow, rfl⟩ := mem_reached_cons.mp hreached
    obtain ⟨hconcrete, hrest⟩ := Path.concrete_cons.mp (concrete_of_mem_reached hnames hreached)
    exact ⟨place.step, below, rfl, hconcrete, hplaces below hrest (length_of_mem_reached hbelow)⟩
  refine MapsChildren.unique hdistinct ((hdescends trail step tree hstep hdistinct).congr ?_)
    (mapsChildren_foldl hdistinct hfirst)
  intro other child hconcrete hchild
  by_cases hother : other ∈ tree.steps step
  · rw [if_pos hother, hchildren other child hconcrete hchild hother]
  · -- no place lies below the child
    have hnone : Path.below other paths = [] := by
      refine List.eq_nil_iff_forall_not_mem.mpr fun below hmem => hother ?_
      have hreached := (hpaths _).mp (Path.mem_below.mp hmem)
      exact ((mem_reached_child hstep hdistinct hchild).mp hreached).1
    rw [if_neg hother, hnone, List.foldl_nil]

end Descends

/-! ### Images of values -/

section Alter

variable {image : Path → Json → Option Json} {trail rest : Path} {tree : Json}

/-- **The walk goes down from child to child**, also where a step comes to a place twice. -/
theorem descends_alterFrom (hnames : Step.names ∉ rest) : Descends (alterFrom image) rest := by
  intro trail step tree hstep hdistinct
  rw [alterFrom_cons (List.not_mem_cons_of_ne_of_not_mem (Ne.symm hstep) hnames)]
  refine mapsChildren_mapPlaces hdistinct fun place hplace => if_congr ?_ rfl rfl
  -- where no key repeats, a slot is come to if its step is
  rw [steps, List.mem_map, List.mem_map]
  refine exists_congr fun other => and_congr_right fun hother => ?_
  have hother' := placeIn_of_mem_places hstep hother
  constructor
  · intro hslot
    rw [hother'.eq_of_slot hplace hslot]
  · intro hsame
    rw [hother'.eq_of_step hdistinct hplace hsame]

/-- **Images at all places of a path are images at one place after the other**, in any order. -/
theorem alterFrom_eq_foldl {path : Path} (hnames : Step.names ∉ path) (hkeyed : tree.Keyed)
    {paths : List Path} (hnodup : paths.Nodup)
    (hpaths : ∀ place, place ∈ paths ↔ place ∈ tree.reached path) :
    alterFrom image trail path tree =
      paths.foldl (fun tree place => alterFrom image trail place tree) tree := by
  induction path generalizing trail tree paths with
  | nil =>
      -- the root is the only place, and it is listed once
      have hsingle : paths = [[]] := by
        refine List.perm_singleton.mp ((List.perm_ext_iff_of_nodup hnodup (List.nodup_singleton _)).mpr ?_)
        exact hpaths
      rw [hsingle, List.foldl_cons, List.foldl_nil]
  | cons step rest ih =>
      obtain ⟨hstep, hrest⟩ := not_or.mp (mt List.mem_cons.mpr hnames)
      have hdistinct := hkeyed.distinctKeys
      refine eq_foldl_of_descends hnames hdistinct (descends_alterFrom hrest) ?_ hpaths ?_
      · intro below hconcrete _
        exact descends_alterFrom hconcrete.names_notMem
      · intro other child hconcrete hchild hother
        refine ih hrest (hkeyed.child? hchild) (Path.nodup_below hnodup) ?_
        exact mem_below_reached (Ne.symm hstep) hdistinct hchild hother hpaths

end Alter

end Json

end JsonEdit
