import JsonEdit.Json.Selection
import JsonEdit.Proofs.Json.FanOut

/-!
# Reading in stages and places by their paths

A path that is two paths in a row is followed in two stages: from every value that the first one leads to,
the second one is followed, and what is found stays in this order. That the second stage starts from
values, and no longer from places, makes no difference to what is read.

Each place is reported with its concrete path. Where no key repeats, this path leads back to the place and
to no other one. A path to keys is left out, since the key is reported by the step to its value.
-/

namespace JsonEdit

namespace Json

variable {tree : Json} {path : Path}

/-! ### Two stages -/

/-- What is read does not depend on the path by which a value was come to. -/
theorem map_snd_locateFrom (trail path : Path) (tree : Json) :
    (tree.locateFrom trail path).map Prod.snd = tree.get path := by
  rw [locateFrom_eq_map, List.map_map, get]
  rfl

/-- **A path in two stages.** -/
theorem get_append (tree : Json) (path rest : Path) :
    tree.get (path ++ rest) = (tree.get path).flatMap fun value => value.get rest := by
  have hstages : ∀ place ∈ tree.locate path,
      (place.2.locateFrom place.1 rest).map Prod.snd = place.2.get rest := by
    intro place _
    exact map_snd_locateFrom place.1 rest place.2
  calc tree.get (path ++ rest)
      = ((tree.locate path).flatMap fun place => place.2.locateFrom place.1 rest).map Prod.snd := by
        rw [get, locate, locateFrom_append, locate]
    _ = (tree.locate path).flatMap fun place => place.2.get rest := by
        rw [List.map_flatMap, List.flatMap_congr hstages]
    _ = (tree.get path).flatMap fun value => value.get rest := by
        rw [get, List.flatMap_map]

theorem get_single (tree : Json) (step : Step) : tree.get [step] = (tree.places step).map Place.value := by
  rw [get, locate_cons, List.map_flatMap, List.map_eq_flatMap]
  rfl

/-! ### Places by their paths -/

/-- **The path of a place leads to it**, if no key repeats. -/
theorem valueAt?_of_mem_locate (hkeyed : tree.Keyed) (hnames : Step.names ∉ path) {place : Path × Json}
    (hmem : place ∈ tree.locate path) : tree.valueAt? place.1 = some place.2 := by
  induction path generalizing tree place with
  | nil =>
      rw [List.mem_singleton.mp hmem]
      rfl
  | cons step rest ih =>
      obtain ⟨hstep, hrest⟩ := not_or.mp (mt List.mem_cons.mpr hnames)
      rw [locate_cons] at hmem
      obtain ⟨first, hfirst, hmem⟩ := List.mem_flatMap.mp hmem
      obtain ⟨below, hbelow, rfl⟩ := List.mem_map.mp hmem
      have hchild : tree.child? first.step = some first.value :=
        (placeIn_of_mem_places (Ne.symm hstep) hfirst).child? hkeyed.distinctKeys
      rw [valueAt?, hchild, Option.bind_some]
      exact ih (hkeyed.child? hchild) hrest hbelow

/-- A place is the only one that its own path leads to, if no key repeats. -/
theorem get_of_mem_locate (hkeyed : tree.Keyed) (hnames : Step.names ∉ path) {place : Path × Json}
    (hmem : place ∈ tree.locate path) : place.1.Concrete ∧ tree.get place.1 = [place.2] := by
  have hconcrete : place.1.Concrete :=
    concrete_of_mem_reached hnames (List.mem_map_of_mem hmem)
  refine ⟨hconcrete, ?_⟩
  rw [get_of_single hconcrete.hasWildcards, valueAt?_of_mem_locate hkeyed hnames hmem]
  rfl

end Json

namespace Selection

/-- A step that never fails is taken at all values. -/
theorem flatMap_ofList (f : Json → List Json) (values : List Json) :
    (ofList values).flatMap (fun value => ofList (f value)) = ofList (values.flatMap f) := by
  have hall : values.mapM (fun value => (ofList (f value)).values) = .ok (values.map f) :=
    List.mapM_pure
  rw [flatMap, ofList, List.flatMap_def]
  change Selection.mk ((values.mapM fun value => (ofList (f value)).values).bind _) = _
  rw [hall]
  rfl

end Selection

/-- **Reading composes, and places are found again.** To follow one path and then another one from
everything that was found is to follow both as one path. If no key repeats and the path does not lead to
keys, each place has a concrete path that leads to its value and to nothing else, and the values of the
places are what the path reads, in the same order. -/
theorem Json.get_composes (tree : Json) (path : Path) :
    (∀ rest : Path,
      (Selection.ofList (tree.get path)).get rest = Selection.ofList (tree.get (path ++ rest))) ∧
    (tree.Keyed → Step.names ∉ path →
      (∀ place ∈ tree.locate path, place.1.Concrete ∧ tree.get place.1 = [place.2]) ∧
      (tree.locate path).map Prod.snd = tree.get path) := by
  refine ⟨?_, ?_⟩
  · intro rest
    rw [Selection.get, Selection.flatMap_ofList, Json.get_append]
  · intro hkeyed hnames
    refine ⟨?_, rfl⟩
    intro place hmem
    exact Json.get_of_mem_locate hkeyed hnames hmem

/-- A position that is listed twice, and the keys of what is found there. -/
theorem Json.get_composes_indices :
    let found : Json := .object [("x", .null), ("y", .bool true)]
    let tree : Json := .object [("a", .array [.null, found]), ("b", .string "z")]
    let path : Path := [.values, .indices [1, 0, 1]]
    tree.Keyed ∧ Step.names ∉ path ∧
      (Selection.ofList (tree.get path)).get [.names] =
        Selection.ofList [.string "x", .string "y", .string "x", .string "y"] ∧
      tree.locate path = [([.field "a", .index 1], found), ([.field "a", .index 0], .null),
        ([.field "a", .index 1], found)] ∧
      Path.Concrete [.field "a", .index 1] ∧ tree.get [.field "a", .index 1] = [found] := by
  intro found tree path
  have hkeyed : tree.Keyed := by simp [tree, found, Keyed, Every, EveryItem, EveryEntry, Entries.Distinct]
  have hnames : Step.names ∉ path := by decide
  have hlocate : tree.locate path = [([.field "a", .index 1], found), ([.field "a", .index 0], .null),
      ([.field "a", .index 1], found)] := rfl
  obtain ⟨hstages, hplaces⟩ := Json.get_composes tree path
  have hplace := (hplaces hkeyed hnames).1 ([.field "a", .index 1], found)
    (hlocate ▸ List.mem_cons_self)
  exact ⟨hkeyed, hnames, hstages [.names], hlocate, hplace⟩

end JsonEdit
