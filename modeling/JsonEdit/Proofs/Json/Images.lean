import JsonEdit.Proofs.Json.Slots
import JsonEdit.Proofs.Json.Walk

/-!
# Images along a path

To set and to modify along a path is to replace the values at its places by images. Step by step such a
walk is a replacement in the slots of a container, so the same path leads to the same places afterwards,
and there to the images. From this follow the laws of a lens with many places: what is set is read at
every place, of two values that are set the second one stays, and to put back what is there changes
nothing. Repeated keys and positions that are listed twice make no difference.

Keys are left out. A key that is renamed is another step on the way to its value.
-/

namespace JsonEdit.Json

/-- The tree with the images of the values at the places of a path, where they have one; `trail` is the
path of the tree. -/
def alterFrom (image : Path → Json → Option Json) (trail path : Path) (tree : Json) : Json :=
  tree.changedOrSame (updateFrom (fun place value => .ok (image place value)) trail path tree)

/-- To set is to give every place the same image. -/
theorem set_eq_alterFrom (tree : Json) (path : Path) (new : Json) :
    tree.set path new = alterFrom (fun _ _ => some new) Path.root path tree := by
  unfold set trySet alterFrom update
  rcases updateFrom (fun _ _ => .ok (some new)) Path.root path tree with fault | after | after <;> rfl

/-- A walk that asks for images and comes to no keys never fails. -/
theorem exists_updateFrom_image (image : Path → Json → Option Json) {path : Path}
    (hnames : Step.names ∉ path) (trail : Path) (tree : Json) :
    ∃ after, updateFrom (fun place value => .ok (image place value)) trail path tree = .ok after := by
  cases hresult : updateFrom (fun place value => .ok (image place value)) trail path tree with
  | ok after => exact ⟨after, rfl⟩
  | error fault =>
      obtain ⟨place, -, hfault⟩ := List.exists_of_findSome?_eq_some (updateFrom_eq_error_iff.mp hresult)
      have hlast : path.getLast? ≠ some .names := fun hlast => hnames (List.mem_of_getLast? hlast)
      rw [faultAt] at hfault
      cases himage : image place.1 place.2 <;> simp [himage, hlast] at hfault

/-- What is left at a place of the first step when the walk has come to the listed slots. -/
def alterSlots (image : Path → Json → Option Json) (trail rest : Path) (slots : List Slot) (place : Place) :
    Json :=
  if place.slot ∈ slots then alterFrom image (trail.child place.step) rest place.value else place.value

section

variable {image image' : Path → Json → Option Json} {trail path rest : Path} {step : Step} {tree : Json}

theorem alterFrom_nil : alterFrom image trail [] tree = (image trail tree).getD tree := by
  rw [alterFrom, updateFrom]
  cases image trail tree <;> rfl

/-- **Where every value has an image** the walk has a result, and it is the tree with the images. -/
theorem updateFrom_of_images {change : Path → Json → Except Fault (Option Json)}
    (hnames : Step.names ∉ path) (hplaces : tree.locateFrom trail path ≠ [])
    (himages : ∀ place ∈ tree.locateFrom trail path,
      ∃ new, image place.1 place.2 = some new ∧ change place.1 place.2 = .ok (some new)) :
    updateFrom change trail path tree = .ok (some (alterFrom image trail path tree)) := by
  have hsame : updateFrom change trail path tree =
      updateFrom (fun place value => .ok (image place value)) trail path tree := by
    refine updateFrom_congr fun place hmem => ?_
    obtain ⟨new, himage, hchange⟩ := himages place hmem
    rw [hchange, himage]
  obtain ⟨changed, hchanged⟩ := exists_updateFrom_image image hnames trail tree
  rw [hsame, alterFrom, hchanged]
  cases changed with
  | some new => rfl
  | none =>
      -- the first place gets its image
      obtain ⟨place, hmem⟩ := List.exists_mem_of_ne_nil _ hplaces
      obtain ⟨new, himage, -⟩ := himages place hmem
      have hnone := Except.ok.inj (updateFrom_eq_ok_none_iff.mp hchanged place hmem)
      cases himage.symm.trans hnone

/-- At one place the walk puts its image into its slot, whether or not it is there already. -/
theorem getD_updatePlace {place : Place} (hplace : PlaceIn tree place) {slots : List Slot}
    {changed after : Option Json}
    (hchanged : changed.getD tree = tree.mapPlaces (alterSlots image trail rest slots))
    (hafter : updatePlace (fun place value => .ok (image place value)) trail rest tree changed place =
      .ok after) :
    after.getD tree = tree.mapPlaces (alterSlots image trail rest (slots ++ [place.slot])) := by
  have himage : alterFrom image (trail.child place.step) rest place.value =
      place.value.changedOrSame (updateFrom (fun place value => .ok (image place value))
        (trail.child place.step) rest place.value) := rfl
  have hput : tree.mapPlaces (alterSlots image trail rest (slots ++ [place.slot])) =
      tree.mapPlaces fun other =>
        if other.slot = place.slot then alterFrom image (trail.child place.step) rest place.value
        else alterSlots image trail rest slots other := by
    refine mapPlaces_congr fun other hother => ?_
    by_cases hslot : other.slot = place.slot
    · cases hother.eq_of_slot hplace hslot
      simp [alterSlots]
    · simp [alterSlots, hslot]
  rw [hput]
  unfold updatePlace at hafter
  split at hafter
  · cases hafter
  · -- the place keeps its value, which is its own image
    rename_i hnone
    rw [hnone] at himage
    cases hafter
    rw [hchanged, himage]
    refine mapPlaces_congr fun other hother => ?_
    split
    · rename_i hslot
      cases hother.eq_of_slot hplace hslot
      rw [alterSlots, himage]
      exact ite_self place.value
    · rfl
  · rename_i new hnew
    rw [hnew] at himage
    rw [hchanged, fill_mapPlaces hplace] at hafter
    cases hafter
    rw [himage]
    rfl

theorem getD_foldlM_updatePlace {places : List Place} (hplaces : ∀ place ∈ places, PlaceIn tree place)
    {after : Option Json}
    (hafter : places.foldlM
      (updatePlace (fun place value => .ok (image place value)) trail rest tree) none = .ok after) :
    after.getD tree = tree.mapPlaces (alterSlots image trail rest (places.map Place.slot)) := by
  induction places using List.reverseRecOn generalizing after with
  | nil =>
      cases hafter
      exact (mapPlaces_value tree).symm
  | append_singleton places place ih =>
      obtain ⟨hothers, hplace⟩ := List.forall_mem_append.mp hplaces
      rw [List.foldlM_append] at hafter
      obtain ⟨middle, hmiddle, hafter⟩ := except_bind_eq_ok hafter
      rw [List.foldlM_cons] at hafter
      obtain ⟨last, hlast, ⟨⟩⟩ := except_bind_eq_ok hafter
      rw [List.map_append, List.map_singleton]
      exact getD_updatePlace (hplace place (List.mem_singleton_self place)) (ih hothers hmiddle) hlast

/-- **The walk goes down from slot to slot.** -/
theorem alterFrom_cons (hnames : Step.names ∉ step :: rest) (image : Path → Json → Option Json)
    (trail : Path) (tree : Json) :
    alterFrom image trail (step :: rest) tree =
      tree.mapPlaces (alterSlots image trail rest ((tree.places step).map Place.slot)) := by
  obtain ⟨after, hafter⟩ := exists_updateFrom_image image hnames trail tree
  have hresult : alterFrom image trail (step :: rest) tree = after.getD tree := by
    rw [alterFrom, hafter]
    cases after <;> rfl
  rw [updateFrom_cons] at hafter
  rw [hresult]
  refine getD_foldlM_updatePlace (fun place hplace => ?_) hafter
  exact placeIn_of_mem_places (List.ne_of_not_mem_cons hnames).symm hplace

/-! ### Laws -/

/-- **The path leads to the same places, and to the images there.** -/
theorem locateFrom_alterFrom (hnames : Step.names ∉ path) (image : Path → Json → Option Json)
    (trail : Path) (tree : Json) :
    (alterFrom image trail path tree).locateFrom trail path =
      (tree.locateFrom trail path).map fun place => (place.1, (image place.1 place.2).getD place.2) := by
  induction path generalizing trail tree with
  | nil => rw [alterFrom_nil, locateFrom, locateFrom, List.map_singleton]
  | cons step rest ih =>
      obtain ⟨hstep, hrest⟩ := not_or.mp (mt List.mem_cons.mpr hnames)
      rw [alterFrom_cons hnames, locateFrom, places_mapPlaces (Ne.symm hstep), List.flatMap_map, locateFrom,
        List.map_flatMap]
      refine List.flatMap_congr fun place hplace => ?_
      rw [← ih hrest, Place.withValue, alterSlots, if_pos (List.mem_map_of_mem hplace)]

/-- **Images of images** are put in by one walk. -/
theorem alterFrom_alterFrom (hnames : Step.names ∉ path) (image image' : Path → Json → Option Json)
    (trail : Path) (tree : Json) :
    alterFrom image' trail path (alterFrom image trail path tree) =
      alterFrom (fun place value =>
        (image' place ((image place value).getD value)).or (image place value)) trail path tree := by
  induction path generalizing trail tree with
  | nil =>
      rw [alterFrom_nil, alterFrom_nil, alterFrom_nil]
      cases image trail tree <;> cases image' trail _ <;> rfl
  | cons step rest ih =>
      obtain ⟨hstep, hrest⟩ := not_or.mp (mt List.mem_cons.mpr hnames)
      have hslots : ((tree.places step).map fun place =>
          place.withValue (alterSlots image trail rest ((tree.places step).map Place.slot) place)).map
          Place.slot = (tree.places step).map Place.slot := by
        rw [List.map_map]
        rfl
      rw [alterFrom_cons hnames, alterFrom_cons hnames, alterFrom_cons hnames,
        places_mapPlaces (Ne.symm hstep), hslots, mapPlaces_mapPlaces]
      refine mapPlaces_congr fun place _ => ?_
      by_cases hslot : place.slot ∈ (tree.places step).map Place.slot
      · simp only [alterSlots, Place.withValue, if_pos hslot, ih hrest]
      · simp only [alterSlots, Place.withValue, if_neg hslot]

/-- **Nothing changes** if every value at a place of the path is its own image. -/
theorem alterFrom_eq_self (hnames : Step.names ∉ path)
    (himage : ∀ place ∈ tree.locateFrom trail path, (image place.1 place.2).getD place.2 = place.2) :
    alterFrom image trail path tree = tree := by
  induction path generalizing trail tree with
  | nil => rw [alterFrom_nil, himage _ (List.mem_singleton_self _)]
  | cons step rest ih =>
      obtain ⟨hstep, hrest⟩ := not_or.mp (mt List.mem_cons.mpr hnames)
      rw [alterFrom_cons hnames]
      refine Eq.trans (mapPlaces_congr fun place hplace => ?_) (mapPlaces_value tree)
      rw [alterSlots]
      split
      · rename_i hslot
        obtain ⟨other, hother, hsame⟩ := List.mem_map.mp hslot
        cases (placeIn_of_mem_places (Ne.symm hstep) hother).eq_of_slot hplace hsame
        refine ih hrest fun below hbelow => himage below ?_
        exact List.mem_flatMap.mpr ⟨place, hother, hbelow⟩
      · rfl

end

/-- **The laws of a lens with many places.** What is set along a path that does not lead to keys is read
as often as there were values before. Of two values that are set the second one stays. To replace every
value by itself changes nothing at all. -/
theorem set_lens {path : Path} (hnames : Step.names ∉ path) (tree first second : Json) :
    (tree.set path first).get path = List.replicate (tree.get path).length first ∧
    (tree.set path first).set path second = tree.set path second ∧
    tree.modify path some = tree := by
  refine ⟨?_, ?_, ?_⟩
  · have hlocate := locateFrom_alterFrom hnames (fun _ _ => some first) Path.root tree
    rw [set_eq_alterFrom, get, locate, hlocate, List.map_map, get, locate, List.length_map]
    exact List.map_const'
  · simp only [set_eq_alterFrom]
    exact alterFrom_alterFrom hnames _ _ Path.root tree
  · exact alterFrom_eq_self hnames fun _ _ => rfl

/-- Both entries of a key, and positions of which one is listed twice and missing in the second array. -/
theorem set_lens_repeated :
    let tree : Json := .object [("a", .array [.null, .string "x"]), ("a", .array [.string "y"])]
    let path : Path := [.values, .indices [1, 0, 1]]
    Step.names ∉ path ∧
      (tree.set path (.string "z")).get path = List.replicate 4 (.string "z") ∧
      (tree.set path (.string "z")).set path .null = tree.set path .null ∧
      tree.modify path some = tree := by
  intro tree path
  have hnames : Step.names ∉ path := by decide
  obtain ⟨hget, hset, hmodify⟩ := set_lens hnames tree (.string "z") .null
  have hlength : (tree.get path).length = 4 := rfl
  rw [hlength] at hget
  exact ⟨hnames, hget, hset, hmodify⟩

end JsonEdit.Json
