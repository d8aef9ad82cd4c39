import JsonEdit.Proofs.Json.Children

/-!
# A container by its slots

Every element of an array and every value of an object has a slot of its own, also where keys repeat. To
replace the value in each slot by an image keeps the slots, the keys and so the places that a step leads
to. What a walk does below the first step of its path is such a replacement. A place that it comes to
twice is still one slot, and both times the same is put there.
-/

namespace JsonEdit

def Place.withValue (place : Place) (new : Json) : Place := { place with value := new }

namespace Json

def mapPlaces (image : Place → Json) : Json → Json
  | .array items =>
    .array (items.mapIdx fun position item => image ⟨.element position, .index position, item⟩)
  | .object entries =>
    .object (entries.mapIdx fun position entry =>
      (entry.1, image ⟨.value position, .field entry.1, entry.2⟩))
  | leaf => leaf

section

variable {image image' : Place → Json} {tree : Json} {place other : Place}

theorem PlaceIn.eq_of_slot (hplace : PlaceIn tree place) (hother : PlaceIn tree other)
    (hslot : place.slot = other.slot) : place = other := by
  cases hplace with
  | element hitem =>
      cases hother with
      | element hitem' =>
          cases hslot
          cases hitem.symm.trans hitem'
          rfl
  | value hentry =>
      cases hother with
      | value hentry' =>
          cases hslot
          cases hentry.symm.trans hentry'
          rfl

theorem mapPlaces_congr (himage : ∀ place, PlaceIn tree place → image place = image' place) :
    tree.mapPlaces image = tree.mapPlaces image' := by
  cases tree with
  | array items =>
      refine congrArg Json.array (List.ext_getElem? fun position => ?_)
      rw [List.getElem?_mapIdx, List.getElem?_mapIdx]
      cases hitem : items[position]? with
      | none => rfl
      | some item => exact congrArg some (himage _ (.element hitem))
  | object entries =>
      refine congrArg Json.object (List.ext_getElem? fun position => ?_)
      rw [List.getElem?_mapIdx, List.getElem?_mapIdx]
      cases hentry : entries[position]? with
      | none => rfl
      | some entry => exact congrArg (fun value => some (entry.1, value)) (himage _ (.value hentry))
  | _ => rfl

theorem mapPlaces_value (tree : Json) : tree.mapPlaces Place.value = tree := by
  cases tree with
  | array items => exact congrArg Json.array (List.mapIdx_eq_iff.mpr fun _ => Option.map_id'.symm)
  | object entries => exact congrArg Json.object (List.mapIdx_eq_iff.mpr fun _ => Option.map_id'.symm)
  | _ => rfl

theorem mapPlaces_mapPlaces (image image' : Place → Json) (tree : Json) :
    (tree.mapPlaces image).mapPlaces image' =
      tree.mapPlaces fun place => image' (place.withValue (image place)) := by
  cases tree with
  | array items => exact congrArg Json.array List.mapIdx_mapIdx
  | object entries => exact congrArg Json.object List.mapIdx_mapIdx
  | _ => rfl

theorem map_fst_mapIdx (image : Nat → String × Json → Json) (entries : Entries Json) :
    (entries.mapIdx fun position entry => (entry.1, image position entry)).map Prod.fst =
      entries.map Prod.fst := by
  refine List.ext_getElem? fun position => ?_
  rw [List.getElem?_map, List.getElem?_mapIdx, List.getElem?_map, Option.map_map]
  rfl

theorem sameShape_mapPlaces (image : Place → Json) (tree : Json) :
    SameShape tree (tree.mapPlaces image) := by
  cases tree with
  | array items => exact .array List.length_mapIdx
  | object entries => exact .object (map_fst_mapIdx _ entries)
  | _ => exact .refl _

theorem modify_mapIdx {α β : Type} (f : Nat → α → β) (change : β → β) (items : List α) (position : Nat) :
    (items.mapIdx f).modify position change =
      items.mapIdx fun other item => if other = position then change (f other item) else f other item := by
  refine List.ext_getElem? fun other => ?_
  rw [List.getElem?_modify, List.getElem?_mapIdx, List.getElem?_mapIdx]
  cases items[other]? with
  | none => rfl
  | some item => exact congrArg some (if_congr eq_comm rfl rfl)

/-- The slot gets the value and the other slots keep their images. -/
theorem fill_mapPlaces (hplace : PlaceIn tree place) (image : Place → Json) (path : Path) (new : Json) :
    fill place.slot path new (tree.mapPlaces image) =
      .ok (tree.mapPlaces fun other => if other.slot = place.slot then new else image other) := by
  cases hplace with
  | element hitem =>
      simp only [mapPlaces, fill, List.set_eq_modify, modify_mapIdx, Slot.element.injEq]
  | value hentry =>
      simp only [mapPlaces, fill, modify_mapIdx, Slot.value.injEq, apply_ite (Prod.mk _)]

/-! ### The children of the images -/

/-- Where no key repeats, a place is known by the step that leads to it. -/
theorem PlaceIn.eq_of_step (hdistinct : tree.DistinctKeys) (hplace : PlaceIn tree place)
    (hother : PlaceIn tree other) (hstep : place.step = other.step) : place = other := by
  refine hplace.eq_of_slot hother ?_
  cases hplace with
  | element hitem =>
      cases hother with
      | element hitem' =>
          cases hstep
          rfl
  | value hentry =>
      rename_i entries _ _ _
      cases hother with
      | value hentry' =>
          cases hstep
          have hkeys : (entries.map Prod.fst).Nodup := Entries.distinct_iff_nodup.mp hdistinct
          have hlt := (List.getElem?_eq_some_iff.mp hentry).1
          rw [← List.length_map Prod.fst] at hlt
          refine congrArg Slot.value ((List.getElem?_inj hlt hkeys).mp ?_)
          rw [List.getElem?_map, List.getElem?_map, hentry, hentry']
          rfl

theorem PlaceIn.mapPlaces (hplace : PlaceIn tree place) (image : Place → Json) :
    PlaceIn (tree.mapPlaces image) (place.withValue (image place)) := by
  cases hplace with
  | element hitem =>
      refine .element ?_
      rw [List.getElem?_mapIdx, hitem]
      rfl
  | value hentry =>
      refine .value ?_
      rw [List.getElem?_mapIdx, hentry]
      rfl

/-- Where no key repeats, images in slots are images of children. -/
theorem mapsChildren_mapPlaces (hdistinct : tree.DistinctKeys) {child : Step → Json → Json}
    (himage : ∀ place, PlaceIn tree place → image place = child place.step place.value) :
    MapsChildren child tree (tree.mapPlaces image) where
  shape := sameShape_mapPlaces image tree
  child? {step} hconcrete := by
    have hshape := sameShape_mapPlaces image tree
    cases hchild : tree.child? step with
    | none => exact hshape.child?_eq_none hchild
    | some _ =>
        obtain ⟨place, hplace, rfl, rfl⟩ := exists_placeIn_of_child? hconcrete hchild
        have hmapped := (hplace.mapPlaces image).child? (hshape.distinctKeys hdistinct)
        rw [himage place hplace] at hmapped
        exact hmapped

/-! ### The places of the images -/

theorem isFirstEntry_congr {entries others : Entries Json}
    (hkeys : others.map Prod.fst = entries.map Prod.fst) : isFirstEntry others = isFirstEntry entries := by
  have hfind : ∀ (entries : Entries Json) (key : String),
      entries.findIdx (fun entry => entry.1 = key) =
        (entries.map Prod.fst).findIdx (fun other => other = key) := by
    intro entries key
    rw [List.findIdx_map]
    rfl
  funext position key
  rw [isFirstEntry, isFirstEntry, hfind, hfind, hkeys]

theorem zipIdx_mapIdx {α β : Type} (f : Nat → α → β) (items : List α) :
    (items.mapIdx f).zipIdx = items.zipIdx.map fun item => (f item.2 item.1, item.2) := by
  refine List.ext_getElem? fun position => ?_
  rw [List.getElem?_zipIdx, List.getElem?_mapIdx, List.getElem?_map, List.getElem?_zipIdx, Nat.zero_add]
  cases items[position]? <;> rfl

theorem valuePlaces_mapIdx (chosen : Nat → String → Bool) (image : Place → Json) (entries : Entries Json) :
    valuePlaces chosen
        (entries.mapIdx fun position entry =>
          (entry.1, image ⟨.value position, .field entry.1, entry.2⟩)) =
      (valuePlaces chosen entries).map fun place => place.withValue (image place) := by
  rw [valuePlaces, zipIdx_mapIdx, List.filterMap_map, valuePlaces, List.map_filterMap]
  refine List.filterMap_congr fun item _ => ?_
  dsimp only [Function.comp_apply]
  split <;> rfl

theorem elementPlace?_mapIdx (image : Place → Json) (items : List Json) (position : Nat) :
    elementPlace? (items.mapIdx fun position item =>
        image ⟨.element position, .index position, item⟩) position =
      (elementPlace? items position).map fun place => place.withValue (image place) := by
  rw [elementPlace?, List.getElem?_mapIdx, elementPlace?]
  cases items[position]? <;> rfl

/-- **The same places, with the images in them.** -/
theorem places_mapPlaces {step : Step} (hstep : step ≠ .names) (image : Place → Json) (tree : Json) :
    (tree.mapPlaces image).places step =
      (tree.places step).map fun place => place.withValue (image place) := by
  cases tree with
  | array items =>
      cases step with
      | index position =>
          rw [mapPlaces, places, elementPlace?_mapIdx, places]
          cases elementPlace? items position <;> rfl
      | indices positions =>
          rw [mapPlaces, places, places, List.map_filterMap]
          exact List.filterMap_congr fun position _ => elementPlace?_mapIdx image items position
      | elements =>
          rw [mapPlaces, places, places, zipIdx_mapIdx, List.map_map, List.map_map]
          rfl
      | _ => rfl
  | object entries =>
      cases step with
      | field name | key name | keys names =>
          simp only [mapPlaces, places, isFirstEntry_congr (map_fst_mapIdx _ entries)]
          exact valuePlaces_mapIdx _ image entries
      | values =>
          rw [mapPlaces, places, places]
          exact valuePlaces_mapIdx (fun _ _ => true) image entries
      | names => exact absurd rfl hstep
      | _ => rfl
  | _ => rfl

end

end Json

end JsonEdit
