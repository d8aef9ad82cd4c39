import JsonEdit.Proofs.Json.Focus
import JsonEdit.Proofs.Json.Lasting

/-!
# A container by its children

If no key repeats, a container is known by its shape, that is its keys in their order or the number of its
elements, and by the child at every concrete step. What an edit does below the first step of its path can
so be said child by child, and two edits that do the same to every child are the same edit.
-/

namespace JsonEdit

namespace Entries

variable {α : Type} {entries others : Entries α}

/-- Where no key repeats, entries are known by their keys and what is found at them. -/
theorem Distinct.ext (hdistinct : entries.Distinct)
    (hkeys : others.map Prod.fst = entries.map Prod.fst)
    (hfound : ∀ key, entries.find? key = others.find? key) : entries = others := by
  induction entries generalizing others with
  | nil => exact (List.map_eq_nil_iff.mp hkeys).symm
  | cons entry rest ih =>
      obtain ⟨other, others, rfl, hkey, hrest⟩ := List.map_eq_cons_iff.mp hkeys
      obtain ⟨hfresh, hdistinct⟩ := distinct_cons.mp hdistinct
      have hvalue := hfound entry.1
      rw [find?_cons, find?_cons, if_pos rfl, if_pos hkey] at hvalue
      have hothers : rest = others := by
        refine ih hdistinct hrest fun key => ?_
        by_cases hsame : entry.1 = key
        · subst hsame
          have hfresh' : find? entry.1 others = none := by
            rwa [find?_eq_none_iff_notMem, hrest, ← find?_eq_none_iff_notMem]
          rw [hfresh, hfresh']
        · have hlater := hfound key
          rwa [find?_cons, find?_cons, if_neg hsame, if_neg (hkey.trans_ne hsame)] at hlater
      rw [hothers, Prod.ext hkey.symm (Option.some.inj hvalue)]

end Entries

namespace Json

/-! ### Shape -/

inductive SameShape : Json → Json → Prop
  | refl (tree : Json) : SameShape tree tree
  | array {items others : List Json} : others.length = items.length →
      SameShape (.array items) (.array others)
  | object {entries others : Entries Json} : others.map Prod.fst = entries.map Prod.fst →
      SameShape (.object entries) (.object others)

namespace SameShape

variable {tree middle result : Json}

theorem symm (hshape : SameShape tree result) : SameShape result tree := by
  cases hshape with
  | refl => exact .refl tree
  | array hlength => exact .array hlength.symm
  | object hkeys => exact .object hkeys.symm

theorem trans (hfirst : SameShape tree middle) (hsecond : SameShape middle result) :
    SameShape tree result := by
  cases hfirst with
  | refl => exact hsecond
  | array hlength =>
      cases hsecond with
      | refl => exact .array hlength
      | array hlength' => exact .array (hlength'.trans hlength)
  | object hkeys =>
      cases hsecond with
      | refl => exact .object hkeys
      | object hkeys' => exact .object (hkeys'.trans hkeys)

theorem distinctKeys (hshape : SameShape tree result) (hdistinct : tree.DistinctKeys) :
    result.DistinctKeys := by
  cases hshape with
  | refl => exact hdistinct
  | array => trivial
  | object hkeys =>
      rw [DistinctKeys, Entries.distinct_iff_nodup] at hdistinct ⊢
      rwa [hkeys]

theorem child?_eq_none (hshape : SameShape tree result) {step : Step} (hchild : tree.child? step = none) :
    result.child? step = none := by
  cases hshape with
  | refl => exact hchild
  | array hlength =>
      simp only [child?, Option.bind_eq_none_iff, List.getElem?_eq_none_iff, hlength] at hchild ⊢
      exact hchild
  | object hkeys =>
      simp only [child?, Option.bind_eq_none_iff, Entries.find?_eq_none_iff_notMem, hkeys] at hchild ⊢
      exact hchild

/-- **A container is known by its shape and its children**, if no key repeats. -/
theorem eq_of_child? (hshape : SameShape tree result) (hdistinct : tree.DistinctKeys)
    (hchild : ∀ step, step.isConcrete → tree.child? step = result.child? step) : tree = result := by
  cases hshape with
  | refl => rfl
  | array =>
      refine congrArg Json.array (List.ext_getElem? ?_)
      intro position
      exact hchild (.index position) rfl
  | object hkeys =>
      refine congrArg Json.object (Entries.Distinct.ext hdistinct hkeys ?_)
      intro key
      exact hchild (.field key) rfl

end SameShape

/-! ### Children -/

/-- The children are those of the tree, each replaced by its image. -/
structure MapsChildren (image : Step → Json → Json) (tree result : Json) : Prop where
  shape : SameShape tree result
  child? {step : Step} (hconcrete : step.isConcrete) :
    result.child? step = (tree.child? step).map (image step)

namespace MapsChildren

variable {image image' : Step → Json → Json} {tree middle result result' : Json}

theorem refl (tree : Json) : MapsChildren (fun _ child => child) tree tree where
  shape := .refl tree
  child? _ := Option.map_id'.symm

theorem trans (hfirst : MapsChildren image tree middle) (hsecond : MapsChildren image' middle result) :
    MapsChildren (fun step child => image' step (image step child)) tree result where
  shape := hfirst.shape.trans hsecond.shape
  child? hconcrete := by
    rw [hsecond.child? hconcrete, hfirst.child? hconcrete, Option.map_map]
    rfl

theorem congr (hmaps : MapsChildren image tree result)
    (himage : ∀ step child, step.isConcrete → tree.child? step = some child →
      image step child = image' step child) : MapsChildren image' tree result where
  shape := hmaps.shape
  child? {step} hconcrete := by
    rw [hmaps.child? hconcrete]
    cases hchild : tree.child? step with
    | none => rfl
    | some child => exact congrArg some (himage step child hconcrete hchild)

theorem unique (hdistinct : tree.DistinctKeys) (hresult : MapsChildren image tree result)
    (hresult' : MapsChildren image tree result') : result = result' := by
  refine (hresult.shape.symm.trans hresult'.shape).eq_of_child? (hresult.shape.distinctKeys hdistinct) ?_
  intro step hconcrete
  rw [hresult.child? hconcrete, hresult'.child? hconcrete]

end MapsChildren

/-! ### The places of a step -/

/-- The concrete steps to the places that a step leads to. -/
def steps (tree : Json) (step : Step) : List Step := (tree.places step).map Place.step

section Places

variable {tree : Json} {place : Place}

theorem PlaceIn.isConcrete (hplace : PlaceIn tree place) : place.step.isConcrete := by
  cases hplace <;> rfl

theorem PlaceIn.child? (hplace : PlaceIn tree place) (hdistinct : tree.DistinctKeys) :
    tree.child? place.step = some place.value := by
  cases hplace with
  | element hitem => exact hitem
  | value hentry => exact Entries.Distinct.find?_of_mem hdistinct (List.mem_of_getElem? hentry)

theorem exists_placeIn_of_child? {step : Step} (hconcrete : step.isConcrete) {child : Json}
    (hchild : tree.child? step = some child) :
    ∃ place, PlaceIn tree place ∧ place.step = step ∧ place.value = child := by
  cases tree with
  | array items =>
      cases step with
      | index position => exact ⟨_, .element hchild, rfl, rfl⟩
      | _ => cases hchild
  | object entries =>
      cases step with
      | field key =>
          obtain ⟨position, hposition⟩ := List.getElem?_of_mem (Entries.mem_of_find? hchild)
          exact ⟨_, .value hposition, rfl, rfl⟩
      | _ => cases hconcrete <;> cases hchild
  | _ => cases hchild

theorem Keyed.distinctKeys (hkeyed : tree.Keyed) : tree.DistinctKeys := by
  cases tree with
  | object entries => exact (keyed_object.mp hkeyed).1
  | _ => trivial

theorem Keyed.child? (hkeyed : tree.Keyed) {step : Step} {child : Json}
    (hchild : tree.child? step = some child) : child.Keyed := by
  cases tree with
  | object entries =>
      obtain ⟨key, -, hfound⟩ := Option.bind_eq_some_iff.mp hchild
      exact (keyed_object.mp hkeyed).2 _ (Entries.mem_of_find? hfound)
  | array items =>
      obtain ⟨position, -, hitem⟩ := Option.bind_eq_some_iff.mp hchild
      exact keyed_array.mp hkeyed child (List.mem_of_getElem? hitem)
  | _ => cases hchild

theorem mem_steps_of_isConcrete {step other : Step} (hstep : step.isConcrete) :
    other ∈ tree.steps step ↔ other = step ∧ ∃ child, tree.child? step = some child := by
  obtain ⟨slot, hplaces, -⟩ := exists_slot (Step.isWildcard_of_isConcrete hstep) tree
  rw [steps, hplaces, Step.concrete_of_isConcrete hstep]
  cases tree.child? step <;> simp

end Places

end Json

end JsonEdit
