import JsonEdit.Json.Edit
import JsonEdit.Proofs.Json.Equality
import JsonEdit.Proofs.Json.Focus
import JsonEdit.Proofs.Json.Merge
import JsonEdit.Proofs.Outcome

/-!
# Equal trees are read and changed alike

Equality looks at the first occurrences of keys in ascending order, and edits look at positions in the
order that is stored. The two agree because every edit along a single path is described by look-ups: what
a key finds after it depends only on what keys found before it. So each operation on one container has a
lemma that says it keeps equality, and the rest goes by induction on the path.

Merging is described by look-ups in the same way, and goes by induction on the left tree.
-/

namespace JsonEdit.Json

variable {tree other new new' : Json}

/-! ### Look-ups in equal trees -/

theorem rel_beq_iff {found found' : Option Json} :
    Option.Rel (· == ·) found found' ↔ found.map canonical = found'.map canonical := by
  constructor
  · rintro (⟨hequal⟩ | _)
    · exact congrArg some (beq_iff.mp hequal)
    · rfl
  · intro hmap
    cases found with
    | none =>
        cases found' with
        | none => exact .none
        | some value' => cases hmap
    | some value =>
        cases found' with
        | none => cases hmap
        | some value' => exact .some (beq_iff.mpr (Option.some.inj hmap))

theorem rel_or {found found' last last' : Option Json} (hfound : Option.Rel (· == ·) found found')
    (hlast : Option.Rel (· == ·) last last') :
    Option.Rel (· == ·) (found.or last) (found'.or last') := by
  cases hfound with
  | some hvalue => exact .some hvalue
  | none => exact hlast

theorem rel_find? {entries others : Entries Json} (hequal : object entries == object others)
    (key : String) : Option.Rel (· == ·) (Entries.find? key entries) (Entries.find? key others) :=
  rel_beq_iff.mpr (object_beq_iff.mp hequal key)

theorem object_beq_of_rel {entries others : Entries Json}
    (hrel : ∀ key, Option.Rel (· == ·) (Entries.find? key entries) (Entries.find? key others)) :
    object entries == object others :=
  object_beq_iff.mpr fun key => rel_beq_iff.mp (hrel key)

theorem has_eq_of_beq {entries others : Entries Json} (hequal : object entries == object others)
    (key : String) : Entries.has key entries = Entries.has key others := by
  have hmap := congrArg Option.isSome (object_beq_iff.mp hequal key)
  rwa [Option.isSome_map, Option.isSome_map] at hmap

theorem length_eq_of_beq {items others : List Json} (hequal : array items == array others) :
    items.length = others.length := by
  simpa using congrArg List.length (array_beq_iff.mp hequal)

theorem exists_items (hkind : tree.kind = .array) : ∃ items, tree = array items := by
  cases tree with
  | array items => exact ⟨items, rfl⟩
  | _ => cases hkind

theorem exists_entries (hkind : tree.kind = .object) : ∃ entries, tree = object entries := by
  cases tree with
  | object entries => exact ⟨entries, rfl⟩
  | _ => cases hkind

/-! ### Single steps -/

theorem rel_child? (hequal : tree == other) (step : Step) :
    Option.Rel (· == ·) (tree.child? step) (other.child? step) := by
  match tree, other, kind_eq_of_beq hequal with
  | .object entries, .object others, _ =>
      rw [child?, child?]
      cases step.entryKey? with
      | none => exact .none
      | some key => exact rel_find? hequal key
  | .array items, .array others, _ =>
      rw [child?, child?]
      cases step.position? with
      | none => exact .none
      | some position =>
          have hmap := congrArg (·[position]?) (array_beq_iff.mp hequal)
          simp only [List.getElem?_map] at hmap
          exact rel_beq_iff.mpr hmap
  | .null, .null, _ | .bool _, .bool _, _ | .number _, .number _, _ | .string _, .string _, _ =>
      exact .none

theorem withChild_beq (hequal : tree == other) (step : Step) (hnew : new == new') :
    tree.withChild step new == other.withChild step new' := by
  match tree, other, kind_eq_of_beq hequal with
  | .object entries, .object others, _ =>
      cases hkey : step.entryKey? with
      | none => simpa only [withChild, hkey] using hequal
      | some key =>
          simp only [withChild, hkey]
          refine object_beq_of_rel fun found => ?_
          rw [Entries.find?_replace, Entries.find?_replace, has_eq_of_beq hequal]
          split
          · exact .some hnew
          · exact rel_find? hequal found
  | .array items, .array others, _ =>
      cases hposition : step.position? with
      | none => simpa only [withChild, hposition] using hequal
      | some position =>
          simp only [withChild, hposition]
          rw [array_beq_iff, List.map_set, List.map_set, array_beq_iff.mp hequal, beq_iff.mp hnew]
  | .null, .null, _ | .bool _, .bool _, _ | .number _, .number _, _ | .string _, .string _, _ =>
      exact hequal

theorem matches_insertChild (hequal : tree == other) (hnew : new == new') (place : Path) (step : Step) :
    Matches (· == ·) (insertChild place step new tree) (insertChild place step new' other) := by
  have hfault : ∀ kind, ∃ fault, (if step.isWildcard then .error ⟨.insertAtWildcard step, place⟩
      else .error ⟨.insertInto step kind, place⟩ : Except Fault Json) = .error fault := by
    intro kind
    split <;> exact ⟨_, rfl⟩
  match tree, other, kind_eq_of_beq hequal with
  | .object entries, .object others, _ =>
      cases hkey : step.entryKey? with
      | none =>
          simp only [insertChild, hkey]
          exact .of_errors (hfault _) (hfault _)
      | some key =>
          simp only [insertChild, hkey, has_eq_of_beq hequal]
          split
          · exact .error _ _
          · refine .ok (object_beq_of_rel fun found => ?_)
            rw [Entries.find?_append, Entries.find?_append]
            refine rel_or (rel_find? hequal found) ?_
            rw [Entries.find?_cons, Entries.find?_cons]
            split
            · exact .some hnew
            · exact .none
  | .array items, .array others, _ =>
      cases hposition : step.position? with
      | none =>
          simp only [insertChild, hposition]
          exact .of_errors (hfault _) (hfault _)
      | some position =>
          simp only [insertChild, hposition, length_eq_of_beq hequal]
          split
          · exact .error _ _
          · refine .ok (array_beq_iff.mpr ?_)
            simp only [List.map_append, List.map_cons, List.map_take, List.map_drop,
              array_beq_iff.mp hequal, beq_iff.mp hnew]
  | .null, .null, _ | .bool _, .bool _, _ | .number _, .number _, _ | .string _, .string _, _ =>
      exact .of_errors (hfault _) (hfault _)

theorem rel_deleteChildren (hequal : tree == other) {step : Step} (hsingle : step.isWildcard = false) :
    Option.Rel (· == ·) (deleteChildren step tree) (deleteChildren step other) := by
  have hobject : ∀ {entries others : Entries Json} (key : String), object entries == object others →
      Option.Rel (· == ·) (if Entries.has key entries then some (object (entries.erase key)) else none)
        (if Entries.has key others then some (object (others.erase key)) else none) := by
    intro entries others key hentries
    rw [has_eq_of_beq hentries]
    split
    · refine .some (object_beq_of_rel fun found => ?_)
      rw [Entries.find?_erase, Entries.find?_erase]
      split
      · exact .none
      · exact rel_find? hentries found
    · exact .none
  match tree, other, kind_eq_of_beq hequal with
  | .object entries, .object others, _ =>
      cases step with
      | field name => exact hobject name hequal
      | key text => exact hobject text hequal
      | index => exact .none
      | indices | elements | values | names | keys => cases hsingle
  | .array items, .array others, _ =>
      cases step with
      | field | key => exact .none
      | index position =>
          simp only [deleteChildren, length_eq_of_beq hequal]
          split
          · refine .some (array_beq_iff.mpr ?_)
            rw [← List.eraseIdx_map, ← List.eraseIdx_map, array_beq_iff.mp hequal]
          · exact .none
      | indices | elements | values | names | keys => cases hsingle
  | .null, .null, _ | .bool _, .bool _, _ | .number _, .number _, _ | .string _, .string _, _ =>
      exact .none

/-! ### Paths -/

/-- A path leads to equal values in equal trees, or nowhere in both. -/
theorem rel_valueAt? (hequal : tree == other) (path : Path) :
    Option.Rel (· == ·) (tree.valueAt? path) (other.valueAt? path) := by
  induction path generalizing tree other with
  | nil => exact .some hequal
  | cons step rest ih =>
      have hchild := rel_child? hequal step
      rw [valueAt?, valueAt?]
      generalize tree.child? step = child, other.child? step = child' at hchild
      cases hchild with
      | none => exact .none
      | some hbelow => exact ih hbelow

theorem withValueAt_beq (hequal : tree == other) (path : Path) (hnew : new == new') :
    tree.withValueAt path new == other.withValueAt path new' := by
  induction path generalizing tree other with
  | nil => exact hnew
  | cons step rest ih =>
      have hchild := rel_child? hequal step
      rw [withValueAt, withValueAt]
      generalize tree.child? step = child, other.child? step = child' at hchild
      cases hchild with
      | none => exact hequal
      | some hbelow => exact withChild_beq hequal step (ih hbelow)

/-- Changes that match on equal values match along a path. -/
theorem matches_update (hequal : tree == other) {path : Path} (hsingle : path.hasWildcards = false)
    {change change' : Path → Json → Except Fault (Option Json)}
    (hchange : ∀ place (value value' : Json), value == value' →
      Matches (Option.Rel (· == ·)) (change place value) (change' place value')) :
    Matches (Option.Rel (· == ·)) (tree.update change path) (other.update change' path) := by
  have hvalue := rel_valueAt? hequal path
  rw [update, update, updateFrom_of_single hsingle, updateFrom_of_single hsingle]
  generalize tree.valueAt? path = value, other.valueAt? path = value' at hvalue
  cases hvalue with
  | none => exact .ok .none
  | some hbelow =>
      refine (hchange _ _ _ hbelow).map fun after after' hafter => ?_
      cases hafter with
      | none => exact .none
      | some hnew => exact .some (withValueAt_beq hequal path hnew)

theorem matches_changedOr (fault : Fault) {result result' : Except Fault (Option Json)}
    (hresult : Matches (Option.Rel (· == ·)) result result') :
    Matches (· == ·) (changedOr fault result) (changedOr fault result') := by
  cases hresult with
  | error first second => exact .error first second
  | ok hafter =>
      cases hafter with
      | none => exact .error fault fault
      | some hnew => exact .ok hnew

variable {path : Path}

theorem hasWildcards_of_splitLast? (hsingle : path.hasWildcards = false) {parent : Path} {step : Step}
    (hsplit : path.splitLast? = some (parent, step)) :
    parent.hasWildcards = false ∧ step.isWildcard = false := by
  rw [Path.splitLast?_eq_some_iff.mp hsplit, Path.hasWildcards, List.any_append,
    Bool.or_eq_false_iff] at hsingle
  exact ⟨hsingle.1, (Bool.or_eq_false_iff.mp hsingle.2).1⟩

/-- To set equal values in equal trees fails in both or gives equal trees. -/
theorem matches_trySet (hequal : tree == other) (hsingle : path.hasWildcards = false)
    (hnew : new == new') : Matches (· == ·) (tree.trySet path new) (other.trySet path new') :=
  matches_changedOr _ (matches_update hequal hsingle fun _ _ _ _ => .ok (.some hnew))

/-- To insert equal values into equal trees fails in both or gives equal trees. -/
theorem matches_tryInsert (hequal : tree == other) (hsingle : path.hasWildcards = false)
    (hnew : new == new') : Matches (· == ·) (tree.tryInsert path new) (other.tryInsert path new') := by
  unfold tryInsert
  cases hsplit : path.splitLast? with
  | none => exact .error _ _
  | some last =>
      obtain ⟨hparent, -⟩ := hasWildcards_of_splitLast? hsingle hsplit
      refine matches_changedOr _ (matches_update hequal hparent fun place value value' hvalue => ?_)
      exact (matches_insertChild hvalue hnew place last.2).map fun _ _ hcontainer => .some hcontainer

/-- To delete from equal trees fails in both or leaves equal trees. -/
theorem matches_tryDelete (hequal : tree == other) (hsingle : path.hasWildcards = false) :
    Matches (· == ·) (tree.tryDelete path) (other.tryDelete path) := by
  unfold tryDelete
  cases hsplit : path.splitLast? with
  | none => exact .error _ _
  | some last =>
      obtain ⟨hparent, hstep⟩ := hasWildcards_of_splitLast? hsingle hsplit
      refine matches_changedOr _ (matches_update hequal hparent fun place value value' hvalue => ?_)
      exact .ok (rel_deleteChildren hvalue hstep)

/-! ### Merging -/

theorem settled?_concat {path : Path} {left right : Json}
    (harrays : ¬(left.kind = .array ∧ right.kind = .array)) :
    MergeStrategy.concat.settled? path left right = none := by
  simp only [MergeStrategy.settled?]
  split
  · exact absurd ⟨rfl, rfl⟩ harrays
  · rfl

theorem isContainer_congr {left right : Json} (hkind : left.kind = right.kind) :
    left.isContainer = right.isContainer := by
  cases left <;> cases right <;> first | rfl | cases hkind

theorem isContainer_eq_of_beq (hequal : tree == other) : tree.isContainer = other.isContainer :=
  isContainer_congr (kind_eq_of_beq hequal)

/-- Children are merged only of two objects or of two arrays. -/
theorem mergeFrom_of_apart {strategy : MergeStrategy} {path : Path} {left right : Json}
    (hapart : left.kind = right.kind → left.isContainer = false) :
    mergeFrom strategy path left right = (strategy.settled? path left right).getD right := by
  rw [mergeFrom]
  · rintro lefts rights rfl rfl
    cases hapart rfl
  · rintro lefts rights rfl rfl
    cases hapart rfl

section Merging

variable {strategy : MergeStrategy} (hbuiltin : ∀ settle descend, strategy ≠ .custom settle descend)
include hbuiltin

theorem rel_settled? {left left' right right' : Json} (hleft : left == left') (hright : right == right')
    (path : Path) :
    Option.Rel (· == ·) (strategy.settled? path left right) (strategy.settled? path left' right') := by
  cases strategy with
  | deep => exact .none
  | shallow =>
      simp only [MergeStrategy.settled?]
      by_cases hroot : path.isRoot
      · rw [if_pos hroot, if_pos hroot]
        exact .none
      · rw [if_neg hroot, if_neg hroot]
        exact .some hright
  | concat =>
      by_cases harrays : left.kind = .array ∧ right.kind = .array
      · match left, left', kind_eq_of_beq hleft, right, right', kind_eq_of_beq hright with
        | .array lefts, .array lefts', _, .array rights, .array rights', _ =>
            refine .some (array_beq_iff.mpr ?_)
            rw [List.map_append, List.map_append, array_beq_iff.mp hleft, array_beq_iff.mp hright]
      · have harrays' : ¬(left'.kind = .array ∧ right'.kind = .array) := by
          rwa [← kind_eq_of_beq hleft, ← kind_eq_of_beq hright]
        rw [settled?_concat harrays, settled?_concat harrays']
        exact .none
  | custom settle descend => exact absurd rfl (hbuiltin settle descend)

omit hbuiltin in
theorem map_canonical_mergeItems {lefts lefts' rights rights' : List Json}
    (hlefts : lefts.map canonical = lefts'.map canonical)
    (hrights : rights.map canonical = rights'.map canonical) (path : Path) (position : Nat)
    (heach : ∀ left ∈ lefts, ∀ {left' right right' : Json}, left == left' → right == right' →
      ∀ path, mergeFrom strategy path left right == mergeFrom strategy path left' right') :
    (mergeItems strategy path position lefts rights).map canonical =
      (mergeItems strategy path position lefts' rights').map canonical := by
  induction lefts generalizing lefts' rights rights' position with
  | nil =>
      obtain rfl : lefts' = [] := List.map_eq_nil_iff.mp hlefts.symm
      rw [mergeItems, mergeItems, hrights]
  | cons left lefts ih =>
      obtain ⟨left', lefts', rfl, hleft, hlefts⟩ := List.map_eq_cons_iff.mp hlefts.symm
      cases rights with
      | nil =>
          obtain rfl : rights' = [] := List.map_eq_nil_iff.mp hrights.symm
          rw [mergeItems, mergeItems, List.map_cons, List.map_cons, hleft, hlefts]
          · exact List.cons_ne_nil _ _
          · exact List.cons_ne_nil _ _
      | cons right rights =>
          obtain ⟨right', rights', rfl, hright, hrights⟩ := List.map_eq_cons_iff.mp hrights.symm
          have hhead := heach left List.mem_cons_self (beq_iff.mpr hleft.symm) (beq_iff.mpr hright.symm)
            (path.child (.index position))
          rw [mergeItems, mergeItems, List.map_cons, List.map_cons, beq_iff.mp hhead]
          exact congrArg _ (ih hlefts.symm hrights.symm (position + 1)
            fun other hother => heach other (List.mem_cons_of_mem _ hother))

theorem mergeFrom_beq_of_apart {left left' right right' : Json} (hleft : left == left')
    (hright : right == right') (hapart : left.kind = right.kind → left.isContainer = false)
    (path : Path) :
    mergeFrom strategy path left right == mergeFrom strategy path left' right' := by
  have hapart' : left'.kind = right'.kind → left'.isContainer = false := by
    rw [← kind_eq_of_beq hleft, ← kind_eq_of_beq hright, ← isContainer_eq_of_beq hleft]
    exact hapart
  have hsettled := rel_settled? hbuiltin hleft hright path
  rw [mergeFrom_of_apart hapart, mergeFrom_of_apart hapart']
  generalize strategy.settled? path left right = settled, strategy.settled? path left' right' = settled'
    at hsettled
  cases hsettled with
  | none => exact hright
  | some hvalue => exact hvalue

/-- Merging equal trees under a strategy of the library gives equal trees. -/
theorem mergeFrom_beq {left left' right right' : Json} (hleft : left == left')
    (hright : right == right') (path : Path) :
    mergeFrom strategy path left right == mergeFrom strategy path left' right' := by
  induction left using Json.induct generalizing left' right right' path with
  | array lefts ih =>
      by_cases hkind : right.kind = .array
      · have hsettled := rel_settled? hbuiltin hleft hright path
        obtain ⟨lefts', rfl⟩ := exists_items (kind_eq_of_beq hleft).symm
        obtain ⟨rights, rfl⟩ := exists_items hkind
        obtain ⟨rights', rfl⟩ := exists_items (kind_eq_of_beq hright).symm
        rw [mergeFrom, mergeFrom]
        generalize strategy.settled? path (.array lefts) (.array rights) = settled,
          strategy.settled? path (.array lefts') (.array rights') = settled' at hsettled
        cases hsettled with
        | some hvalue => exact hvalue
        | none =>
            refine array_beq_iff.mpr (map_canonical_mergeItems (array_beq_iff.mp hleft)
              (array_beq_iff.mp hright) path 0 ?_)
            intro left hmem left' right right' hl hr path
            exact ih left hmem hl hr path
      · exact mergeFrom_beq_of_apart hbuiltin hleft hright (fun hsame => absurd hsame.symm hkind) path
  | object lefts ih =>
      by_cases hkind : right.kind = .object
      · have hsettled := rel_settled? hbuiltin hleft hright path
        obtain ⟨lefts', rfl⟩ := exists_entries (kind_eq_of_beq hleft).symm
        obtain ⟨rights, rfl⟩ := exists_entries hkind
        obtain ⟨rights', rfl⟩ := exists_entries (kind_eq_of_beq hright).symm
        rw [mergeFrom, mergeFrom]
        generalize strategy.settled? path (.object lefts) (.object rights) = settled,
          strategy.settled? path (.object lefts') (.object rights') = settled' at hsettled
        cases hsettled with
        | some hvalue => exact hvalue
        | none =>
            refine object_beq_of_rel fun key => ?_
            have hfound := rel_find? hleft key
            have hadded := rel_find? hright key
            -- a key of the left tree has merged values, any other key has what the right tree has
            rw [find?_merged, find?_merged]
            cases hl : Entries.find? key lefts with
            | none =>
                rw [hl] at hfound
                generalize Entries.find? key lefts' = found at hfound
                cases hfound
                exact hadded
            | some left =>
                rw [hl] at hfound
                generalize Entries.find? key lefts' = found at hfound
                generalize Entries.find? key rights = new, Entries.find? key rights' = new' at hadded
                obtain hvalue | _ := hfound
                cases hadded with
                | none => exact .some hvalue
                | some hnew => exact .some (ih _ (Entries.mem_of_find? hl) hvalue hnew _)
      · exact mergeFrom_beq_of_apart hbuiltin hleft hright (fun hsame => absurd hsame.symm hkind) path
  | _ => exact mergeFrom_beq_of_apart hbuiltin hleft hright (fun _ => rfl) path

end Merging

/-- **Equality is a congruence.** Along a path of fields, positions and keys, equal trees give equal values,
and setting, inserting and deleting either fails in both or gives equal trees. Merging equal trees with
equal trees gives equal trees, unless the caller settles what is merged. -/
theorem edits_congr {tree other : Json} (hequal : tree == other) :
    (∀ path : Path, path.hasWildcards = false → ∀ new : Json,
      (tree.get path = [] ∧ other.get path = [] ∨
        ∃ value value', tree.get path = [value] ∧ other.get path = [value'] ∧ value == value') ∧
      Matches (· == ·) (tree.trySet path new) (other.trySet path new) ∧
      Matches (· == ·) (tree.tryInsert path new) (other.tryInsert path new) ∧
      Matches (· == ·) (tree.tryDelete path) (other.tryDelete path)) ∧
    ∀ strategy : MergeStrategy, (∀ settle descend, strategy ≠ .custom settle descend) →
      ∀ right right' : Json, right == right' →
        tree.merge strategy right == other.merge strategy right' := by
  refine ⟨fun path hsingle new => ⟨?_, matches_trySet hequal hsingle BEq.rfl,
    matches_tryInsert hequal hsingle BEq.rfl, matches_tryDelete hequal hsingle⟩, ?_⟩
  · have hvalue := rel_valueAt? hequal path
    rw [get_of_single hsingle, get_of_single hsingle]
    generalize tree.valueAt? path = value, other.valueAt? path = value' at hvalue
    cases hvalue with
    | none => exact .inl ⟨rfl, rfl⟩
    | some hvalue => exact .inr ⟨_, _, rfl, rfl, hvalue⟩
  · intro strategy hbuiltin right right' hright
    exact mergeFrom_beq hbuiltin hequal hright Path.root

/-- A repeated key, another order of keys, and a number that is written in two ways. -/
theorem edits_congr_repeated :
    let long : Json := .number { whole := 1, fraction := [0, 0] }
    let one : Json := .number { whole := 1 }
    let tree : Json := .object [("a", .array [long, .null]), ("b", .object [("x", one)]), ("a", .null)]
    let other : Json := .object [("b", .object [("x", long)]), ("a", .array [one, .null])]
    let path : Path := [.key "a", .index 0]
    let right : Json := .object [("b", .object [("y", .null), ("x", one)]), ("c", .null)]
    let right' : Json := .object [("c", .null), ("b", .object [("x", long), ("y", .null)])]
    tree == other ∧ path.hasWildcards = false ∧ tree.get path = [long] ∧ other.get path = [one] ∧
      Matches (· == ·) (tree.trySet path .null) (other.trySet path .null) ∧
      Matches (· == ·) (tree.tryInsert path .null) (other.tryInsert path .null) ∧
      Matches (· == ·) (tree.tryDelete path) (other.tryDelete path) ∧
      right == right' ∧ tree.merge .concat right == other.merge .concat right' := by
  intro long one tree other path right right'
  have hlong : long.canonical = one.canonical := beq_iff.mp (by decide +kernel)
  have hequal : tree == other := by
    rw [beq_iff]
    simp [tree, other, canonical_object_eq, keys, values, Entries.counted, Entries.sorted,
      List.mergeSort, Entries.keyLe, Entries.dropRepeats, Entries.dropRepeats.after, hlong]
  have hright : right == right' := by
    rw [beq_iff]
    simp [right, right', canonical_object_eq, keys, values, Entries.counted, Entries.sorted,
      List.mergeSort, Entries.keyLe, Entries.dropRepeats, Entries.dropRepeats.after, hlong]
  obtain ⟨haccess, hmerge⟩ := edits_congr hequal
  obtain ⟨-, hset, hinsert, hdelete⟩ := haccess path rfl .null
  exact ⟨hequal, rfl, rfl, rfl, hset, hinsert, hdelete, hright,
    hmerge .concat (fun _ _ => by simp) right right' hright⟩

end JsonEdit.Json
