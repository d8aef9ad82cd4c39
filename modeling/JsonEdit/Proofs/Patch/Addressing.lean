import JsonEdit.Proofs.Patch.Lenient

/-!
# Ways of addressing an operation

An operation on a place deep in a tree can be written in several ways: with the whole path to the place,
as a nested patch at a place above it, or as the change of one child in an edit of an object or an array.
If the path above leads somewhere, all of them do the same.

A fault is reported at its place in the outermost tree. The base that a nested patch is applied at is
therefore the path that is written in front of the others.
-/

namespace JsonEdit

/-- Nothing is left out of a computation that a lenient application always finishes. -/
theorem PatchMode.recover_of_finishes {α : Type} {mode : PatchMode} {result : Except Fault α}
    (hfinishes : mode = .lenient → ∃ value, result = .ok value) (keep : α) :
    mode.recover keep result = result := by
  cases mode with
  | lenient =>
      obtain ⟨value, rfl⟩ := hfinishes rfl
      rfl
  | strict | clobber => cases result <;> rfl

theorem PatchMode.recover_map {α β : Type} (mode : PatchMode) (f : α → β) (keep : α)
    (result : Except Fault α) :
    mode.recover (f keep) (result.map f) = (mode.recover keep result).map f := by
  cases result with
  | ok value => rfl
  | error fault => cases mode <;> rfl

namespace Operation

section

variable {tree value : Json} {path : Path}

theorem map_getD_map {put : Json → Json} (hput : put value = tree) (result : Except Fault (Option Json)) :
    (result.map (·.map put)).map (·.getD tree) = (result.map (·.getD value)).map put := by
  rcases result with fault | after | after
  · rfl
  · exact congrArg Except.ok hput.symm
  · rfl

theorem applyAt_append_of_concrete (hconcrete : path.Concrete) (hvalue : tree.valueAt? path = some value)
    (mode : PatchMode) (base rest : Path) (change : Path → Json → Except Fault Json) :
    applyAt mode base (path ++ rest) change tree =
      (applyAt mode (base ++ path) rest change value).map (tree.withValueAt path) := by
  have hplaces : tree.locateFrom base (path ++ rest) = value.locateFrom (base ++ path) rest := by
    rw [Json.locateFrom_append_of_single hconcrete.hasWildcards, hvalue, hconcrete.map_concrete]
    exact List.append_nil _
  have hupdate := Json.updateFrom_append_of_single hconcrete.hasWildcards
    (fun place value => (change place value).map some) base rest tree
  rw [hvalue, hconcrete.map_concrete] at hupdate
  have hmap := PatchMode.recover_map mode (tree.withValueAt path) value
  rw [Json.withValueAt_of_valueAt? hvalue] at hmap
  -- more than one place is found behind a further step only, so the last step is the same
  have hlast : ∀ first second more, value.locateFrom (base ++ path) rest = first :: second :: more →
      (path ++ rest).getLast? = rest.getLast? := by
    intro first second more hmany
    cases rest with
    | nil => cases hmany
    | cons step rest => rw [List.getLast?_append, List.getLast?_cons, Option.some_or]
  unfold applyAt
  rw [← hmap, hplaces, hupdate, List.append_assoc]
  refine congrArg _ ?_
  have hall := map_getD_map (Json.withValueAt_of_valueAt? hvalue)
    (value.updateFrom (fun place value => (change place value).map some) (base ++ path) rest)
  generalize value.locateFrom (base ++ path) rest = places at hlast ⊢
  match places with
  | [] => rfl
  | [_] => cases mode <;> exact hall
  | first :: second :: more =>
      cases mode with
      | lenient => exact hall
      | strict | clobber =>
          simp only [hlast _ _ _ rfl]
          cases change first.1 first.2 with
          | error fault => rfl
          | ok new =>
              dsimp only [bind, Except.bind]
              split <;> rfl

/-- A path in front of all paths of a patch: the patch is applied to the value that it leads to. -/
theorem applyPatch_map_append (hconcrete : path.Concrete) (mode : PatchMode) (base : Path) (patch : Patch)
    (hvalue : tree.valueAt? path = some value) :
    applyPatch mode base (patch.map fun entry => (path ++ entry.1, entry.2)) tree =
      (applyPatch mode (base ++ path) patch value).map (tree.withValueAt path) := by
  induction patch generalizing tree value with
  | nil =>
      have hsame := Json.withValueAt_of_valueAt? hvalue
      rw [List.map_nil, applyPatch, applyPatch, Except.map, hsame]
  | cons entry rest ih =>
      obtain ⟨rest', operation⟩ := entry
      rw [List.map_cons, applyPatch, applyPatch, applyAt_append_of_concrete hconcrete hvalue]
      cases applyAt mode (base ++ path) rest' (fun place value => apply mode place operation value)
        value with
      | error fault => rfl
      | ok new =>
          -- the later entries find the new value at the path and write over it
          have hlater : (tree.withValueAt path new).withValueAt path = tree.withValueAt path := by
            funext last
            exact Json.withValueAt_withValueAt hvalue new last
          have hrest := ih (Json.valueAt?_withValueAt hvalue new)
          rw [hlater] at hrest
          exact hrest

theorem applyPatch_single (mode : PatchMode) (base path : Path) (operation : Operation) (tree : Json) :
    applyPatch mode base [(path, operation)] tree =
      applyAt mode base path (fun place value => apply mode place operation value) tree := by
  rw [applyPatch]
  cases applyAt mode base path (fun place value => apply mode place operation value) tree with
  | error fault => rfl
  | ok result =>
      change applyPatch mode base [] result = .ok result
      rw [applyPatch]

theorem finishes_apply {α : Type} (mode : PatchMode) (path : Path) (operation : Operation) (value : Json)
    (f : Json → α) : mode = .lenient → ∃ other, (apply mode path operation value).map f = .ok other := by
  rintro rfl
  obtain ⟨new, hnew⟩ := exists_apply_lenient path operation value
  exact ⟨f new, congrArg (Except.map f) hnew⟩

/-- The value that an operation leaves at a place, from the value that was there. If there was none, the
lenient mode has any value for it, since it is put nowhere. -/
def effect (mode : PatchMode) (place : Path) (operation : Operation) : Option Json → Except Fault Json
  | none => mode.recover .null (.error ⟨.unresolved, place⟩)
  | some value => apply mode place operation value

/-- **An operation along a concrete path** reads and writes the value there and nothing else. -/
theorem applyPatch_single_of_concrete (hconcrete : path.Concrete) (mode : PatchMode) (base : Path)
    (operation : Operation) (tree : Json) :
    applyPatch mode base [(path, operation)] tree =
      (effect mode (base ++ path) operation (tree.valueAt? path)).map (tree.withValueAt path) := by
  rw [applyPatch_single, applyAt_of_single hconcrete.hasWildcards, hconcrete.map_concrete]
  cases hvalue : tree.valueAt? path with
  | none =>
      have hnothing : tree.withValueAt path .null = tree := Json.withValueAt_of_unresolved hvalue .null
      have hmap := PatchMode.recover_map mode (tree.withValueAt path) .null
        (.error ⟨.unresolved, base ++ path⟩)
      rw [hnothing] at hmap
      exact hmap
  | some value => exact PatchMode.recover_of_finishes (finishes_apply mode _ _ _ _) tree

/-- An operation that changes one child is that change, written with a longer path. -/
theorem applyPatch_child (hconcrete : path.Concrete) (hvalue : tree.valueAt? path = some value)
    {step : Step} (hstep : step.isConcrete) {child : Json} (hchild : value.child? step = some child)
    (mode : PatchMode) (base : Path) {operation below : Operation}
    (hbelow : apply mode (base ++ path) operation value =
      (apply mode ((base ++ path).child step) below child).map (value.withChild step)) :
    applyPatch mode base [(path, operation)] tree =
      applyPatch mode base [(path.child step, below)] tree := by
  have hstepConcrete : Path.Concrete [step] := by
    intro other hother
    rwa [List.mem_singleton.mp hother]
  have hplace : value.valueAt? [step] = some child := by
    rw [Json.valueAt?, hchild]
    rfl
  have hput : value.withChild step = value.withValueAt [step] := by
    funext new
    exact (Json.withValueAt_of_some hchild [] new).symm
  calc applyPatch mode base [(path, operation)] tree
      = (applyPatch mode (base ++ path) [([step], below)] value).map (tree.withValueAt path) := by
        rw [applyPatch_single_of_concrete hconcrete, hvalue, effect, hbelow,
          applyPatch_single_of_concrete hstepConcrete, hplace, hput]
        rfl
    _ = applyPatch mode base [(path.child step, below)] tree :=
        (applyPatch_map_append hconcrete mode base [([step], below)] hvalue).symm

end

/-! ### An edit that changes one child -/

theorem apply_editObject_modify (mode : PatchMode) (path : Path) {entries : Entries Json} {key : String}
    {value : Json} (hfound : entries.find? key = some value) (operation : Operation) :
    apply mode path (.editObject [.modify key operation]) (.object entries) =
      (apply mode (path.child (.field key)) operation value).map
        ((Json.object entries).withChild (.field key)) := by
  have hedit : applyObjectEdit mode path (.modify key operation) entries =
      (apply mode (path.child (.field key)) operation value).map (entries.replace key) := by
    rw [applyObjectEdit, hfound]
  rw [apply, applyObjectEdits, hedit, PatchMode.recover_of_finishes (finishes_apply mode _ _ _ _)]
  cases apply mode (path.child (.field key)) operation value with
  | error fault => rfl
  | ok new =>
      change (applyObjectEdits mode path [] (entries.replace key new)).map Json.object = _
      rw [applyObjectEdits]
      rfl

theorem apply_editArray_modify (mode : PatchMode) (path : Path) {items : List Json} {position : Nat}
    {item : Json} (hfound : items[position]? = some item) (operation : Operation) :
    apply mode path (.editArray [.modify position operation]) (.array items) =
      (apply mode (path.child (.index position)) operation item).map
        ((Json.array items).withChild (.index position)) := by
  have hedit : applyArrayEdit mode path (.modify position operation) items =
      (apply mode (path.child (.index position)) operation item).map (items.set position) := by
    rw [applyArrayEdit, hfound]
  rw [apply, applyArrayEdits, hedit, PatchMode.recover_of_finishes (finishes_apply mode _ _ _ _)]
  cases apply mode (path.child (.index position)) operation item with
  | error fault => rfl
  | ok new =>
      change (applyArrayEdits mode path [] (items.set position new)).map Json.array = _
      rw [applyArrayEdits]
      rfl

end Operation

/-- **Ways of addressing an operation agree.** Where a concrete path leads to a value, a nested patch does
what its entries do with the path in front of theirs, and an edit that changes one child does what the
operation on the child does. The results are the same, and so are the faults. -/
theorem Patch.apply_addressed {tree value : Json} {path : Path} (hconcrete : path.Concrete)
    (hresolves : value ∈ tree.get path) (mode : PatchMode) :
    (∀ patch : Patch, Patch.apply [(path, .nested patch)] mode tree =
      Patch.apply (patch.map fun entry => (path ++ entry.1, entry.2)) mode tree) ∧
    (∀ (key : String) (operation : Operation),
      (∃ entries, value = .object entries ∧ Entries.has key entries) →
      Patch.apply [(path, .editObject [.modify key operation])] mode tree =
        Patch.apply [(path.child (.field key), operation)] mode tree) ∧
    (∀ (position : Nat) (operation : Operation),
      (∃ items, value = .array items ∧ position < items.length) →
      Patch.apply [(path, .editArray [.modify position operation])] mode tree =
        Patch.apply [(path.child (.index position), operation)] mode tree) := by
  have hvalue : tree.valueAt? path = some value := by
    rwa [Json.get_of_single hconcrete.hasWildcards, Option.mem_toList] at hresolves
  refine ⟨fun patch => ?_, ?_, ?_⟩
  · have hnested :=
      Operation.applyPatch_single_of_concrete hconcrete mode Path.root (.nested patch) tree
    rw [hvalue, Operation.effect, Operation.apply] at hnested
    exact hnested.trans (Operation.applyPatch_map_append hconcrete mode Path.root patch hvalue).symm
  · rintro key operation ⟨entries, rfl, hhas⟩
    obtain ⟨child, hfound⟩ := Entries.has_iff.mp hhas
    have hchild : (Json.object entries).child? (.field key) = some child := hfound
    exact Operation.applyPatch_child hconcrete hvalue rfl hchild mode Path.root
      (Operation.apply_editObject_modify mode _ hfound operation)
  · rintro position operation ⟨items, rfl, hlt⟩
    have hfound : items[position]? = some items[position] := List.getElem?_eq_getElem hlt
    have hchild : (Json.array items).child? (.index position) = some items[position] := hfound
    exact Operation.applyPatch_child hconcrete hvalue rfl hchild mode Path.root
      (Operation.apply_editArray_modify mode _ hfound operation)

/-- A fault deep inside, and a repeated key whose first entry is changed. -/
theorem Patch.apply_addressed_nested :
    let tree : Json := .object [("list", .array [.object [("a", .null), ("a", .string "x")], .null])]
    let path : Path := [.field "list", .index 0]
    let entries : Entries Json := [("a", .null), ("a", .string "x")]
    let patch : Patch := [([.values], .set (.bool true)), ([.field "a"], .set (.string "y")),
      (Path.root, .nested [([.field "b"], .set .null)])]
    path.Concrete ∧ .object entries ∈ tree.get path ∧ entries.has "a" ∧
      Patch.apply [(path, .nested patch)] .lenient tree =
        Patch.apply (patch.map fun entry => (path ++ entry.1, entry.2)) .lenient tree ∧
      Patch.apply [(path, .nested patch)] .strict tree = .error ⟨.ambiguous, path.child .values⟩ ∧
      Patch.apply [(path, .nested patch)] .strict tree =
        Patch.apply (patch.map fun entry => (path ++ entry.1, entry.2)) .strict tree ∧
      Patch.apply [(path, .editObject [.modify "a" (.editString [.append "z"])])] .strict tree =
        Patch.apply [(path.child (.field "a"), .editString [.append "z"])] .strict tree ∧
      Patch.apply [([.field "list"], .editArray [.modify 1 (.set (.bool true))])] .clobber tree =
        Patch.apply [([.field "list", .index 1], .set (.bool true))] .clobber tree := by
  intro tree path entries patch
  have hconcrete : path.Concrete := by decide
  have hresolves : .object entries ∈ tree.get path := List.mem_singleton.mpr rfl
  have hlist : .array [.object entries, .null] ∈ tree.get [.field "list"] := List.mem_singleton.mpr rfl
  refine ⟨hconcrete, hresolves, rfl, (apply_addressed hconcrete hresolves .lenient).1 patch,
    rfl, (apply_addressed hconcrete hresolves .strict).1 patch,
    (apply_addressed hconcrete hresolves .strict).2.1 "a" _ ⟨entries, rfl, rfl⟩, ?_⟩
  exact (apply_addressed (by decide) hlist .clobber).2.2 1 _ ⟨_, rfl, by decide⟩

end JsonEdit
