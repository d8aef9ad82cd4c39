import JsonEdit.Proofs.Json.FanOut
import JsonEdit.Proofs.Json.Walk
import JsonEdit.Proofs.Patch.Addressing

/-!
# Where the application of a patch fails

The path of a fault is put together from the base of a patch, the paths of its entries, the trail of the
walk along them and the places of edits inside an operation. All of them are extended on the way down and
never cut, so an operation at a place fails at this place or inside it. An entry whose path leads nowhere,
or to more places than one, is reported with its path as it is written.
-/

namespace JsonEdit

/-- Every fault of the computation is at the place or inside it. -/
def FailsInside {α : Type} (place : Path) (result : Except Fault α) : Prop :=
  ∀ fault, result = .error fault → place <+: fault.path

namespace FailsInside

variable {α β : Type} {place : Path} {result : Except Fault α}

theorem of_ok (value : α) : FailsInside place (.ok value) := by
  rintro _ ⟨⟩

theorem of_error {fault : Fault} (hinside : place <+: fault.path) :
    FailsInside place (.error fault : Except Fault α) := by
  rintro _ ⟨⟩
  exact hinside

theorem ite {condition : Prop} [Decidable condition] {reason : Reason} {value : α} :
    FailsInside place (if condition then .error ⟨reason, place⟩ else .ok value) := by
  split
  · exact of_error List.prefix_rfl
  · exact of_ok value

/-- What is inside a child is inside its container. -/
theorem of_child {step : Step} (hfails : FailsInside (place.child step) result) :
    FailsInside place result :=
  fun fault hfault => (List.prefix_append place [step]).trans (hfails fault hfault)

theorem bind {next : α → Except Fault β} (hfails : FailsInside place result)
    (hnext : ∀ value, FailsInside place (next value)) : FailsInside place (result.bind next) := by
  cases result with
  | error fault => exact of_error (hfails fault rfl)
  | ok value => exact hnext value

theorem map (f : α → β) (hfails : FailsInside place result) : FailsInside place (result.map f) := by
  cases result with
  | error fault => exact of_error (hfails fault rfl)
  | ok value => exact of_ok (f value)

end FailsInside

/-- What fails in spite of the mode is what failed. -/
theorem PatchMode.eq_error_of_recover {α : Type} {mode : PatchMode} {keep : α} {result : Except Fault α}
    {fault : Fault} (hrecover : mode.recover keep result = .error fault) : result = .error fault := by
  cases result with
  | ok value => cases hrecover
  | error other =>
      cases mode with
      | lenient => cases hrecover
      | strict | clobber => exact hrecover

theorem FailsInside.recover {α : Type} {place : Path} {result : Except Fault α}
    (hfails : FailsInside place result) (mode : PatchMode) (keep : α) :
    FailsInside place (mode.recover keep result) :=
  fun fault hfault => hfails fault (PatchMode.eq_error_of_recover hfault)

theorem Json.prefix_of_mem_locateFrom {trail path : Path} {tree : Json} {place : Path × Json}
    (hplace : place ∈ tree.locateFrom trail path) : trail <+: place.1 := by
  rw [locateFrom_eq_map] at hplace
  obtain ⟨below, -, rfl⟩ := List.mem_map.mp hplace
  exact List.prefix_append trail below.1

namespace StringEdit

theorem failsInside_apply (path : Path) (chars : List Char) (edit : StringEdit) :
    FailsInside path (edit.apply path chars) := by
  cases edit with
  | append text => exact .of_ok _
  | insert position text | delete position length | modify position length text => exact .ite

theorem failsInside_applyAll (mode : PatchMode) (path : Path) (edits : List StringEdit)
    (chars : List Char) : FailsInside path (applyAll mode path edits chars) := by
  induction edits generalizing chars with
  | nil => exact .of_ok chars
  | cons edit rest ih => exact ((failsInside_apply path chars edit).recover mode chars).bind ih

end StringEdit

namespace Operation

/-! ### One entry -/

section

variable {mode : PatchMode} {base path : Path} {change : Path → Json → Except Fault Json} {tree : Json}

theorem applyAt_of_none (hplaces : tree.locateFrom base path = []) :
    applyAt mode base path change tree = mode.recover tree (.error ⟨.unresolved, base ++ path⟩) := by
  unfold applyAt
  rw [hplaces]

theorem applyAt_of_one {place : Path × Json} (hplaces : tree.locateFrom base path = [place]) :
    applyAt mode base path change tree = mode.recover tree
      ((tree.updateFrom (fun place value => (change place value).map some) base path).map
        (·.getD tree)) := by
  unfold applyAt
  rw [hplaces]

/-- More places than one are a fault, which comes after those of the first place. -/
theorem applyAt_of_many (hmode : mode ≠ .lenient) {first second : Path × Json}
    {more : List (Path × Json)} (hplaces : tree.locateFrom base path = first :: second :: more) :
    applyAt mode base path change tree = (change first.1 first.2).bind fun new => .error <|
      if path.getLast? = some .names ∧ new.kind ≠ .string then
        ⟨.namesMustBeStrings new.kind, first.1⟩
      else ⟨.ambiguous, base ++ path⟩ := by
  unfold applyAt
  rw [hplaces]
  cases mode with
  | lenient => exact absurd rfl hmode
  | strict | clobber =>
      cases hnew : change first.1 first.2 with
      | error fault => simp [hnew, bind, Except.bind, PatchMode.recover]
      | ok new =>
          simp only [hnew, bind, Except.bind, Bool.and_eq_true, decide_eq_true_eq]
          split <;> rfl

/-- **A change along a path** fails with the path as it is written, or at one of its places. -/
theorem path_of_applyAt_eq_error (hchange : ∀ place value, FailsInside place (change place value))
    {fault : Fault} (hfault : applyAt mode base path change tree = .error fault) :
    fault.path = base ++ path ∨ ∃ place ∈ tree.locateFrom base path, place.1 <+: fault.path := by
  match hplaces : tree.locateFrom base path with
  | [] =>
      rw [applyAt_of_none hplaces] at hfault
      cases PatchMode.eq_error_of_recover hfault
      exact .inl rfl
  | [place] =>
      rw [applyAt_of_one hplaces] at hfault
      have hupdate := except_map_eq_error (PatchMode.eq_error_of_recover hfault)
      rw [Json.updateFrom_eq_error_iff, hplaces, List.findSome?_singleton] at hupdate
      refine .inr ⟨place, List.mem_singleton_self place, ?_⟩
      rcases Json.faultAt_eq_some hupdate with hchanged | hplace
      · exact hchange _ _ _ (except_map_eq_error hchanged)
      · exact hplace ▸ List.prefix_rfl
  | first :: second :: more =>
      have hmode : mode ≠ .lenient := by
        rintro rfl
        obtain ⟨result, hresult⟩ := exists_applyAt_lenient base path change tree
        cases hfault.symm.trans hresult
      rw [applyAt_of_many hmode hplaces] at hfault
      have hfirst : first ∈ first :: second :: more := List.mem_cons_self
      cases hnew : change first.1 first.2 with
      | error other =>
          rw [hnew] at hfault
          cases hfault
          exact .inr ⟨first, hfirst, hchange _ _ _ hnew⟩
      | ok new =>
          rw [hnew] at hfault
          cases Except.error.inj hfault
          split
          · exact .inr ⟨first, hfirst, List.prefix_rfl⟩
          · exact .inl rfl

theorem failsInside_applyAt (hchange : ∀ place value, FailsInside place (change place value)) :
    FailsInside base (applyAt mode base path change tree) := by
  intro fault hfault
  rcases path_of_applyAt_eq_error hchange hfault with hpath | ⟨place, hplace, hinside⟩
  · rw [hpath]
    exact List.prefix_append base path
  · exact (Json.prefix_of_mem_locateFrom hplace).trans hinside

end

/-! ### Operations -/

theorem failsInside_addNumber (mode : PatchMode) (path : Path) (amount : Number) (value : Json) :
    FailsInside path (apply mode path (.addNumber amount) value) := by
  unfold apply
  refine .recover ?_ mode value
  split
  · split
    · exact .of_ok _
    · exact .of_error List.prefix_rfl
  · exact .of_error List.prefix_rfl

mutual

/-- **An operation at a place** fails at this place or inside it. -/
theorem failsInside_apply (mode : PatchMode) (path : Path) :
    (operation : Operation) → (value : Json) → FailsInside path (apply mode path operation value)
  | .set new, _ => by
      rw [apply]
      exact .of_ok new
  | .addNumber amount, value => failsInside_addNumber mode path amount value
  | .editString edits, value => by
      unfold apply
      split
      · exact (StringEdit.failsInside_applyAll mode path edits _).map _
      · exact .recover (.of_error List.prefix_rfl) mode _
  | .editArray edits, value => by
      unfold apply
      split
      · exact (failsInside_applyArrayEdits mode path edits _).map _
      · exact .recover (.of_error List.prefix_rfl) mode _
  | .editObject edits, value => by
      unfold apply
      split
      · exact (failsInside_applyObjectEdits mode path edits _).map _
      · exact .recover (.of_error List.prefix_rfl) mode _
  | .nested patch, value => by
      rw [apply]
      exact failsInside_applyPatch mode path patch value

theorem failsInside_applyArrayEdits (mode : PatchMode) (path : Path) :
    (edits : List (SequenceEdit Json Operation)) → (items : List Json) →
      FailsInside path (applyArrayEdits mode path edits items)
  | [], items => by
      rw [applyArrayEdits]
      exact .of_ok items
  | edit :: rest, items => by
      rw [applyArrayEdits]
      exact ((failsInside_applyArrayEdit mode path edit items).recover mode items).bind
        (failsInside_applyArrayEdits mode path rest)

theorem failsInside_applyArrayEdit (mode : PatchMode) (path : Path) :
    (edit : SequenceEdit Json Operation) → (items : List Json) →
      FailsInside path (applyArrayEdit mode path edit items)
  | .insert _ _, _ | .delete _ _, _ => by
      rw [applyArrayEdit]
      exact .ite
  | .append _, _ => by
      rw [applyArrayEdit]
      exact .of_ok _
  | .modify position operation, items => by
      rw [applyArrayEdit]
      split
      · exact .of_error List.prefix_rfl
      · exact (failsInside_apply mode (path.child (.index position)) operation _).of_child.map _

theorem failsInside_applyObjectEdits (mode : PatchMode) (path : Path) :
    (edits : List (MapEdit String Json Operation)) → (entries : Entries Json) →
      FailsInside path (applyObjectEdits mode path edits entries)
  | [], entries => by
      rw [applyObjectEdits]
      exact .of_ok entries
  | edit :: rest, entries => by
      rw [applyObjectEdits]
      exact ((failsInside_applyObjectEdit mode path edit entries).recover mode entries).bind
        (failsInside_applyObjectEdits mode path rest)

theorem failsInside_applyObjectEdit (mode : PatchMode) (path : Path) :
    (edit : MapEdit String Json Operation) → (entries : Entries Json) →
      FailsInside path (applyObjectEdit mode path edit entries)
  | .add key _, _ => by
      rw [applyObjectEdit]
      exact FailsInside.ite.of_child
  | .remove key, _ => by
      rw [applyObjectEdit]
      split
      · exact .of_ok _
      · exact .of_error (List.prefix_append path [.field key])
  | .modify key operation, entries => by
      rw [applyObjectEdit]
      split
      · exact .of_error (List.prefix_append path [.field key])
      · exact (failsInside_apply mode (path.child (.field key)) operation _).of_child.map _

theorem failsInside_applyPatch (mode : PatchMode) (base : Path) :
    (patch : List (Path × Operation)) → (tree : Json) →
      FailsInside base (applyPatch mode base patch tree)
  | [], tree => by
      rw [applyPatch]
      exact .of_ok tree
  | (path, operation) :: rest, tree => by
      rw [applyPatch]
      exact (failsInside_applyAt fun place value => failsInside_apply mode place operation value).bind
        (failsInside_applyPatch mode base rest)

end

/-- The run ends at the first entry that fails on what the entries before it left. -/
theorem exists_failing_entry {mode : PatchMode} {base : Path} {patch : Patch} {tree : Json} {fault : Fault}
    (hfault : applyPatch mode base patch tree = .error fault) :
    ∃ before path operation after middle, patch = before ++ (path, operation) :: after ∧
      applyPatch mode base before tree = .ok middle ∧
      applyAt mode base path (fun place value => apply mode place operation value) middle =
        .error fault := by
  induction patch generalizing tree with
  | nil =>
      rw [applyPatch] at hfault
      cases hfault
  | cons entry rest ih =>
      obtain ⟨path, operation⟩ := entry
      rw [applyPatch] at hfault
      cases hentry : applyAt mode base path (fun place value => apply mode place operation value) tree with
      | error other =>
          rw [hentry] at hfault
          cases hfault
          exact ⟨[], path, operation, rest, tree, rfl, by rw [applyPatch], hentry⟩
      | ok next =>
          rw [hentry] at hfault
          obtain ⟨before, path', operation', after, middle, rfl, hbefore, hfailing⟩ := ih hfault
          refine ⟨(path, operation) :: before, path', operation', after, middle, rfl, ?_, hfailing⟩
          rw [applyPatch, hentry]
          exact hbefore

end Operation

/-- **A failed application points at the entry that failed.** The entries before it can be applied, it
fails on what they leave, alone as in the patch, and the fault is at its path, or at one of the places
that the path leads to or inside it. -/
theorem Patch.apply_eq_error {patch : Patch} {mode : PatchMode} {tree : Json} {fault : Fault}
    (hfault : patch.apply mode tree = .error fault) :
    ∃ before path operation after middle, patch = before ++ (path, operation) :: after ∧
      Patch.apply before mode tree = .ok middle ∧
      Patch.apply [(path, operation)] mode middle = .error fault ∧
      (fault.path = path ∨
        ∃ place ∈ (middle.locate path).map Prod.fst, fault.path.startsWith place) := by
  obtain ⟨before, path, operation, after, middle, hpatch, hbefore, hfailing⟩ :=
    Operation.exists_failing_entry hfault
  have hsingle := Operation.applyPatch_single mode Path.root path operation middle
  refine ⟨before, path, operation, after, middle, hpatch, hbefore, hsingle.trans hfailing, ?_⟩
  refine (Operation.path_of_applyAt_eq_error (fun place value =>
    Operation.failsInside_apply mode place operation value) hfailing).imp_right ?_
  rintro ⟨place, hplace, hinside⟩
  exact ⟨place.1, List.mem_map_of_mem hplace, List.isPrefixOf_iff_prefix.mpr hinside⟩

/-- A fault in an edit inside a nested patch, whose entry has wildcards and needs what the first entry
puts in. -/
theorem Patch.apply_eq_error_nested :
    let patch : Patch := [([.field "list", .elements], .editObject [.add "b" (.array [.bool true])]),
      ([.values, .index 0],
        .nested [([.field "b"], .editArray [.append [.null], .modify 0 (.addNumber { whole := 1 })])]),
      ([.field "z"], .set .null)]
    let tree : Json := .object [("list", .array [.object [("a", .null), ("a", .string "x")]])]
    let fault : Fault := ⟨.operationRequires "number_delta" .number .boolean,
      [.field "list", .index 0, .field "b", .index 0]⟩
    patch.apply .clobber tree = .error fault ∧
      ∃ before path operation after middle, patch = before ++ (path, operation) :: after ∧
        Patch.apply before .clobber tree = .ok middle ∧
        Patch.apply [(path, operation)] .clobber middle = .error fault ∧
        (fault.path = path ∨
          ∃ place ∈ (middle.locate path).map Prod.fst, fault.path.startsWith place) := by
  intro patch tree fault
  have hfault : patch.apply .clobber tree = .error fault := rfl
  exact ⟨hfault, apply_eq_error hfault⟩

end JsonEdit
