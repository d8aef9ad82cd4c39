import JsonEdit.Patch.Apply

/-!
# What a strict application gives, every mode gives

The modes differ only in what becomes of something that cannot be done, and under the strict mode such
a thing ends the whole application. So a strict application that has a result never met one, and the
other modes took the same way.

`Agrees` carries that through the interpreter: the second of two computations gives whatever the first
one gives. Each part of the interpreter keeps it, from following a path up to a whole patch.
-/

namespace JsonEdit

/-- The second computation gives whatever the first one gives. -/
def Agrees {α : Type} (first second : Except Fault α) : Prop :=
  ∀ value, first = .ok value → second = .ok value

namespace Agrees

variable {α β : Type}

theorem refl (result : Except Fault α) : Agrees result result := fun _ h => h

theorem of_error (fault : Fault) (second : Except Fault α) : Agrees (.error fault) second :=
  fun _ h => by cases h

theorem bind {first second : Except Fault α} {next next' : α → Except Fault β}
    (hresult : Agrees first second) (hnext : ∀ value, Agrees (next value) (next' value)) :
    Agrees (first.bind next) (second.bind next') := by
  intro value hvalue
  cases first with
  | error fault => cases hvalue
  | ok middle =>
      rw [hresult middle rfl]
      exact hnext middle value hvalue

theorem map {first second : Except Fault α} (f : α → β) (hresult : Agrees first second) :
    Agrees (first.map f) (second.map f) := by
  intro value hvalue
  cases first with
  | error fault => cases hvalue
  | ok middle =>
      rw [hresult middle rfl]
      exact hvalue

/-- What is recovered under the strict mode was no fault, so no mode has anything to recover. -/
theorem recover {first second : Except Fault α} (mode : PatchMode) (keep : α)
    (hresult : Agrees first second) :
    Agrees (PatchMode.strict.recover keep first) (mode.recover keep second) := by
  intro value hvalue
  cases first with
  | error fault => cases hvalue
  | ok middle =>
      rw [hresult middle rfl]
      exact hvalue

theorem foldlM {items : List α} {step step' : β → α → Except Fault β}
    (hstep : ∀ item ∈ items, ∀ state, Agrees (step state item) (step' state item)) (state : β) :
    Agrees (items.foldlM step state) (items.foldlM step' state) := by
  induction items generalizing state with
  | nil => exact refl _
  | cons item rest ih =>
      rw [List.foldlM_cons, List.foldlM_cons]
      refine bind (hstep item List.mem_cons_self state) fun next => ?_
      exact ih (fun other hother => hstep other (List.mem_cons_of_mem _ hother)) next

end Agrees

/-- Changes that agree at every place agree along a path. -/
theorem Json.updateFrom_agrees {change change' : Path → Json → Except Fault (Option Json)}
    (hchange : ∀ place value, Agrees (change place value) (change' place value)) (trail path : Path)
    (tree : Json) : Agrees (updateFrom change trail path tree) (updateFrom change' trail path tree) := by
  induction path generalizing trail tree with
  | nil => exact hchange trail tree
  | cons step rest ih =>
      unfold updateFrom
      refine Agrees.foldlM (fun place _ changed => ?_) none
      intro result hresult
      have hplace := ih (trail.child place.step) place.value
      simp only at hresult ⊢
      cases hvalue : updateFrom change (trail.child place.step) rest place.value with
      | error fault =>
          rw [hvalue] at hresult
          cases hresult
      | ok value =>
          rw [hplace value hvalue]
          rw [hvalue] at hresult
          exact hresult

/-- One edit of a string takes no notice of the mode. -/
theorem StringEdit.applyAll_agrees (mode : PatchMode) (path : Path) (edits : List StringEdit)
    (chars : List Char) :
    Agrees (applyAll .strict path edits chars) (applyAll mode path edits chars) := by
  induction edits generalizing chars with
  | nil => exact Agrees.refl _
  | cons edit rest ih => exact Agrees.bind (Agrees.recover mode chars (Agrees.refl _)) ih

namespace Operation

/-- Under the strict mode there is exactly one place, and then the mode does not matter. -/
theorem applyAt_agrees (mode : PatchMode) (base path : Path)
    {change change' : Path → Json → Except Fault Json}
    (hchange : ∀ place value, Agrees (change place value) (change' place value)) (tree : Json) :
    Agrees (applyAt .strict base path change tree) (applyAt mode base path change' tree) := by
  unfold applyAt
  refine Agrees.recover mode tree ?_
  match hplaces : tree.locateFrom base path with
  | [] => exact Agrees.of_error _ _
  | [_] =>
      have hupdate := Json.updateFrom_agrees (fun place value => (hchange place value).map some)
        base path tree
      cases mode <;> exact hupdate.map _
  | (place, value) :: second :: rest =>
      -- the fault of the first place wins, but some fault there is
      intro result hresult
      cases hfirst : change place value with
      | error fault => simp [hfirst, bind, Except.bind] at hresult
      | ok new =>
          simp only [hfirst, bind, Except.bind] at hresult
          split at hresult <;> cases hresult

mutual

/-- An operation agrees with itself under another mode. -/
theorem apply_agrees (mode : PatchMode) (path : Path) :
    (operation : Operation) → (value : Json) →
      Agrees (apply .strict path operation value) (apply mode path operation value)
  | .set _, _ => Agrees.refl _
  | .addNumber amount, value => Agrees.recover mode value (Agrees.refl _)
  | .editString edits, value => by
      unfold apply
      split
      · exact (StringEdit.applyAll_agrees mode path edits _).map _
      · exact Agrees.recover mode _ (Agrees.refl _)
  | .editArray edits, value => by
      unfold apply
      split
      · exact (applyArrayEdits_agrees mode path edits _).map _
      · exact Agrees.recover mode _ (Agrees.refl _)
  | .editObject edits, value => by
      unfold apply
      split
      · exact (applyObjectEdits_agrees mode path edits _).map _
      · exact Agrees.recover mode _ (Agrees.refl _)
  | .nested patch, value => applyPatch_agrees mode path patch value

theorem applyArrayEdits_agrees (mode : PatchMode) (path : Path) :
    (edits : List (SequenceEdit Json Operation)) → (items : List Json) →
      Agrees (applyArrayEdits .strict path edits items) (applyArrayEdits mode path edits items)
  | [], _ => Agrees.refl _
  | edit :: rest, items =>
      (Agrees.recover mode items (applyArrayEdit_agrees mode path edit items)).bind
        (applyArrayEdits_agrees mode path rest)

theorem applyArrayEdit_agrees (mode : PatchMode) (path : Path) :
    (edit : SequenceEdit Json Operation) → (items : List Json) →
      Agrees (applyArrayEdit .strict path edit items) (applyArrayEdit mode path edit items)
  | .insert _ _, _ => Agrees.refl _
  | .append _, _ => Agrees.refl _
  | .delete _ _, _ => Agrees.refl _
  | .modify position operation, items => by
      unfold applyArrayEdit
      split
      · exact Agrees.refl _
      · exact (apply_agrees mode _ operation _).map _

theorem applyObjectEdits_agrees (mode : PatchMode) (path : Path) :
    (edits : List (MapEdit String Json Operation)) → (entries : Entries Json) →
      Agrees (applyObjectEdits .strict path edits entries)
        (applyObjectEdits mode path edits entries)
  | [], _ => Agrees.refl _
  | edit :: rest, entries =>
      (Agrees.recover mode entries (applyObjectEdit_agrees mode path edit entries)).bind
        (applyObjectEdits_agrees mode path rest)

theorem applyObjectEdit_agrees (mode : PatchMode) (path : Path) :
    (edit : MapEdit String Json Operation) → (entries : Entries Json) →
      Agrees (applyObjectEdit .strict path edit entries) (applyObjectEdit mode path edit entries)
  | .add key value, entries => by
      -- only here a mode does something else, and that is where the strict mode fails
      intro result hresult
      unfold applyObjectEdit at hresult ⊢
      by_cases hkey : entries.has key
      · simp [hkey] at hresult
      · simpa [hkey] using hresult
  | .remove _, _ => Agrees.refl _
  | .modify key operation, entries => by
      unfold applyObjectEdit
      split
      · exact Agrees.refl _
      · exact (apply_agrees mode _ operation _).map _

/-- What a patch gives strictly it gives in every mode. -/
theorem applyPatch_agrees (mode : PatchMode) (base : Path) :
    (patch : List (Path × Operation)) → (tree : Json) →
      Agrees (applyPatch .strict base patch tree) (applyPatch mode base patch tree)
  | [], _ => Agrees.refl _
  | (path, operation) :: rest, tree =>
      (applyAt_agrees mode base path
        (fun place value => apply_agrees mode place operation value) tree).bind
        (applyPatch_agrees mode base rest)

end

end Operation

/-- **Strict subsumption.** What a patch gives under the strict mode, it gives under both other
modes. -/
theorem Patch.apply_eq_ok_of_strict (patch : Patch) (tree result : Json)
    (hstrict : patch.apply .strict tree = .ok result) :
    patch.apply .lenient tree = .ok result ∧ patch.apply .clobber tree = .ok result :=
  ⟨Operation.applyPatch_agrees .lenient Path.root patch tree result hstrict,
    Operation.applyPatch_agrees .clobber Path.root patch tree result hstrict⟩

/-- A nested patch below a wildcard, and an edit of the object around it. -/
theorem Patch.apply_eq_ok_of_strict_nested :
    let patch : Patch :=
      [([.field "names", .elements], .nested [(Path.root, .editString [.append "y"])]),
        (Path.root, .editObject [.add "count" (.bool true), .remove "old"])]
    let tree : Json := .object [("names", .array [.string "x"]), ("old", .null)]
    let result : Json := .object [("names", .array [.string "xy"]), ("count", .bool true)]
    patch.apply .strict tree = .ok result ∧ patch.apply .lenient tree = .ok result ∧
      patch.apply .clobber tree = .ok result := by
  intro patch tree result
  have hstrict : patch.apply .strict tree = .ok result := rfl
  exact ⟨hstrict, apply_eq_ok_of_strict patch tree result hstrict⟩

end JsonEdit
