import JsonEdit.Patch.Apply
import JsonEdit.Proofs.Outcome

/-!
# Strict application, edit by edit

Under the strict mode an application is a chain of computations, each of which has a result or ends the
chain. `Gives condition goal` says of one of them exactly when it has a result, and what the result is
then like. Chains are put together from their links, and a list of edits from its parts.
-/

namespace JsonEdit

/-- The computation has a result if and only if the condition holds, and the result meets the goal. -/
def Gives {α : Type} (condition : Prop) (goal : α → Prop) : Except Fault α → Prop
  | .ok value => condition ∧ goal value
  | .error _ => ¬condition

namespace Gives

variable {α β : Type} {condition other : Prop} {goal : α → Prop} {result : Except Fault α}

theorem of_ok {value : α} (hgoal : goal value) : Gives True goal (.ok value) := ⟨trivial, hgoal⟩

theorem congr (hgives : Gives condition goal result) (hiff : condition ↔ other) :
    Gives other goal result := by
  rwa [← propext hiff]

theorem mono {weaker : α → Prop} (hgives : Gives condition goal result)
    (himp : ∀ value, goal value → weaker value) : Gives condition weaker result := by
  cases result with
  | error fault => exact hgives
  | ok value => exact ⟨hgives.1, himp value hgives.2⟩

theorem bind {next : α → Except Fault β} {goal' : β → Prop} (hgives : Gives condition goal result)
    (hnext : ∀ value, goal value → Gives other goal' (next value)) :
    Gives (condition ∧ other) goal' (result.bind next) := by
  cases result with
  | error fault => exact fun hboth => hgives hboth.1
  | ok value =>
      have hvalue := hnext value hgives.2
      change Gives _ _ (next value)
      exact hvalue.congr (and_iff_right hgives.1).symm

theorem map {f : α → β} {goal' : β → Prop} (hgives : Gives condition goal result)
    (himage : ∀ value, goal value → goal' (f value)) : Gives condition goal' (result.map f) := by
  cases result with
  | error fault => exact hgives
  | ok value => exact ⟨hgives.1, himage value hgives.2⟩

theorem exists_ok (hgives : Gives condition goal result) (hcondition : condition) :
    ∃ value, result = .ok value ∧ goal value := by
  cases result with
  | error fault => exact absurd hcondition hgives
  | ok value => exact ⟨value, rfl, hgives.2⟩

theorem exists_ok_iff (hgives : Gives condition goal result) :
    (∃ value, result = .ok value ∧ goal value) ↔ condition := by
  refine ⟨?_, hgives.exists_ok⟩
  rintro ⟨value, rfl, -⟩
  exact hgives.1

end Gives

/-- Under the strict mode nothing is recovered. -/
@[simp]
theorem PatchMode.recover_strict {α : Type} (keep : α) (result : Except Fault α) :
    PatchMode.strict.recover keep result = result := by
  cases result <;> rfl

theorem PatchMode.of_recover_eq_ok {α : Type} {mode : PatchMode} {keep value : α}
    {result : Except Fault α} (hrecover : mode.recover keep result = .ok value) :
    value = keep ∨ result = .ok value := by
  cases result with
  | ok other => exact .inr hrecover
  | error fault =>
      cases mode with
      | lenient =>
          cases hrecover
          exact .inl rfl
      | strict | clobber => cases hrecover

/-! ### Parts of a list of edits -/

theorem StringEdit.applyAll_cons (path : Path) (edit : StringEdit) (edits : List StringEdit)
    (chars : List Char) :
    applyAll .strict path (edit :: edits) chars =
      (edit.apply path chars).bind (applyAll .strict path edits) := by
  rw [applyAll, PatchMode.recover_strict]

namespace Operation

variable (path : Path)

theorem applyArrayEdits_cons (edit : SequenceEdit Json Operation)
    (edits : List (SequenceEdit Json Operation)) (items : List Json) :
    applyArrayEdits .strict path (edit :: edits) items =
      (applyArrayEdit .strict path edit items).bind (applyArrayEdits .strict path edits) := by
  rw [applyArrayEdits, PatchMode.recover_strict]

theorem applyArrayEdits_append (edits more : List (SequenceEdit Json Operation))
    (items : List Json) :
    applyArrayEdits .strict path (edits ++ more) items =
      (applyArrayEdits .strict path edits items).bind (applyArrayEdits .strict path more) := by
  induction edits generalizing items with
  | nil => rfl
  | cons edit rest ih =>
      rw [List.cons_append, applyArrayEdits_cons, applyArrayEdits_cons, except_bind_assoc]
      exact congrArg _ (funext ih)

theorem applyObjectEdits_cons (edit : MapEdit String Json Operation)
    (edits : List (MapEdit String Json Operation)) (entries : Entries Json) :
    applyObjectEdits .strict path (edit :: edits) entries =
      (applyObjectEdit .strict path edit entries).bind (applyObjectEdits .strict path edits) := by
  rw [applyObjectEdits, PatchMode.recover_strict]

theorem applyObjectEdits_append (edits more : List (MapEdit String Json Operation))
    (entries : Entries Json) :
    applyObjectEdits .strict path (edits ++ more) entries =
      (applyObjectEdits .strict path edits entries).bind (applyObjectEdits .strict path more) := by
  induction edits generalizing entries with
  | nil => rfl
  | cons edit rest ih =>
      rw [List.cons_append, applyObjectEdits_cons, applyObjectEdits_cons, except_bind_assoc]
      exact congrArg _ (funext ih)

/-- A patch is applied part by part. -/
theorem applyPatch_append (mode : PatchMode) (patch more : Patch) (tree : Json) :
    applyPatch mode path (patch ++ more) tree =
      (applyPatch mode path patch tree).bind (applyPatch mode path more) := by
  induction patch generalizing tree with
  | nil => rfl
  | cons entry rest ih =>
      obtain ⟨place, operation⟩ := entry
      rw [List.cons_append, applyPatch, applyPatch, except_bind_assoc]
      exact congrArg _ (funext ih)

theorem applyAt_root (change : Path → Json → Except Fault Json) (tree : Json) :
    applyAt .strict Path.root Path.root change tree = change Path.root tree := by
  have hplaces : Json.locateFrom Path.root Path.root tree = [(Path.root, tree)] := rfl
  have hupdate : Json.updateFrom (fun place value => (change place value).map some) Path.root
      Path.root tree = (change Path.root tree).map some := rfl
  unfold applyAt
  rw [PatchMode.recover_strict, hplaces, hupdate]
  cases change Path.root tree <;> rfl

/-- One operation at the root of the tree. -/
theorem applyPatch_root (operation : Operation) (tree : Json) :
    applyPatch .strict Path.root [(Path.root, operation)] tree =
      apply .strict Path.root operation tree := by
  rw [applyPatch, applyAt_root]
  cases apply .strict Path.root operation tree <;> rfl

end Operation

end JsonEdit
