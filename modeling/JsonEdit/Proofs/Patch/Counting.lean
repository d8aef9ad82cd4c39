import JsonEdit.Proofs.Json.Counting
import JsonEdit.Proofs.Patch.Addressing
import JsonEdit.Proofs.Patch.Failure

/-!
# Counting the places of an entry

An entry of a patch can be carried out in one walk that counts the places as it comes to them. Where the
path has to lead to exactly one place, the second one ends the walk, after what was wrong with the first
one. A count of zero in the end says that the path leads nowhere.

The outcome is the one that is decided by the list of the places.
-/

namespace JsonEdit

namespace Operation

/-- What an entry of a patch does at a place: the second place is refused where there may be one only. -/
def visit (mode : PatchMode) (target : Path) (change : Path → Json → Except Fault Json) (place : Path)
    (value : Json) : StateT Nat (Except Fault) (Option Json) := do
  let hits ← modifyGet fun hits => (hits + 1, hits + 1)
  if 1 < hits ∧ mode ≠ .lenient then
    throw ⟨.ambiguous, target⟩
  else return some (← change place value)

def applyCounting (mode : PatchMode) (base path : Path) (change : Path → Json → Except Fault Json)
    (tree : Json) : Except Fault Json :=
  match (tree.updateWith (visit mode (base ++ path) change) base path).run 0 with
  | .ok (_, 0) => mode.recover tree (.error ⟨.unresolved, base ++ path⟩)
  | .ok (some next, _) => .ok next
  | .ok (none, _) => .ok tree
  | .error fault => mode.recover tree (.error fault)

/-- The answer at the place with a number, where places are counted from one. -/
def answerAt (mode : PatchMode) (target : Path) (change : Path → Json → Except Fault Json) (hit : Nat)
    (place : Path) (value : Json) : Except Fault (Option Json) :=
  if 1 < hit ∧ mode ≠ .lenient then .error ⟨.ambiguous, target⟩ else (change place value).map some

theorem counts_visit (mode : PatchMode) (target : Path) (change : Path → Json → Except Fault Json) :
    Json.Counts (visit mode target change) (answerAt mode target change) := by
  intro place value hits
  rw [visit, StateT.run_bind]
  change StateT.run (ite (1 < hits + 1 ∧ mode ≠ .lenient) _ _) (hits + 1) = _
  unfold answerAt
  by_cases hrefused : 1 < hits + 1 ∧ mode ≠ .lenient
  · rw [if_pos hrefused, if_pos hrefused]
    rfl
  · rw [if_neg hrefused, if_neg hrefused]
    cases change place value <;> rfl

theorem answerAt_one (mode : PatchMode) (target : Path) (change : Path → Json → Except Fault Json) :
    answerAt mode target change 1 = fun place value => (change place value).map some := by
  funext place value
  exact if_neg fun hrefused => lt_irrefl 1 hrefused.1

theorem answerAt_lenient (target : Path) (change : Path → Json → Except Fault Json) (hit : Nat) :
    answerAt .lenient target change hit = fun place value => (change place value).map some := by
  funext place value
  exact if_neg fun hrefused => hrefused.2 rfl

section

variable {mode : PatchMode} {base path : Path} {change : Path → Json → Except Fault Json} {tree : Json}

theorem applyAt_lenient_of_reached (hreached : tree.locateFrom base path ≠ []) :
    applyAt .lenient base path change tree = PatchMode.lenient.recover tree
      ((tree.updateFrom (fun place value => (change place value).map some) base path).map
        (·.getD tree)) := by
  unfold applyAt
  match hplaces : tree.locateFrom base path with
  | [] => exact absurd hplaces hreached
  | [place] | first :: second :: more => rfl

/-- Where no place is refused, the places are only counted. -/
theorem run_updateWith_visit (hallowed : ∀ hit, 0 < hit → hit ≤ (tree.locateFrom base path).length →
      answerAt mode (base ++ path) change hit = fun place value => (change place value).map some) :
    (tree.updateWith (visit mode (base ++ path) change) base path).run 0 =
      (tree.updateFrom (fun place value => (change place value).map some) base path).map
        (·, (tree.locateFrom base path).length) := by
  rw [← Nat.zero_add (tree.locateFrom base path).length] at hallowed ⊢
  exact Json.run_updateWith_of_const (counts_visit mode (base ++ path) change) base path tree 0 hallowed

theorem applyCounting_of_none (hplaces : tree.locateFrom base path = []) :
    applyCounting mode base path change tree =
      mode.recover tree (.error ⟨.unresolved, base ++ path⟩) := by
  have hallowed : ∀ hit, 0 < hit → hit ≤ (tree.locateFrom base path).length →
      answerAt mode (base ++ path) change hit = fun place value => (change place value).map some := by
    rw [hplaces]
    exact fun hit hpos hle => absurd hpos (Nat.not_lt.mpr hle)
  rw [applyCounting, run_updateWith_visit hallowed, Json.updateFrom_of_unreached hplaces, hplaces]
  rfl

theorem applyCounting_of_allowed (hreached : tree.locateFrom base path ≠ [])
    (hallowed : ∀ hit, 0 < hit → hit ≤ (tree.locateFrom base path).length →
      answerAt mode (base ++ path) change hit = fun place value => (change place value).map some) :
    applyCounting mode base path change tree = mode.recover tree
      ((tree.updateFrom (fun place value => (change place value).map some) base path).map
        (·.getD tree)) := by
  obtain ⟨count, hcount⟩ := Nat.exists_eq_add_of_lt (List.length_pos_of_ne_nil hreached)
  rw [applyCounting, run_updateWith_visit hallowed, hcount]
  rcases tree.updateFrom (fun place value => (change place value).map some) base path with
    fault | after | new <;> rfl

/-- Where there may be one place only, the second one ends the walk. -/
theorem applyCounting_of_many (hmode : mode ≠ .lenient) {first second : Path × Json}
    {more : List (Path × Json)} (hplaces : tree.locateFrom base path = first :: second :: more) :
    applyCounting mode base path change tree = (change first.1 first.2).bind fun new => .error <|
      if path.getLast? = some .names ∧ new.kind ≠ .string then
        ⟨.namesMustBeStrings new.kind, first.1⟩
      else ⟨.ambiguous, base ++ path⟩ := by
  have hrefused : answerAt mode (base ++ path) change 2 second.1 second.2 =
      .error ⟨.ambiguous, base ++ path⟩ := if_pos ⟨Nat.one_lt_two, hmode⟩
  have hsecond : Json.faultAt (answerAt mode (base ++ path) change 2) path second =
      some ⟨.ambiguous, base ++ path⟩ := by
    rw [Json.faultAt, hrefused]
  have hfault : Json.faultFrom? (answerAt mode (base ++ path) change) path 0 (first :: second :: more) =
      some ((Json.faultAt (fun place value => (change place value).map some) path first).getD
        ⟨.ambiguous, base ++ path⟩) := by
    rw [Json.faultFrom?_cons, Json.faultFrom?_cons, Nat.zero_add, answerAt_one, hsecond, Option.some_or,
      Option.or_some]
  have hrun := Json.reports_updateWith (counts_visit mode (base ++ path) change) base path tree 0
  rw [hplaces, hfault] at hrun
  rw [applyCounting, (hrun.eq_error_iff _).mpr rfl]
  change mode.recover tree (.error _) = _
  rw [PatchMode.recover_of_finishes (fun hlenient => absurd hlenient hmode), Json.faultAt]
  cases change first.1 first.2 with
  | error fault => rfl
  | ok new =>
      change Except.error ((if _ then _ else none : Option Fault).getD _) = Except.error _
      split <;> rfl

end

/-- **Counting on the way decides what the list of the places decides**, faults included. -/
theorem applyCounting_eq_applyAt (mode : PatchMode) (base path : Path)
    (change : Path → Json → Except Fault Json) (tree : Json) :
    applyCounting mode base path change tree = applyAt mode base path change tree := by
  match hplaces : tree.locateFrom base path with
  | [] => rw [applyCounting_of_none hplaces, applyAt_of_none hplaces]
  | [place] =>
      rw [applyAt_of_one hplaces]
      refine applyCounting_of_allowed (hplaces ▸ List.cons_ne_nil place []) fun hit hpos hle => ?_
      rw [hplaces, List.length_singleton] at hle
      rw [Nat.le_antisymm hle hpos]
      exact answerAt_one mode (base ++ path) change
  | first :: second :: more =>
      by_cases hmode : mode = .lenient
      · subst hmode
        have hreached : tree.locateFrom base path ≠ [] := hplaces ▸ List.cons_ne_nil first (second :: more)
        rw [applyAt_lenient_of_reached hreached]
        exact applyCounting_of_allowed hreached fun hit _ _ => answerAt_lenient (base ++ path) change hit
      · rw [applyCounting_of_many hmode hplaces, applyAt_of_many hmode hplaces]

theorem applyPatch_eq_foldlM (mode : PatchMode) (base : Path) (patch : Patch) (tree : Json) :
    applyPatch mode base patch tree =
      patch.foldlM (fun tree entry =>
        applyCounting mode base entry.1 (fun place value => apply mode place entry.2 value) tree) tree := by
  induction patch generalizing tree with
  | nil => rw [applyPatch]; rfl
  | cons entry rest ih =>
      obtain ⟨path, operation⟩ := entry
      rw [applyPatch, List.foldlM_cons, applyCounting_eq_applyAt]
      exact congrArg _ (funext ih)

end Operation

/-- **A patch is a loop over its entries**, each of which is one walk that counts its places. -/
theorem Patch.apply_eq_foldlM (patch : Patch) (mode : PatchMode) (tree : Json) :
    patch.apply mode tree = patch.foldlM (fun tree entry =>
      Operation.applyCounting mode Path.root entry.1
        (fun place value => Operation.apply mode place entry.2 value) tree) tree :=
  Operation.applyPatch_eq_foldlM mode Path.root patch tree

end JsonEdit
