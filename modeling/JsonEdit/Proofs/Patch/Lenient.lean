import JsonEdit.Proofs.Json.Focus
import JsonEdit.Proofs.Patch.Every
import JsonEdit.Proofs.Patch.Strict
import Mathlib.Data.List.Forall2

/-!
# What a lenient application leaves out

Under the lenient mode nothing fails, because whatever fails is left out. What is left out is always a
whole unit: an edit or an entry that leaves the value as it was. If every path leads to one place at most,
the lenient result is therefore the strict result of a part of the patch. The part is found along the
run: a unit that changed nothing is dropped, and of any other unit the part is kept that was carried out.

With wildcards this would not be so, since one entry may be carried out at some of its places only.
-/

namespace JsonEdit

/-! ### Parts of a patch -/

namespace Operation

mutual

/-- The first operation is what is left of the second one when edits and entries inside it are dropped. -/
inductive Part : Operation → Operation → Prop
  | whole (operation : Operation) : Part operation operation
  | editString {part edits : List StringEdit} :
    part.Sublist edits → Part (.editString part) (.editString edits)
  | editArray {part edits : List (SequenceEdit Json Operation)} :
    List.SublistForall₂ ArrayEditPart part edits → Part (.editArray part) (.editArray edits)
  | editObject {part edits : List (MapEdit String Json Operation)} :
    List.SublistForall₂ ObjectEditPart part edits → Part (.editObject part) (.editObject edits)
  | nested {part patch : List (Path × Operation)} :
    List.SublistForall₂ EntryPart part patch → Part (.nested part) (.nested patch)

inductive ArrayEditPart : SequenceEdit Json Operation → SequenceEdit Json Operation → Prop
  | whole (edit : SequenceEdit Json Operation) : ArrayEditPart edit edit
  | modify (position : Nat) {part operation : Operation} :
    Part part operation → ArrayEditPart (.modify position part) (.modify position operation)

inductive ObjectEditPart : MapEdit String Json Operation → MapEdit String Json Operation → Prop
  | whole (edit : MapEdit String Json Operation) : ObjectEditPart edit edit
  | modify (key : String) {part operation : Operation} :
    Part part operation → ObjectEditPart (.modify key part) (.modify key operation)

inductive EntryPart : Path × Operation → Path × Operation → Prop
  | intro (path : Path) {part operation : Operation} :
    Part part operation → EntryPart (path, part) (path, operation)

end

end Operation

/-- The first patch is what is left of the second one when entries are dropped, and edits and entries
inside those that are kept. -/
def Patch.PartOf (part patch : Patch) : Prop := List.SublistForall₂ Operation.EntryPart part patch

/-- Nothing is done, or a part of the unit is done in full. -/
def Skips {ω α : Type} (part : ω → ω → Prop) (run : ω → α → Except Fault α) (unit : ω)
    (before after : α) : Prop :=
  after = before ∨ ∃ kept, part kept unit ∧ run kept before = .ok after

section

variable {ω α : Type} {part : ω → ω → Prop} {run : ω → α → Except Fault α}
  {runAll : List ω → α → Except Fault α} {unit : ω} {units : List ω} {before middle after : α}

theorem Skips.of_recover {result : Except Fault α}
    (hrecover : PatchMode.lenient.recover before result = .ok after)
    (hresult : result = .ok after → Skips part run unit before after) :
    Skips part run unit before after := by
  rcases PatchMode.of_recover_eq_ok hrecover with rfl | hok
  · exact .inl rfl
  · exact hresult hok

/-- One unit and then the others. -/
theorem Skips.exists_cons
    (hcons : ∀ unit units state, runAll (unit :: units) state = (run unit state).bind (runAll units))
    (hunit : Skips part run unit before middle)
    (hunits : ∃ kept, List.SublistForall₂ part kept units ∧ runAll kept middle = .ok after) :
    ∃ kept, List.SublistForall₂ part kept (unit :: units) ∧ runAll kept before = .ok after := by
  obtain ⟨rest, hrest, hafter⟩ := hunits
  rcases hunit with rfl | ⟨kept, hkept, hmiddle⟩
  · exact ⟨rest, hrest.cons_right, hafter⟩
  · refine ⟨kept :: rest, .cons hkept hrest, ?_⟩
    rw [hcons, hmiddle]
    exact hafter

end

/-- Nothing fails under the lenient mode. -/
theorem PatchMode.exists_recover_lenient {α : Type} (keep : α) (result : Except Fault α) :
    ∃ value, PatchMode.lenient.recover keep result = .ok value := by
  cases result with
  | error fault => exact ⟨keep, rfl⟩
  | ok value => exact ⟨value, rfl⟩

namespace StringEdit

theorem exists_applyAll_lenient (path : Path) (edits : List StringEdit) (chars : List Char) :
    ∃ after, applyAll .lenient path edits chars = .ok after := by
  induction edits generalizing chars with
  | nil => exact ⟨chars, rfl⟩
  | cons edit rest ih =>
      obtain ⟨middle, hmiddle⟩ :=
        PatchMode.exists_recover_lenient chars (edit.apply path chars)
      rw [applyAll, hmiddle]
      exact ih middle

theorem exists_sublist_applyAll {path : Path} {edits : List StringEdit} {chars after : List Char}
    (happly : applyAll .lenient path edits chars = .ok after) :
    ∃ part, part.Sublist edits ∧ applyAll .strict path part chars = .ok after := by
  induction edits generalizing chars with
  | nil => exact ⟨[], .slnil, happly⟩
  | cons edit rest ih =>
      rw [applyAll] at happly
      obtain ⟨middle, hmiddle, happly⟩ := except_bind_eq_ok happly
      obtain ⟨part, hpart, hafter⟩ := ih happly
      rcases PatchMode.of_recover_eq_ok hmiddle with rfl | hmiddle
      · exact ⟨part, hpart.cons edit, hafter⟩
      · refine ⟨edit :: part, hpart.cons_cons edit, ?_⟩
        rw [applyAll_cons, hmiddle]
        exact hafter

end StringEdit

namespace Operation

/-! ### Nothing fails -/

theorem exists_applyAt_lenient (base path : Path) (change : Path → Json → Except Fault Json)
    (tree : Json) : ∃ result, applyAt .lenient base path change tree = .ok result :=
  PatchMode.exists_recover_lenient tree _

/-- A lenient application always has a result. -/
theorem exists_applyPatch_lenient (base : Path) (patch : Patch) (tree : Json) :
    ∃ result, applyPatch .lenient base patch tree = .ok result := by
  induction patch generalizing tree with
  | nil => exact ⟨tree, by rw [applyPatch]⟩
  | cons entry rest ih =>
      obtain ⟨middle, hmiddle⟩ := exists_applyAt_lenient base entry.1
        (fun place value => apply .lenient place entry.2 value) tree
      rw [applyPatch, hmiddle]
      exact ih middle

theorem exists_applyArrayEdits_lenient (path : Path) (edits : List (SequenceEdit Json Operation))
    (items : List Json) : ∃ others, applyArrayEdits .lenient path edits items = .ok others := by
  induction edits generalizing items with
  | nil => exact ⟨items, by rw [applyArrayEdits]⟩
  | cons edit rest ih =>
      obtain ⟨middle, hmiddle⟩ :=
        PatchMode.exists_recover_lenient items (applyArrayEdit .lenient path edit items)
      rw [applyArrayEdits, hmiddle]
      exact ih middle

theorem exists_applyObjectEdits_lenient (path : Path) (edits : List (MapEdit String Json Operation))
    (entries : Entries Json) :
    ∃ others, applyObjectEdits .lenient path edits entries = .ok others := by
  induction edits generalizing entries with
  | nil => exact ⟨entries, by rw [applyObjectEdits]⟩
  | cons edit rest ih =>
      obtain ⟨middle, hmiddle⟩ :=
        PatchMode.exists_recover_lenient entries (applyObjectEdit .lenient path edit entries)
      rw [applyObjectEdits, hmiddle]
      exact ih middle

theorem exists_apply_lenient (path : Path) (operation : Operation) (value : Json) :
    ∃ result, apply .lenient path operation value = .ok result := by
  cases operation with
  | set new => exact ⟨new, by rw [apply]⟩
  | addNumber amount =>
      unfold apply
      exact PatchMode.exists_recover_lenient value _
  | editString edits =>
      unfold apply
      split
      · obtain ⟨chars, hchars⟩ := StringEdit.exists_applyAll_lenient path edits _
        exact ⟨_, congrArg _ hchars⟩
      · exact PatchMode.exists_recover_lenient _ _
  | editArray edits =>
      unfold apply
      split
      · obtain ⟨items, hitems⟩ := exists_applyArrayEdits_lenient path edits _
        exact ⟨_, congrArg _ hitems⟩
      · exact PatchMode.exists_recover_lenient _ _
  | editObject edits =>
      unfold apply
      split
      · obtain ⟨entries, hentries⟩ := exists_applyObjectEdits_lenient path edits _
        exact ⟨_, congrArg _ hentries⟩
      · exact PatchMode.exists_recover_lenient _ _
  | nested patch =>
      rw [apply]
      exact exists_applyPatch_lenient path patch value

/-! ### One place at most -/

/-- Along a path of single steps an operation is a change of one value. -/
theorem applyAt_of_single {path : Path} (hsingle : path.hasWildcards = false) (mode : PatchMode)
    (base : Path) (change : Path → Json → Except Fault Json) (tree : Json) :
    applyAt mode base path change tree = mode.recover tree
      (match tree.valueAt? path with
      | none => .error ⟨.unresolved, base ++ path⟩
      | some value => (change (base ++ path.map Step.concrete) value).map (tree.withValueAt path)) := by
  unfold applyAt
  rw [Json.locateFrom_of_single hsingle, Json.updateFrom_of_single hsingle]
  cases tree.valueAt? path with
  | none => rfl
  | some value =>
      dsimp only
      cases change (base ++ path.map Step.concrete) value <;> rfl

def applyEntry (mode : PatchMode) (base : Path) (entry : Path × Operation) (tree : Json) :
    Except Fault Json :=
  applyAt mode base entry.1 (fun place value => apply mode place entry.2 value) tree

theorem skips_applyEntry {base path : Path} (hsingle : path.hasWildcards = false) {operation : Operation}
    (hskips : ∀ {place : Path} {value result : Json}, apply .lenient place operation value = .ok result →
      Skips Part (apply .strict place) operation value result)
    {tree result : Json} (happly : applyEntry .lenient base (path, operation) tree = .ok result) :
    Skips EntryPart (applyEntry .strict base) (path, operation) tree result := by
  rw [applyEntry, applyAt_of_single hsingle] at happly
  cases hvalue : tree.valueAt? path with
  | none =>
      rw [hvalue] at happly
      exact .inl (Except.ok.inj happly).symm
  | some value =>
      rw [hvalue] at happly
      refine Skips.of_recover happly fun hresult => ?_
      obtain ⟨new, hnew, rfl⟩ := except_map_eq_ok hresult
      rcases hskips hnew with rfl | ⟨part, hpart, hstrict⟩
      · exact .inl (Json.withValueAt_of_valueAt? hvalue)
      · refine .inr ⟨(path, part), .intro path hpart, ?_⟩
        rw [applyEntry, applyAt_of_single hsingle, hvalue]
        simp only [hstrict, PatchMode.recover_strict]
        rfl

/-! ### Whole units are left out -/

/-- No path inside can lead to more than one place. -/
abbrev single : PatchParts where
  path path := path.hasWildcards = false

mutual

theorem skips_apply : (operation : Operation) → operation.Every single → (path : Path) →
    {value result : Json} → apply .lenient path operation value = .ok result →
    Skips Part (apply .strict path) operation value result
  | .set _, _, _, _, _, happly => .inr ⟨_, .whole _, happly⟩
  | .addNumber amount, _, path, value, result, happly => by
      unfold apply at happly
      refine Skips.of_recover happly fun hsum => .inr ⟨_, .whole _, ?_⟩
      unfold apply
      rw [PatchMode.recover_strict, hsum]
  | .editString edits, _, path, value, result, happly => by
      unfold apply at happly
      split at happly
      · obtain ⟨chars, hchars, rfl⟩ := except_map_eq_ok happly
        obtain ⟨part, hpart, hstrict⟩ := StringEdit.exists_sublist_applyAll hchars
        exact .inr ⟨_, .editString hpart, by rw [apply, hstrict]; rfl⟩
      · exact Skips.of_recover happly fun hfault => by cases hfault
  | .editArray edits, hsingle, path, value, result, happly => by
      unfold apply at happly
      split at happly
      · obtain ⟨items, hitems, rfl⟩ := except_map_eq_ok happly
        obtain ⟨part, hpart, hstrict⟩ := exists_part_arrayEdits edits hsingle path hitems
        exact .inr ⟨_, .editArray hpart, by rw [apply, hstrict]; rfl⟩
      · exact Skips.of_recover happly fun hfault => by cases hfault
  | .editObject edits, hsingle, path, value, result, happly => by
      unfold apply at happly
      split at happly
      · obtain ⟨entries, hentries, rfl⟩ := except_map_eq_ok happly
        obtain ⟨part, hpart, hstrict⟩ := exists_part_objectEdits edits hsingle path hentries
        exact .inr ⟨_, .editObject hpart, by rw [apply, hstrict]; rfl⟩
      · exact Skips.of_recover happly fun hfault => by cases hfault
  | .nested patch, hsingle, path, value, result, happly => by
      obtain ⟨part, hpart, hstrict⟩ := exists_part_patch patch hsingle path happly
      exact .inr ⟨_, .nested hpart, hstrict⟩

theorem exists_part_arrayEdits : (edits : List (SequenceEdit Json Operation)) →
    EveryArrayEdits single edits → (path : Path) → {items others : List Json} →
    applyArrayEdits .lenient path edits items = .ok others →
    ∃ part, List.SublistForall₂ ArrayEditPart part edits ∧
      applyArrayEdits .strict path part items = .ok others
  | [], _, _, _, _, happly => ⟨[], .nil, happly⟩
  | edit :: rest, hsingle, path, items, others, happly => by
      rw [applyArrayEdits] at happly
      obtain ⟨middle, hmiddle, happly⟩ := except_bind_eq_ok happly
      have hedit : Skips ArrayEditPart (applyArrayEdit .strict path) edit items middle :=
        Skips.of_recover hmiddle (skips_applyArrayEdit edit hsingle.1 path)
      exact hedit.exists_cons (applyArrayEdits_cons path)
        (exists_part_arrayEdits rest hsingle.2 path happly)

theorem skips_applyArrayEdit : (edit : SequenceEdit Json Operation) → EveryArrayEdit single edit →
    (path : Path) → {items others : List Json} →
    applyArrayEdit .lenient path edit items = .ok others →
    Skips ArrayEditPart (applyArrayEdit .strict path) edit items others
  | .insert _ _, _, _, _, _, happly => .inr ⟨_, .whole _, happly⟩
  | .append _, _, _, _, _, happly => .inr ⟨_, .whole _, happly⟩
  | .delete _ _, _, _, _, _, happly => .inr ⟨_, .whole _, happly⟩
  | .modify position operation, hsingle, path, items, others, happly => by
      unfold applyArrayEdit at happly
      split at happly
      · cases happly
      · rename_i item hitem
        obtain ⟨new, hnew, rfl⟩ := except_map_eq_ok happly
        rcases skips_apply operation hsingle.2 _ hnew with rfl | ⟨part, hpart, hstrict⟩
        · obtain ⟨hlt, rfl⟩ := List.getElem?_eq_some_iff.mp hitem
          exact .inl (List.set_getElem_self hlt)
        · refine .inr ⟨_, .modify position hpart, ?_⟩
          unfold applyArrayEdit
          simp only [hitem, hstrict]
          rfl

theorem exists_part_objectEdits : (edits : List (MapEdit String Json Operation)) →
    EveryObjectEdits single edits → (path : Path) → {entries others : Entries Json} →
    applyObjectEdits .lenient path edits entries = .ok others →
    ∃ part, List.SublistForall₂ ObjectEditPart part edits ∧
      applyObjectEdits .strict path part entries = .ok others
  | [], _, _, _, _, happly => ⟨[], .nil, happly⟩
  | edit :: rest, hsingle, path, entries, others, happly => by
      rw [applyObjectEdits] at happly
      obtain ⟨middle, hmiddle, happly⟩ := except_bind_eq_ok happly
      have hedit : Skips ObjectEditPart (applyObjectEdit .strict path) edit entries middle :=
        Skips.of_recover hmiddle (skips_applyObjectEdit edit hsingle.1 path)
      exact hedit.exists_cons (applyObjectEdits_cons path)
        (exists_part_objectEdits rest hsingle.2 path happly)

theorem skips_applyObjectEdit : (edit : MapEdit String Json Operation) → EveryObjectEdit single edit →
    (path : Path) → {entries others : Entries Json} →
    applyObjectEdit .lenient path edit entries = .ok others →
    Skips ObjectEditPart (applyObjectEdit .strict path) edit entries others
  | .add _ _, _, _, _, _, happly => .inr ⟨_, .whole _, happly⟩
  | .remove _, _, _, _, _, happly => .inr ⟨_, .whole _, happly⟩
  | .modify key operation, hsingle, path, entries, others, happly => by
      unfold applyObjectEdit at happly
      split at happly
      · cases happly
      · rename_i value hvalue
        obtain ⟨new, hnew, rfl⟩ := except_map_eq_ok happly
        rcases skips_apply operation hsingle _ hnew with rfl | ⟨part, hpart, hstrict⟩
        · exact .inl (Entries.replace_of_find? hvalue)
        · refine .inr ⟨_, .modify key hpart, ?_⟩
          unfold applyObjectEdit
          simp only [hvalue, hstrict]
          rfl

/-- What a lenient application does is what a part of the patch does strictly. -/
theorem exists_part_patch : (patch : List (Path × Operation)) → EveryEntry single patch →
    (base : Path) → {tree result : Json} → applyPatch .lenient base patch tree = .ok result →
    ∃ part, List.SublistForall₂ EntryPart part patch ∧ applyPatch .strict base part tree = .ok result
  | [], _, _, _, _, happly => ⟨[], .nil, happly⟩
  | (path, operation) :: rest, hsingle, base, tree, result, happly => by
      rw [applyPatch] at happly
      obtain ⟨middle, hmiddle, happly⟩ := except_bind_eq_ok happly
      have hentry := skips_applyEntry hsingle.1 (skips_apply operation hsingle.2.1 _) hmiddle
      exact hentry.exists_cons (fun _ _ _ => by rw [applyPatch]; rfl)
        (exists_part_patch rest hsingle.2.2 base happly)

end

end Operation

/-- **A lenient application never fails and leaves out whole units only.** There is always a result, and
if no path can lead to more than one place it is exactly what a part of the patch gives strictly. -/
theorem Patch.apply_lenient (patch : Patch) (tree : Json) :
    ∃ result, patch.apply .lenient tree = .ok result ∧
      (patch.Every { path := fun path => path.hasWildcards = false } →
        ∃ part : Patch, part.PartOf patch ∧ part.apply .strict tree = .ok result) := by
  obtain ⟨result, hresult⟩ := Operation.exists_applyPatch_lenient Path.root patch tree
  exact ⟨result, hresult, fun hsingle => Operation.exists_part_patch patch hsingle Path.root hresult⟩

/-- An addition to a string, a deletion past the end, an entry without a place and a key that exists are
left out, each at its own depth. -/
theorem Patch.apply_lenient_nested :
    let patch : Patch :=
      [([.field "list"], .editArray [.modify 0 (.addNumber { whole := 1 }), .append [.null],
          .modify 1 (.editString [.delete 5 1, .append "y"])]),
        ([.field "gone"], .set .null),
        (Path.root, .nested [([.key "list", .index 7], .set .null),
          (Path.root, .editObject [.add "list" .null, .add "new" (.bool true)])])]
    let tree : Json := .object [("list", .array [.string "a", .string "x"])]
    let result : Json :=
      .object [("list", .array [.string "a", .string "xy", .null]), ("new", .bool true)]
    patch.Every { path := fun path => path.hasWildcards = false } ∧
      patch.apply .lenient tree = .ok result ∧
        ∃ part : Patch, part.PartOf patch ∧ part.apply .strict tree = .ok result := by
  intro patch tree result
  have hsingle : patch.Every { path := fun path => path.hasWildcards = false } := by
    simp [patch, Every, Operation.EveryEntry, Operation.Every, Operation.EveryArrayEdits,
      Operation.EveryArrayEdit, Operation.EveryObjectEdits, Operation.EveryObjectEdit,
      StringEdit.Every, Path.hasWildcards, Step.isWildcard, Path.root]
  obtain ⟨other, hother, hpart⟩ := apply_lenient patch tree
  have hresult : patch.apply .lenient tree = .ok result := rfl
  cases hresult.symm.trans hother
  exact ⟨hsingle, hresult, hpart hsingle⟩

end JsonEdit
