import JsonEdit.Patch.Apply
import JsonEdit.Proofs.Json.Renumbered
import JsonEdit.Proofs.Number.Alike
import JsonEdit.Proofs.Outcome

/-!
# Patches that differ in their numbers only

Two such patches are applied to two such trees. Then both applications fail, or both have results, and
the results differ in their numbers only again. All that is asked of the relation between the numbers is
that sums of related numbers are related, and that there is one sum if there is the other.

`Matches` carries that through the interpreter, as both run side by side: the places of a path are the
same in both trees, and at each of them the same edits can be done.
-/

namespace JsonEdit

theorem Matches.recover {α β : Type} {related : α → β → Prop} {first : Except Fault α}
    {second : Except Fault β} (mode : PatchMode) {keep : α} {other : β} (hkeep : related keep other)
    (hresult : Matches related first second) :
    Matches related (mode.recover keep first) (mode.recover other second) := by
  cases hresult with
  | ok hrelated => exact .ok hrelated
  | error fault other =>
      cases mode with
      | lenient => exact .ok hkeep
      | strict | clobber => exact .error fault other

/-! ### Lists place by place -/

section Lists

variable {α β : Type} {related : α → β → Prop} {items : List α} {others : List β}

theorem forall₂_zipIdx (hitems : List.Forall₂ related items others) (start : Nat) :
    List.Forall₂ (fun item other => related item.1 other.1 ∧ item.2 = other.2) (items.zipIdx start)
      (others.zipIdx start) := by
  induction hitems generalizing start with
  | nil => exact .nil
  | cons hitem hrest ih =>
      rw [List.zipIdx_cons, List.zipIdx_cons]
      exact .cons ⟨hitem, rfl⟩ (ih (start + 1))

theorem rel_getElem? (hitems : List.Forall₂ related items others) (position : Nat) :
    Option.Rel related items[position]? others[position]? := by
  induction hitems generalizing position with
  | nil => exact .none
  | cons hitem hrest ih =>
      cases position with
      | zero => exact .some hitem
      | succ position => exact ih position

theorem forall₂_toList {item : Option α} {other : Option β} (hitem : Option.Rel related item other) :
    List.Forall₂ related item.toList other.toList := by
  cases hitem with
  | none => exact .nil
  | some hrelated => exact .cons hrelated .nil

theorem forall₂_modify (hitems : List.Forall₂ related items others) (position : Nat) {f : α → α}
    {g : β → β} (himage : ∀ item other, related item other → related (f item) (g other)) :
    List.Forall₂ related (items.modify position f) (others.modify position g) := by
  induction hitems generalizing position with
  | nil => cases position <;> exact .nil
  | cons hitem hrest ih =>
      cases position with
      | zero => exact .cons (himage _ _ hitem) hrest
      | succ position => exact .cons hitem (ih position)

theorem forall₂_set (hitems : List.Forall₂ related items others) (position : Nat) {new : α} {new' : β}
    (hnew : related new new') :
    List.Forall₂ related (items.set position new) (others.set position new') := by
  induction hitems generalizing position with
  | nil => exact .nil
  | cons hitem hrest ih =>
      cases position with
      | zero => exact .cons hnew hrest
      | succ position => exact .cons hitem (ih position)

theorem forall₂_replaceRange (hitems : List.Forall₂ related items others) {values : List α}
    {values' : List β} (hvalues : List.Forall₂ related values values') (position length : Nat) :
    List.Forall₂ related (SequenceEdit.replaceRange items values position length)
      (SequenceEdit.replaceRange others values' position length) :=
  List.rel_append (List.rel_append (List.forall₂_take position hitems) hvalues)
    (List.forall₂_drop (position + length) hitems)

end Lists

namespace Json

variable {related : Number → Number → Prop} {tree other new new' : Json}

/-! ### Places -/

/-- The places are found in the same way, and their values differ in their numbers only. -/
inductive RenumberedPlace (related : Number → Number → Prop) : Place → Place → Prop where
  | mk (slot : Slot) (step : Step) {value other : Json} (hvalue : Renumbered related value other) :
      RenumberedPlace related ⟨slot, step, value⟩ ⟨slot, step, other⟩

theorem isFirstEntry_eq {entries others : Entries Json}
    (hentries : List.Forall₂ (RenumberedEntry related) entries others) (position : Nat) (key : String) :
    isFirstEntry entries position key = isFirstEntry others position key := by
  have hfind : entries.findIdx (fun entry => entry.1 = key) =
      others.findIdx (fun entry => entry.1 = key) := by
    induction hentries with
    | nil => rfl
    | cons hentry hrest ih =>
        obtain ⟨other, hvalue⟩ := hentry
        rw [List.findIdx_cons, List.findIdx_cons, ih]
  rw [isFirstEntry, isFirstEntry, hfind]

theorem renumbered_valuePlaces {entries others : Entries Json}
    (hentries : List.Forall₂ (RenumberedEntry related) entries others)
    (chosen : Nat → String → Bool) :
    List.Forall₂ (RenumberedPlace related) (valuePlaces chosen entries)
      (valuePlaces chosen others) := by
  refine List.rel_filterMap ?_ (forall₂_zipIdx hentries 0)
  rintro ⟨entry, position⟩ ⟨next, position'⟩ ⟨⟨key, hvalue⟩, rfl⟩
  simp only
  split
  · exact .some (.mk _ _ hvalue)
  · exact .none

theorem renumbered_elementPlace? {items others : List Json}
    (hitems : List.Forall₂ (Renumbered related) items others) (position : Nat) :
    Option.Rel (RenumberedPlace related) (elementPlace? items position)
      (elementPlace? others position) := by
  have hitem := rel_getElem? hitems position
  unfold elementPlace?
  generalize items[position]? = item, others[position]? = item' at hitem
  cases hitem with
  | none => exact .none
  | some hvalue => exact .some (.mk _ _ hvalue)

theorem renumbered_places (hsame : Renumbered related tree other) (step : Step) :
    List.Forall₂ (RenumberedPlace related) (places step tree) (places step other) := by
  cases hsame with
  | null | bool value | string value | number hrelated => cases step <;> exact .nil
  | array hitems =>
      cases step with
      | index position =>
          exact forall₂_toList (renumbered_elementPlace? hitems position)
      | indices positions =>
          refine List.rel_filterMap ?_ (List.forall₂_same.mpr fun position _ => Eq.refl position)
          rintro position _ rfl
          exact renumbered_elementPlace? hitems position
      | elements =>
          refine List.rel_map ?_ (forall₂_zipIdx hitems 0)
          rintro ⟨item, position⟩ ⟨item', position'⟩ ⟨hitem, rfl⟩
          exact .mk _ _ hitem
      | _ => exact .nil
  | object hentries =>
      cases step with
      | field name | key name | keys names =>
          simp only [places, isFirstEntry_eq hentries]
          exact renumbered_valuePlaces hentries _
      | values => exact renumbered_valuePlaces hentries fun _ _ => true
      | names =>
          refine List.rel_map ?_ (forall₂_zipIdx hentries 0)
          rintro ⟨entry, position⟩ ⟨next, position'⟩ ⟨⟨key, hvalue⟩, rfl⟩
          exact .mk _ _ (.string key)
      | _ => exact .nil

theorem matches_fill (hsame : Renumbered related tree other) (slot : Slot) (path : Path)
    (hnew : Renumbered related new new') :
    Matches (Renumbered related) (fill slot path new tree) (fill slot path new' other) := by
  cases hsame with
  | null => cases slot <;> exact .ok .null
  | bool value => cases slot <;> exact .ok (.bool value)
  | string value => cases slot <;> exact .ok (.string value)
  | number hrelated => cases slot <;> exact .ok (.number hrelated)
  | array hitems =>
      cases slot with
      | element position => exact .ok (.array (forall₂_set hitems position hnew))
      | value position | name position => exact .ok (.array hitems)
  | object hentries =>
      cases slot with
      | element position => exact .ok (.object hentries)
      | value position =>
          refine .ok (.object (forall₂_modify hentries position ?_))
          rintro _ _ ⟨key, _⟩
          exact .mk key hnew
      | name position =>
          cases hnew with
          | string name =>
              refine .ok (.object (forall₂_modify hentries position ?_))
              rintro _ _ ⟨_, hvalue⟩
              exact .mk name hvalue
          | null | bool value | number hrelated | array hitems | object hentries =>
              exact .error _ _

/-! ### Paths -/

theorem renumbered_locateFrom (hsame : Renumbered related tree other) (trail path : Path) :
    List.Forall₂ (fun found found' => found.1 = found'.1 ∧ Renumbered related found.2 found'.2)
      (locateFrom trail path tree) (locateFrom trail path other) := by
  induction path generalizing trail tree other with
  | nil => exact .cons ⟨rfl, hsame⟩ .nil
  | cons step rest ih =>
      refine List.rel_flatMap (renumbered_places hsame step) ?_
      rintro _ _ ⟨slot, single, hvalue⟩
      exact ih hvalue (trail.child single)

/-- Changes that match at every place match along a path. -/
theorem matches_updateFrom {change change' : Path → Json → Except Fault (Option Json)}
    (hchange : ∀ place value value', Renumbered related value value' →
      Matches (Option.Rel (Renumbered related)) (change place value) (change' place value'))
    (hsame : Renumbered related tree other) (trail path : Path) :
    Matches (Option.Rel (Renumbered related)) (updateFrom change trail path tree)
      (updateFrom change' trail path other) := by
  induction path generalizing trail tree other with
  | nil => exact hchange trail tree other hsame
  | cons step rest ih =>
      unfold updateFrom
      refine Matches.foldlM (renumbered_places hsame step) ?_ .none
      rintro _ _ changed changed' ⟨slot, single, hvalue⟩ hchanged
      have hplace := ih hvalue (trail.child single)
      have hstart : Renumbered related (changed.getD tree) (changed'.getD other) := by
        cases hchanged with
        | none => exact hsame
        | some hchanged => exact hchanged
      simp only
      generalize updateFrom change (trail.child single) rest _ = result,
        updateFrom change' (trail.child single) rest _ = result' at hplace
      obtain hnew | ⟨fault, fault'⟩ := hplace
      · obtain hnew | _ := hnew
        · exact (matches_fill hstart slot _ hnew).map fun _ _ => .some
        · exact .ok hchanged
      · exact .error fault fault'

end Json

namespace Operation

mutual

/-- The operations are the same except for the numbers in them, which are related. -/
inductive Renumbered (related : Number → Number → Prop) : Operation → Operation → Prop where
  | set {value other : Json} (hvalue : Json.Renumbered related value other) :
      Renumbered related (.set value) (.set other)
  | addNumber {amount other : Number} (hrelated : related amount other) :
      Renumbered related (.addNumber amount) (.addNumber other)
  | editString (edits : List StringEdit) : Renumbered related (.editString edits) (.editString edits)
  | editArray {edits others : List (SequenceEdit Json Operation)}
      (hedits : List.Forall₂ (RenumberedArrayEdit related) edits others) :
      Renumbered related (.editArray edits) (.editArray others)
  | editObject {edits others : List (MapEdit String Json Operation)}
      (hedits : List.Forall₂ (RenumberedObjectEdit related) edits others) :
      Renumbered related (.editObject edits) (.editObject others)
  | nested {patch others : List (Path × Operation)}
      (hpatch : List.Forall₂ (RenumberedEntry related) patch others) :
      Renumbered related (.nested patch) (.nested others)

inductive RenumberedArrayEdit (related : Number → Number → Prop) :
    SequenceEdit Json Operation → SequenceEdit Json Operation → Prop where
  | insert (position : Nat) {values others : List Json}
      (hvalues : List.Forall₂ (Json.Renumbered related) values others) :
      RenumberedArrayEdit related (.insert position values) (.insert position others)
  | append {values others : List Json}
      (hvalues : List.Forall₂ (Json.Renumbered related) values others) :
      RenumberedArrayEdit related (.append values) (.append others)
  | delete (position length : Nat) :
      RenumberedArrayEdit related (.delete position length) (.delete position length)
  | modify (position : Nat) {operation other : Operation}
      (hoperation : Renumbered related operation other) :
      RenumberedArrayEdit related (.modify position operation) (.modify position other)

inductive RenumberedObjectEdit (related : Number → Number → Prop) :
    MapEdit String Json Operation → MapEdit String Json Operation → Prop where
  | add (key : String) {value other : Json} (hvalue : Json.Renumbered related value other) :
      RenumberedObjectEdit related (.add key value) (.add key other)
  | remove (key : String) : RenumberedObjectEdit related (.remove key) (.remove key)
  | modify (key : String) {operation other : Operation}
      (hoperation : Renumbered related operation other) :
      RenumberedObjectEdit related (.modify key operation) (.modify key other)

inductive RenumberedEntry (related : Number → Number → Prop) :
    Path × Operation → Path × Operation → Prop where
  | mk (path : Path) {operation other : Operation} (hoperation : Renumbered related operation other) :
      RenumberedEntry related (path, operation) (path, other)

end

end Operation

def Patch.Renumbered (related : Number → Number → Prop) (patch other : Patch) : Prop :=
  List.Forall₂ (Operation.RenumberedEntry related) patch other

namespace Operation

variable {related : Number → Number → Prop}

/-! ### Operations at the places of a path -/

/-- Where a path has to lead to one place, more than one are a fault, whatever the change. -/
theorem exists_error_of_ambiguous (base path : Path) (result : Except Fault Json) (place : Path) :
    ∃ fault, (do
      let new ← result
      if path.getLast? = some .names && new.kind ≠ .string then
        throw ⟨.namesMustBeStrings new.kind, place⟩
      throw ⟨.ambiguous, base ++ path⟩ : Except Fault Json) = .error fault := by
  cases result with
  | error fault => exact ⟨fault, rfl⟩
  | ok new =>
      simp only [bind, Except.bind]
      split
      · exact ⟨_, rfl⟩
      · exact ⟨_, rfl⟩

theorem matches_applyAt (mode : PatchMode) (base path : Path)
    {change change' : Path → Json → Except Fault Json}
    (hchange : ∀ place value value', Json.Renumbered related value value' →
      Matches (Json.Renumbered related) (change place value) (change' place value'))
    {tree other : Json} (hsame : Json.Renumbered related tree other) :
    Matches (Json.Renumbered related) (applyAt mode base path change tree)
      (applyAt mode base path change' other) := by
  have hplaces := Json.renumbered_locateFrom hsame base path
  have hupdate : Matches (Json.Renumbered related)
      ((tree.updateFrom (fun place value => (change place value).map some) base path).map
        (·.getD tree))
      ((other.updateFrom (fun place value => (change' place value).map some) base path).map
        (·.getD other)) := by
    refine (Json.matches_updateFrom (fun place value value' hvalue =>
      (hchange place value value' hvalue).map fun _ _ => .some) hsame base path).map ?_
    rintro _ _ (hnew | _)
    · exact hnew
    · exact hsame
  unfold applyAt
  refine Matches.recover mode hsame ?_
  generalize Json.locateFrom base path tree = places, Json.locateFrom base path other = places' at hplaces
  -- the path leads to as many places in both trees; their number and the mode decide what is done
  match hplaces with
  | .nil => exact .error _ _
  | .cons _ .nil => cases mode <;> exact hupdate
  | .cons _ (.cons _ _) =>
      cases mode with
      | lenient => exact hupdate
      | strict | clobber =>
          exact .of_errors (exists_error_of_ambiguous base path (change _ _) _)
            (exists_error_of_ambiguous base path (change' _ _) _)

/-! ### Operations

The recursion is on the first operation, whose shape fixes that of the second one. Where one of the two
values has the kind that the operation requires, so has the other. -/

mutual

/-- An operation on trees with related numbers gives trees with related numbers, or fails on both. -/
theorem matches_apply (hsum : Number.Additive related) (mode : PatchMode) (path : Path) :
    (operation : Operation) → {other : Operation} → {value value' : Json} →
      Renumbered related operation other → Json.Renumbered related value value' →
        Matches (Json.Renumbered related) (apply mode path operation value)
          (apply mode path other value')
  | .set _, _, _, _, .set hnew, _ => .ok hnew
  | .addNumber amount, .addNumber amount', _, _, .addNumber hamount, hvalue => by
      refine Matches.recover mode hvalue ?_
      cases hvalue with
      | @number number number' hnumber =>
          have htotal := hsum hnumber hamount
          simp only
          generalize number.add? amount = total, number'.add? amount' = total' at htotal
          cases htotal with
          | some htotal => exact .ok (.number htotal)
          | none => exact .error _ _
      | null | bool value | string value | array hitems | object hentries => exact .error _ _
  | .editString edits, _, _, _, .editString _, hvalue => by
      have hkeep := hvalue
      cases hvalue with
      | string text =>
          refine (Matches.refl (StringEdit.applyAll mode path edits text.toList)).map ?_
          rintro chars _ rfl
          exact .string (String.ofList chars)
      | null | bool value | number hnumber | array hitems | object hentries =>
          exact Matches.recover mode hkeep (.error _ _)
  | .editArray edits, _, _, _, .editArray hedits, hvalue => by
      have hkeep := hvalue
      cases hvalue with
      | array hitems =>
          exact (matches_applyArrayEdits hsum mode path edits hedits hitems).map fun _ _ => .array
      | null | bool value | number hnumber | string text | object hentries =>
          exact Matches.recover mode hkeep (.error _ _)
  | .editObject edits, _, _, _, .editObject hedits, hvalue => by
      have hkeep := hvalue
      cases hvalue with
      | object hentries =>
          exact (matches_applyObjectEdits hsum mode path edits hedits hentries).map fun _ _ => .object
      | null | bool value | number hnumber | string text | array hitems =>
          exact Matches.recover mode hkeep (.error _ _)
  | .nested patch, _, _, _, .nested hpatch, hvalue => matches_applyPatch hsum mode path patch hpatch hvalue

theorem matches_applyArrayEdits (hsum : Number.Additive related) (mode : PatchMode) (path : Path) :
    (edits : List (SequenceEdit Json Operation)) →
      {others : List (SequenceEdit Json Operation)} → {items items' : List Json} →
      List.Forall₂ (RenumberedArrayEdit related) edits others →
        List.Forall₂ (Json.Renumbered related) items items' →
          Matches (List.Forall₂ (Json.Renumbered related)) (applyArrayEdits mode path edits items)
            (applyArrayEdits mode path others items')
  | [], _, _, _, .nil, hitems => .ok hitems
  | edit :: rest, _, _, _, .cons hedit hrest, hitems =>
      ((matches_applyArrayEdit hsum mode path edit hedit hitems).recover mode hitems).bind
        fun _ _ hnext => matches_applyArrayEdits hsum mode path rest hrest hnext

theorem matches_applyArrayEdit (hsum : Number.Additive related) (mode : PatchMode) (path : Path) :
    (edit : SequenceEdit Json Operation) → {other : SequenceEdit Json Operation} →
      {items items' : List Json} → RenumberedArrayEdit related edit other →
        List.Forall₂ (Json.Renumbered related) items items' →
          Matches (List.Forall₂ (Json.Renumbered related)) (applyArrayEdit mode path edit items)
            (applyArrayEdit mode path other items')
  | .insert position values, _, items, _, .insert _ hvalues, hitems => by
      unfold applyArrayEdit
      rw [← hitems.length_eq]
      split
      · exact .error _ _
      · exact .ok (forall₂_replaceRange hitems hvalues position 0)
  | .append values, _, _, _, .append hvalues, hitems => .ok (List.rel_append hitems hvalues)
  | .delete position length, _, items, _, .delete _ _, hitems => by
      unfold applyArrayEdit
      rw [← hitems.length_eq]
      split
      · exact .error _ _
      · exact .ok (forall₂_replaceRange hitems .nil position length)
  | .modify position operation, _, items, items', .modify _ hoperation, hitems => by
      unfold applyArrayEdit
      have hitem := rel_getElem? hitems position
      generalize items[position]? = item, items'[position]? = item' at hitem
      cases hitem with
      | none => exact .error _ _
      | some hitem =>
          exact (matches_apply hsum mode _ operation hoperation hitem).map
            fun _ _ hnew => forall₂_set hitems position hnew

theorem matches_applyObjectEdits (hsum : Number.Additive related) (mode : PatchMode) (path : Path) :
    (edits : List (MapEdit String Json Operation)) →
      {others : List (MapEdit String Json Operation)} → {entries entries' : Entries Json} →
      List.Forall₂ (RenumberedObjectEdit related) edits others →
        List.Forall₂ (Json.RenumberedEntry related) entries entries' →
          Matches (List.Forall₂ (Json.RenumberedEntry related))
            (applyObjectEdits mode path edits entries) (applyObjectEdits mode path others entries')
  | [], _, _, _, .nil, hentries => .ok hentries
  | edit :: rest, _, _, _, .cons hedit hrest, hentries =>
      ((matches_applyObjectEdit hsum mode path edit hedit hentries).recover mode hentries).bind
        fun _ _ hnext => matches_applyObjectEdits hsum mode path rest hrest hnext

theorem matches_applyObjectEdit (hsum : Number.Additive related) (mode : PatchMode) (path : Path) :
    (edit : MapEdit String Json Operation) → {other : MapEdit String Json Operation} →
      {entries entries' : Entries Json} → RenumberedObjectEdit related edit other →
        List.Forall₂ (Json.RenumberedEntry related) entries entries' →
          Matches (List.Forall₂ (Json.RenumberedEntry related))
            (applyObjectEdit mode path edit entries) (applyObjectEdit mode path other entries')
  | .add key value, _, _, _, .add _ hvalue, hentries => by
      unfold applyObjectEdit
      rw [Json.renumbered_has hentries]
      split
      · exact .error _ _
      · exact .ok (Json.renumbered_put hentries key hvalue)
  | .remove key, _, _, _, .remove _, hentries => by
      unfold applyObjectEdit
      rw [Json.renumbered_has hentries]
      split
      · exact .ok (Json.renumbered_erase hentries key)
      · exact .error _ _
  | .modify key operation, _, entries, entries', .modify _ hoperation, hentries => by
      unfold applyObjectEdit
      have hvalue := Json.renumbered_find? hentries key
      generalize entries.find? key = value, entries'.find? key = value' at hvalue
      cases hvalue with
      | none => exact .error _ _
      | some hvalue =>
          exact (matches_apply hsum mode _ operation hoperation hvalue).map
            fun _ _ hnew => Json.renumbered_replace hentries key hnew

theorem matches_applyPatch (hsum : Number.Additive related) (mode : PatchMode) (base : Path) :
    (patch : List (Path × Operation)) → {others : List (Path × Operation)} → {tree other : Json} →
      List.Forall₂ (RenumberedEntry related) patch others → Json.Renumbered related tree other →
        Matches (Json.Renumbered related) (applyPatch mode base patch tree)
          (applyPatch mode base others other)
  | [], _, _, _, .nil, hsame => .ok hsame
  | (path, operation) :: rest, _, _, _, .cons (.mk _ hoperation) hrest, hsame =>
      (matches_applyAt mode base path
        (fun place _ _ hvalue => matches_apply hsum mode place operation hoperation hvalue) hsame).bind
        fun _ _ hnext => matches_applyPatch hsum mode base rest hrest hnext

end

end Operation

/-- **Patches that differ in their numbers only, on trees that do,** both fail or both have results that
differ in their numbers only. -/
theorem Patch.matches_apply {related : Number → Number → Prop} (hsum : Number.Additive related)
    (mode : PatchMode) {patch other : Patch} (hpatch : patch.Renumbered related other)
    {tree tree' : Json} (hsame : tree.Renumbered related tree') :
    Matches (Json.Renumbered related) (patch.apply mode tree) (other.apply mode tree') :=
  Operation.matches_applyPatch hsum mode Path.root patch hpatch hsame

end JsonEdit
