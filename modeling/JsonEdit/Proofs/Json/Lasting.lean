import JsonEdit.Json.Edit
import JsonEdit.Proofs.Json.Every
import JsonEdit.Proofs.Json.Focus

/-!
# What edits along a path keep

A property of all parts of a tree lasts if it asks of an object that no key repeats, and nothing of
arrays, strings and sums. Edits along a path keep such a property, as long as what they put in has it.
A container is made anew from parts of the old one and from new values, and an entry is added only where
its key is not yet found.

The one exception is the step that leads to the keys themselves. A new name for a key may be the name of
another key.
-/

namespace JsonEdit

def Yields {α : Type} (goal : α → Prop) (result : Except Fault α) : Prop :=
  ∀ value, result = .ok value → goal value

namespace Yields

variable {α β : Type} {goal : α → Prop} {goal' : β → Prop} {result : Except Fault α}

theorem of_ok {value : α} (hgoal : goal value) : Yields goal (.ok value) := by
  rintro _ ⟨⟩
  exact hgoal

theorem of_error (fault : Fault) : Yields goal (.error fault) := by
  rintro _ ⟨⟩

theorem bind {next : α → Except Fault β} (hyields : Yields goal result)
    (hnext : ∀ value, goal value → Yields goal' (next value)) : Yields goal' (result.bind next) := by
  cases result with
  | error fault => exact of_error fault
  | ok value => exact hnext value (hyields value rfl)

theorem map {f : α → β} (hyields : Yields goal result) (himage : ∀ value, goal value → goal' (f value)) :
    Yields goal' (result.map f) := by
  cases result with
  | error fault => exact of_error fault
  | ok value => exact of_ok (himage value (hyields value rfl))

theorem foldlM {items : List β} {step : α → β → Except Fault α}
    (hstep : ∀ item ∈ items, ∀ state, goal state → Yields goal (step state item)) {state : α}
    (hstate : goal state) : Yields goal (items.foldlM step state) := by
  induction items generalizing state with
  | nil => exact of_ok hstate
  | cons item rest ih =>
      rw [List.foldlM_cons]
      refine bind (hstep item List.mem_cons_self state hstate) fun next hnext => ?_
      exact ih (fun other hother => hstep other (List.mem_cons_of_mem _ hother)) hnext

end Yields

namespace Json

/-! ### Places -/

inductive PlaceIn : Json → Place → Prop
  | element {items : List Json} {position : Nat} {item : Json} (hitem : items[position]? = some item) :
      PlaceIn (.array items) ⟨.element position, .index position, item⟩
  | value {entries : Entries Json} {position : Nat} {key : String} {value : Json}
      (hentry : entries[position]? = some (key, value)) :
      PlaceIn (.object entries) ⟨.value position, .field key, value⟩

theorem placeIn_of_mem_valuePlaces {chosen : Nat → String → Bool} {entries : Entries Json} {place : Place}
    (hmem : place ∈ valuePlaces chosen entries) : PlaceIn (.object entries) place := by
  obtain ⟨⟨⟨key, value⟩, position⟩, hentry, hplace⟩ := List.mem_filterMap.mp hmem
  simp only at hplace
  split at hplace
  · cases hplace
    exact .value (List.mem_zipIdx_iff_getElem?.mp hentry)
  · cases hplace

theorem placeIn_of_elementPlace? {items : List Json} {position : Nat} {place : Place}
    (hplace : elementPlace? items position = some place) : PlaceIn (.array items) place := by
  obtain ⟨item, hitem, rfl⟩ := Option.map_eq_some_iff.mp hplace
  exact .element hitem

/-- Except for keys, a step leads to elements and values. -/
theorem placeIn_of_mem_places {step : Step} (hstep : step ≠ .names) {tree : Json} {place : Place}
    (hmem : place ∈ tree.places step) : PlaceIn tree place := by
  unfold places at hmem
  split at hmem
  · exact placeIn_of_mem_valuePlaces hmem
  · exact placeIn_of_mem_valuePlaces hmem
  · exact placeIn_of_mem_valuePlaces hmem
  · exact placeIn_of_mem_valuePlaces hmem
  · exact absurd rfl hstep
  · exact placeIn_of_elementPlace? (Option.mem_toList.mp hmem)
  · obtain ⟨position, -, hplace⟩ := List.mem_filterMap.mp hmem
    exact placeIn_of_elementPlace? hplace
  · obtain ⟨⟨item, position⟩, hitem, rfl⟩ := List.mem_map.mp hmem
    exact .element (List.mem_zipIdx_iff_getElem?.mp hitem)
  · cases hmem

theorem names_notMem_parent {path parent : Path} {step : Step} (hnames : Step.names ∉ path)
    (hsplit : path.splitLast? = some (parent, step)) : Step.names ∉ parent := by
  intro hmem
  rw [Path.splitLast?_eq_some_iff.mp hsplit] at hnames
  exact hnames (List.mem_append_left [step] hmem)

/-! ### Lasting properties -/

/-- Nothing is asked of arrays, strings and sums, and of objects that no key repeats. -/
structure Lasting (p : Json → Prop) : Prop where
  array (items : List Json) : p (.array items)
  string (text : String) : p (.string text)
  object {entries : Entries Json} : p (.object entries) ↔ Entries.Distinct entries
  sum {left right sum : Number} (hsum : left.add? right = some sum) : p (.number sum)

def Renewed (p : Json → Prop) (after : Option Json) : Prop := ∀ new ∈ after, new.Every p

section Results

variable {p : Json → Prop}

theorem Renewed.ite {condition : Prop} [Decidable condition] {new : Json} (hnew : new.Every p) :
    Renewed p (if condition then some new else none) := by
  split
  · rintro _ ⟨⟩
    exact hnew
  · rintro _ ⟨⟩

theorem every_changedOr (fault : Fault) {result : Except Fault (Option Json)}
    (hresult : Yields (Renewed p) result) : Yields (Every p) (changedOr fault result) := by
  match result with
  | .ok (some new) => exact .of_ok (hresult _ rfl new rfl)
  | .ok none => exact .of_error fault
  | .error other => exact .of_error other

theorem every_changedOrSame {tree : Json} (htree : tree.Every p) {result : Except Fault (Option Json)}
    (hresult : Yields (Renewed p) result) : (tree.changedOrSame result).Every p := by
  match result with
  | .ok (some new) => exact hresult _ rfl new rfl
  | .ok none | .error _ => exact htree

theorem every_orSame {tree : Json} (htree : tree.Every p) {result : Except Fault Json}
    (hresult : Yields (Every p) result) : (tree.orSame result).Every p := by
  cases result with
  | ok new => exact hresult new rfl
  | error fault => exact htree

end Results

namespace Lasting

variable {p : Json → Prop} (hlasting : Lasting p)
include hlasting

theorem every_array_iff {items : List Json} :
    (Json.array items).Every p ↔ ∀ item ∈ items, item.Every p := by
  rw [every_array, and_iff_right (hlasting.array items)]

theorem every_object_iff {entries : Entries Json} :
    (Json.object entries).Every p ↔
      Entries.Distinct entries ∧ ∀ entry ∈ entries, entry.2.Every p := by
  rw [every_object, hlasting.object]

/-! ### Containers made anew -/

theorem object_of_sublist {entries kept : Entries Json} (hentries : (Json.object entries).Every p)
    (hkept : kept.Sublist entries) : (Json.object kept).Every p := by
  obtain ⟨hdistinct, hvalues⟩ := hlasting.every_object_iff.mp hentries
  exact hlasting.every_object_iff.mpr
    ⟨hdistinct.sublist hkept, fun entry hentry => hvalues entry (hkept.subset hentry)⟩

theorem array_of_subset {items kept : List Json} (hitems : (Json.array items).Every p)
    (hkept : kept ⊆ items) : (Json.array kept).Every p := by
  rw [hlasting.every_array_iff] at hitems ⊢
  exact fun item hitem => hitems item (hkept hitem)

theorem array_set {items : List Json} (hitems : (Json.array items).Every p) (position : Nat)
    {new : Json} (hnew : new.Every p) : (Json.array (items.set position new)).Every p := by
  rw [hlasting.every_array_iff] at hitems ⊢
  intro item hitem
  rcases List.mem_or_eq_of_mem_set hitem with hitem | rfl
  · exact hitems item hitem
  · exact hnew

/-- Entries with one new value, if their keys are still distinct. -/
theorem object_of_mem {entries others : Entries Json} (hentries : (Json.object entries).Every p)
    {new : Json} (hnew : new.Every p)
    (hdistinct : Entries.Distinct entries → Entries.Distinct others)
    (hmem : ∀ entry ∈ others, entry.2 = new ∨ entry ∈ entries) : (Json.object others).Every p := by
  obtain ⟨hkeys, hvalues⟩ := hlasting.every_object_iff.mp hentries
  refine hlasting.every_object_iff.mpr ⟨hdistinct hkeys, fun entry hentry => ?_⟩
  rcases hmem entry hentry with hvalue | hentry
  · rw [hvalue]
    exact hnew
  · exact hvalues entry hentry

theorem object_modify {entries : Entries Json} (hentries : (Json.object entries).Every p)
    (position : Nat) {new : Json} (hnew : new.Every p) :
    (Json.object (entries.modify position fun entry => (entry.1, new))).Every p :=
  hlasting.object_of_mem hentries hnew (·.modify position new) fun _ => Entries.mem_modify

theorem object_replace {entries : Entries Json} (hentries : (Json.object entries).Every p)
    (key : String) {new : Json} (hnew : new.Every p) :
    (Json.object (Entries.replace key new entries)).Every p :=
  hlasting.object_of_mem hentries hnew (·.replace key new) fun _ => Entries.mem_replace

theorem object_put {entries : Entries Json} (hentries : (Json.object entries).Every p) (key : String)
    {new : Json} (hnew : new.Every p) : (Json.object (Entries.put key new entries)).Every p :=
  hlasting.object_of_mem hentries hnew (·.put key new) fun _ => Entries.mem_put

/-! ### Along a path -/

theorem every_of_placeIn {tree : Json} {place : Place} (hplace : PlaceIn tree place)
    (htree : tree.Every p) : place.value.Every p := by
  cases hplace with
  | element hitem => exact hlasting.every_array_iff.mp htree _ (List.mem_of_getElem? hitem)
  | value hentry => exact (hlasting.every_object_iff.mp htree).2 _ (List.mem_of_getElem? hentry)

theorem fill {place : Place} {tree : Json} (hplace : PlaceIn tree place) {container new : Json}
    (hcontainer : container.Every p) (hnew : new.Every p) (path : Path) :
    Yields (Every p) (Json.fill place.slot path new container) := by
  cases hplace with
  | element hitem =>
      cases container with
      | array items => exact .of_ok (hlasting.array_set hcontainer _ hnew)
      | _ => exact .of_ok hcontainer
  | value hentry =>
      cases container with
      | object entries => exact .of_ok (hlasting.object_modify hcontainer _ hnew)
      | _ => exact .of_ok hcontainer

theorem updateFrom {change : Path → Json → Except Fault (Option Json)}
    (hchange : ∀ place value, value.Every p → Yields (Renewed p) (change place value)) {path : Path}
    (hnames : Step.names ∉ path) (trail : Path) {tree : Json} (htree : tree.Every p) :
    Yields (Renewed p) (Json.updateFrom change trail path tree) := by
  induction path generalizing trail tree with
  | nil => exact hchange trail tree htree
  | cons step rest ih =>
      rw [List.mem_cons, not_or] at hnames
      rw [Json.updateFrom]
      refine Yields.foldlM (fun place hplace changed hchanged => ?_) (by simp [Renewed])
      have hin := placeIn_of_mem_places (Ne.symm hnames.1) hplace
      have hbelow := ih hnames.2 (trail.child place.step) (hlasting.every_of_placeIn hin htree)
      have hcontainer : (changed.getD tree).Every p := by
        cases changed with
        | none => exact htree
        | some new => exact hchanged new rfl
      simp only
      split
      · exact .of_error _
      · exact .of_ok hchanged
      · rename_i new hnew
        refine (hlasting.fill hin hcontainer (hbelow _ hnew new rfl) _).map fun result hresult => ?_
        rintro _ ⟨⟩
        exact hresult

/-! ### Setting and modifying -/

variable {path : Path} (hnames : Step.names ∉ path) {tree : Json} (htree : tree.Every p)
include hnames htree

/-- What holds everywhere in a tree and in the new value holds everywhere after the new value was set. -/
theorem trySet {new : Json} (hnew : new.Every p) : Yields (Every p) (tree.trySet path new) := by
  refine every_changedOr _ (hlasting.updateFrom (fun _ _ _ => .of_ok ?_) hnames Path.root htree)
  rintro _ ⟨⟩
  exact hnew

theorem set {new : Json} (hnew : new.Every p) : (tree.set path new).Every p :=
  every_orSame htree (hlasting.trySet hnames htree hnew)

theorem tryModify {image : Json → Option Json}
    (himage : ∀ value, value.Every p → Renewed p (image value)) :
    Yields (Every p) (tree.tryModify path image) := by
  refine every_changedOr _ (hlasting.updateFrom (fun place value hvalue => ?_) hnames Path.root htree)
  have hrenewed := himage value hvalue
  split
  · rename_i new hnew
    rw [hnew] at hrenewed
    exact .of_ok hrenewed
  · exact .of_error _

theorem modify {image : Json → Option Json}
    (himage : ∀ value, value.Every p → Renewed p (image value)) :
    (tree.modify path image).Every p :=
  every_changedOrSame htree
    (hlasting.updateFrom (fun _ value hvalue => .of_ok (himage value hvalue)) hnames Path.root htree)

omit hnames htree

/-! ### Inserting and deleting -/

theorem insertChild {container new : Json} (hcontainer : container.Every p) (hnew : new.Every p)
    (place : Path) (step : Step) :
    Yields (Every p) (Json.insertChild place step new container) := by
  unfold Json.insertChild
  split
  · rename_i entries key _
    split
    · exact .of_error _
    · rename_i hfresh
      -- adding a key that is not there is putting it
      have hput : entries ++ [(key, new)] = Entries.put key new entries := (if_neg hfresh).symm
      rw [hput]
      exact .of_ok (hlasting.object_put hcontainer key hnew)
  · rw [hlasting.every_array_iff] at hcontainer
    split
    · exact .of_error _
    · refine .of_ok (hlasting.every_array_iff.mpr fun item hitem => ?_)
      rcases List.mem_append.mp hitem with hitem | hitem
      · exact hcontainer item (List.mem_of_mem_take hitem)
      · rcases List.mem_cons.mp hitem with rfl | hitem
        · exact hnew
        · exact hcontainer item (List.mem_of_mem_drop hitem)
  · split <;> exact .of_error _

theorem deleteChildren {container : Json} (hcontainer : container.Every p) (step : Step) :
    Renewed p (Json.deleteChildren step container) := by
  unfold Json.deleteChildren
  split
  · exact .ite (hlasting.object_of_sublist hcontainer List.filter_sublist)
  · exact .ite (hlasting.object_of_sublist hcontainer List.filter_sublist)
  · exact .ite (hlasting.object_of_sublist hcontainer List.filter_sublist)
  · rintro _ ⟨⟩
    exact hlasting.object_of_sublist hcontainer (List.nil_sublist _)
  · rintro _ ⟨⟩
    exact hlasting.object_of_sublist hcontainer (List.nil_sublist _)
  · exact .ite (hlasting.array_of_subset hcontainer (List.eraseIdx_sublist _ _).subset)
  · refine .ite (hlasting.array_of_subset hcontainer fun item hitem => ?_)
    obtain ⟨⟨other, position⟩, hother, rfl⟩ := List.mem_map.mp hitem
    exact List.fst_mem_of_mem_zipIdx (List.mem_of_mem_filter hother)
  · rintro _ ⟨⟩
    exact hlasting.array_of_subset hcontainer (List.nil_subset _)
  · rintro _ ⟨⟩

include hnames htree

theorem tryInsert {new : Json} (hnew : new.Every p) : Yields (Every p) (tree.tryInsert path new) := by
  unfold Json.tryInsert
  split
  · exact .of_error _
  · rename_i parent step hsplit
    refine every_changedOr _ (hlasting.updateFrom (fun place container hcontainer => ?_)
      (names_notMem_parent hnames hsplit) Path.root htree)
    refine (hlasting.insertChild hcontainer hnew place step).map fun result hresult => ?_
    rintro _ ⟨⟩
    exact hresult

theorem insert {new : Json} (hnew : new.Every p) : (tree.insert path new).Every p := by
  unfold Json.insert
  split
  · exact htree
  · rename_i parent step hsplit
    refine every_changedOrSame htree (hlasting.updateFrom (fun place container hcontainer => ?_)
      (names_notMem_parent hnames hsplit) Path.root htree)
    refine .of_ok fun result hresult => ?_
    exact hlasting.insertChild hcontainer hnew place step result (toOption_eq_some_iff.mp hresult)

theorem tryDelete : Yields (Every p) (tree.tryDelete path) := by
  unfold Json.tryDelete
  split
  · exact .of_error _
  · rename_i parent step hsplit
    exact every_changedOr _ (hlasting.updateFrom
      (fun _ container hcontainer => .of_ok (hlasting.deleteChildren hcontainer step))
      (names_notMem_parent hnames hsplit) Path.root htree)

theorem delete : (tree.delete path).Every p := every_orSame htree (hlasting.tryDelete hnames htree)

end Lasting

/-! ### Distinct keys -/

/-- If it is an object its keys are distinct. -/
def DistinctKeys : Json → Prop
  | .object entries => Entries.Distinct entries
  | _ => True

theorem lasting_distinctKeys : Lasting DistinctKeys where
  array _ := trivial
  string _ := trivial
  object := Iff.rfl
  sum _ := trivial

end Json

end JsonEdit
