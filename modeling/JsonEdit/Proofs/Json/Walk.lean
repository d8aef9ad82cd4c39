import JsonEdit.Proofs.Json.Lasting
import JsonEdit.Proofs.Outcome

/-!
# The place at which a walk fails

A walk asks for a change at one place after the other, in the order in which the path leads to them. It
fails at the first place whose change fails, with the fault of that place. The containers that are made
anew on the way have no say in it, except that a new value for a key has to be a string. So whether a walk
fails, and how, can be read from the list of its places.
-/

namespace JsonEdit

/-- The computation fails with the fault, if there is one, and else has a result that meets the goal. -/
def Reports {α : Type} (fault? : Option Fault) (goal : α → Prop) : Except Fault α → Prop
  | .ok value => fault? = none ∧ goal value
  | .error fault => fault? = some fault

namespace Reports

variable {α β : Type} {fault? : Option Fault} {goal : α → Prop} {result : Except Fault α}

theorem map {f : α → β} {goal' : β → Prop} (hreports : Reports fault? goal result)
    (himage : ∀ value, goal value → goal' (f value)) : Reports fault? goal' (result.map f) := by
  cases result with
  | error fault => exact hreports
  | ok value => exact ⟨hreports.1, himage value hreports.2⟩

theorem mono {weaker : α → Prop} (hreports : Reports fault? goal result)
    (himp : ∀ value, goal value → weaker value) : Reports fault? weaker result := by
  cases result with
  | error fault => exact hreports
  | ok value => exact ⟨hreports.1, himp value hreports.2⟩

theorem eq_error_iff (hreports : Reports fault? goal result) (fault : Fault) :
    result = .error fault ↔ fault? = some fault := by
  cases result with
  | error other =>
      rw [show fault? = some other from hreports, Except.error.injEq, Option.some_inj]
  | ok value =>
      rw [hreports.1]
      exact iff_of_false nofun nofun

/-- A loop fails with the fault of the first item that has one. -/
theorem foldlM {items : List β} {step : α → β → Except Fault α} {fault? : β → Option Fault}
    (hstep : ∀ item ∈ items, ∀ state, goal state → Reports (fault? item) goal (step state item))
    {state : α} (hstate : goal state) :
    Reports (items.findSome? fault?) goal (items.foldlM step state) := by
  induction items generalizing state with
  | nil => exact ⟨rfl, hstate⟩
  | cons item rest ih =>
      have hitem := hstep item List.mem_cons_self state hstate
      rw [List.foldlM_cons, List.findSome?_cons]
      cases hnext : step state item with
      | error fault =>
          rw [hnext] at hitem
          rw [show fault? item = some fault from hitem]
          rfl
      | ok next =>
          rw [hnext] at hitem
          rw [hitem.1]
          exact ih (fun other hother => hstep other (List.mem_cons_of_mem _ hother)) hitem.2

end Reports

namespace Json

/-- The fault at a place of a path: that of the change there, or that of a new value for a key which is
no string. -/
def faultAt (change : Path → Json → Except Fault (Option Json)) (path : Path) (place : Path × Json) :
    Option Fault :=
  match change place.1 place.2 with
  | .error fault => some fault
  | .ok none => none
  | .ok (some new) =>
    if path.getLast? = some .names ∧ new.kind ≠ .string then
      some ⟨.namesMustBeStrings new.kind, place.1⟩
    else none

section

variable {change : Path → Json → Except Fault (Option Json)} {tree : Json}

theorem faultAt_eq_some {path : Path} {place : Path × Json} {fault : Fault}
    (hfault : faultAt change path place = some fault) :
    change place.1 place.2 = .error fault ∨ fault.path = place.1 := by
  unfold faultAt at hfault
  split at hfault
  · rename_i hchange
    rw [hchange, Option.some.inj hfault]
    exact .inl rfl
  · cases hfault
  · split at hfault
    · cases hfault
      exact .inr rfl
    · cases hfault

/-- What a key is renamed to is looked at by the last step alone. -/
theorem faultAt_cons_cons (step next : Step) (rest : Path) :
    faultAt change (step :: next :: rest) = faultAt change (next :: rest) := by
  funext place
  simp only [faultAt, List.getLast?_cons_cons]

theorem findSome?_flatMap {α β γ : Type} (f : β → Option γ) (g : α → List β) (items : List α) :
    (items.flatMap g).findSome? f = items.findSome? fun item => (g item).findSome? f := by
  induction items with
  | nil => rfl
  | cons item rest ih =>
      rw [List.flatMap_cons, List.findSome?_append, ih, List.findSome?_cons]
      cases (g item).findSome? f <;> rfl

/-- Only the slot of a key can refuse a value. -/
theorem reports_fill {step : Step} {place : Place} (hplace : place ∈ tree.places step) {container : Json}
    (hkind : container.kind = tree.kind) (path : Path) (new : Json) :
    Reports (if step = .names ∧ new.kind ≠ .string then some ⟨.namesMustBeStrings new.kind, path⟩ else none)
      (fun filled => filled.kind = tree.kind) (fill place.slot path new container) := by
  by_cases hstep : step = .names
  · subst hstep
    cases tree with
    | object entries =>
        obtain ⟨⟨entry, position⟩, -, rfl⟩ := List.mem_map.mp hplace
        cases container with
        | object others => cases new <;> first | exact rfl | exact ⟨rfl, rfl⟩
        | _ => cases hkind
    | _ => exact absurd hplace List.not_mem_nil
  · rw [if_neg fun hnames => hstep hnames.1]
    cases placeIn_of_mem_places hstep hplace with
    | element hitem =>
        cases container with
        | array items => exact ⟨rfl, rfl⟩
        | _ => cases hkind
    | value hentry =>
        cases container with
        | object entries => exact ⟨rfl, rfl⟩
        | _ => cases hkind

/-- Nothing lies below a key. -/
theorem updateFrom_of_names {place : Place} (hplace : place ∈ tree.places .names) (trail : Path)
    (step : Step) (rest : Path) : updateFrom change trail (step :: rest) place.value = .ok none := by
  cases tree with
  | object entries =>
      obtain ⟨⟨entry, position⟩, -, rfl⟩ := List.mem_map.mp hplace
      rfl
  | _ => exact absurd hplace List.not_mem_nil

def updatePlace (change : Path → Json → Except Fault (Option Json)) (trail rest : Path) (tree : Json)
    (changed : Option Json) (place : Place) : Except Fault (Option Json) :=
  match updateFrom change (trail.child place.step) rest place.value with
  | .error fault => .error fault
  | .ok none => .ok changed
  | .ok (some new) =>
    (fill place.slot (trail.child place.step) new (changed.getD tree)).map some

theorem updateFrom_cons (change : Path → Json → Except Fault (Option Json)) (trail : Path) (step : Step)
    (rest : Path) (tree : Json) :
    updateFrom change trail (step :: rest) tree =
      (tree.places step).foldlM (updatePlace change trail rest tree) none := rfl

/-- **A walk depends on the change at its places** and on nothing else of it. -/
theorem updateFrom_congr {change' : Path → Json → Except Fault (Option Json)} {trail path : Path}
    (hchange : ∀ place ∈ tree.locateFrom trail path, change place.1 place.2 = change' place.1 place.2) :
    updateFrom change trail path tree = updateFrom change' trail path tree := by
  induction path generalizing trail tree with
  | nil => exact hchange (trail, tree) (List.mem_singleton_self _)
  | cons step rest ih =>
      rw [updateFrom_cons, updateFrom_cons]
      refine except_foldlM_congr (fun place hplace changed => ?_) none
      have hbelow : updateFrom change (trail.child place.step) rest place.value =
          updateFrom change' (trail.child place.step) rest place.value :=
        ih fun below hmem => hchange below (List.mem_flatMap.mpr ⟨place, hplace, hmem⟩)
      rw [updatePlace, updatePlace, hbelow]

/-- What a path finds at or below keys are the keys themselves. -/
theorem kind_of_mem_locateFrom_names {trail path : Path} (hnames : Step.names ∈ path)
    {place : Path × Json} (hmem : place ∈ tree.locateFrom trail path) : place.2.kind = .string := by
  induction path generalizing trail tree with
  | nil => cases hnames
  | cons step rest ih =>
      obtain ⟨first, hfirst, hbelow⟩ := List.mem_flatMap.mp hmem
      rcases List.mem_cons.mp hnames with rfl | hnames
      · cases tree with
        | object entries =>
            obtain ⟨⟨entry, position⟩, -, rfl⟩ := List.mem_map.mp hfirst
            -- a string has no children
            cases rest with
            | nil =>
                rw [List.mem_singleton.mp hbelow]
                rfl
            | cons next rest => cases hbelow
        | _ => cases hfirst
      · exact ih hnames hbelow

def KeepsKind (tree : Json) (changed : Option Json) : Prop := (changed.getD tree).kind = tree.kind

theorem reports_updatePlace {trail rest : Path} {step : Step} {place : Place}
    (hplace : place ∈ tree.places step) {changed : Option Json} (hchanged : KeepsKind tree changed)
    (hbelow : Reports ((place.value.locateFrom (trail.child place.step) rest).findSome?
      (faultAt change rest)) (fun _ => True) (updateFrom change (trail.child place.step) rest place.value)) :
    Reports ((place.value.locateFrom (trail.child place.step) rest).findSome?
        (faultAt change (step :: rest)))
      (KeepsKind tree) (updatePlace change trail rest tree changed place) := by
  have hfill : ∀ new, Reports _ (KeepsKind tree)
      ((fill place.slot (trail.child place.step) new (changed.getD tree)).map some) := fun new =>
    (reports_fill hplace hchanged (trail.child place.step) new).map fun _ hfilled => hfilled
  unfold updatePlace
  cases rest with
  | nil =>
      rw [locateFrom, List.findSome?_singleton, faultAt, updateFrom]
      cases change (trail.child place.step) place.value with
      | error fault => rfl
      | ok after =>
          cases after with
          | none => exact ⟨rfl, hchanged⟩
          | some new => simpa using hfill new
  | cons next rest =>
      rw [faultAt_cons_cons]
      cases hresult : updateFrom change (trail.child place.step) (next :: rest) place.value with
      | error fault =>
          rw [hresult] at hbelow
          exact hbelow
      | ok after =>
          rw [hresult] at hbelow
          rw [hbelow.1]
          cases after with
          | none => exact ⟨rfl, hchanged⟩
          | some new =>
              have hstep : step ≠ .names := by
                rintro rfl
                cases (updateFrom_of_names hplace _ next rest).symm.trans hresult
              simpa [hstep] using hfill new

/-- **A walk fails at the first place that has a fault**, and with this fault. -/
theorem reports_updateFrom (change : Path → Json → Except Fault (Option Json)) (trail path : Path)
    (tree : Json) :
    Reports ((tree.locateFrom trail path).findSome? (faultAt change path)) (fun _ => True)
      (updateFrom change trail path tree) := by
  induction path generalizing trail tree with
  | nil =>
      rw [locateFrom, updateFrom, List.findSome?_singleton, faultAt]
      cases change trail tree with
      | error fault => rfl
      | ok after => cases after <;> exact ⟨rfl, trivial⟩
  | cons step rest ih =>
      rw [locateFrom, findSome?_flatMap, updateFrom_cons]
      have hstart : KeepsKind tree none := rfl
      refine Reports.mono (Reports.foldlM (fun place hplace changed hchanged => ?_) hstart)
        fun _ _ => trivial
      exact reports_updatePlace hplace hchanged (ih (trail.child place.step) place.value)

theorem updateFrom_eq_error_iff {trail path : Path} {fault : Fault} :
    updateFrom change trail path tree = .error fault ↔
      (tree.locateFrom trail path).findSome? (faultAt change path) = some fault :=
  (reports_updateFrom change trail path tree).eq_error_iff fault

theorem foldlM_updatePlace_eq_ok_none_iff {trail rest : Path} {places : List Place}
    {changed : Option Json} :
    places.foldlM (updatePlace change trail rest tree) changed = .ok none ↔
      changed = none ∧ ∀ place ∈ places,
        updateFrom change (trail.child place.step) rest place.value = .ok none := by
  induction places generalizing changed with
  | nil =>
      rw [and_iff_left (List.forall_mem_nil _)]
      exact ⟨Except.ok.inj, congrArg Except.ok⟩
  | cons place places ih =>
      rw [List.foldlM_cons, List.forall_mem_cons, updatePlace]
      rcases updateFrom change (trail.child place.step) rest place.value with fault | new | new
      · exact iff_of_false nofun fun hnone => nomatch hnone.2.1
      · rw [and_iff_right rfl]
        exact ih
      · refine iff_of_false (fun hnone => ?_) fun hnone => nomatch hnone.2.1
        -- a new container is never given up
        obtain ⟨filled, hfilled, hrest⟩ := except_bind_eq_ok hnone
        obtain ⟨_, -, rfl⟩ := except_map_eq_ok hfilled
        exact Option.some_ne_none _ (ih.mp hrest).1

/-- There is no new tree if and only if no place gets a new value. -/
theorem updateFrom_eq_ok_none_iff {trail path : Path} :
    updateFrom change trail path tree = .ok none ↔
      ∀ place ∈ tree.locateFrom trail path, change place.1 place.2 = .ok none := by
  induction path generalizing trail tree with
  | nil => rw [locateFrom, updateFrom, List.forall_mem_singleton]
  | cons step rest ih =>
      rw [updateFrom_cons, foldlM_updatePlace_eq_ok_none_iff, and_iff_right rfl, locateFrom,
        List.forall_mem_flatMap]
      exact forall₂_congr fun place _ => ih

theorem updateFrom_of_unreached {trail path : Path} (hplaces : tree.locateFrom trail path = []) :
    updateFrom change trail path tree = .ok none := by
  rw [updateFrom_eq_ok_none_iff, hplaces]
  exact List.forall_mem_nil _

/-- A walk that has a result has one at every place. -/
theorem exists_change_of_updateFrom {trail path : Path} {after : Option Json}
    (hafter : updateFrom change trail path tree = .ok after) {place : Path × Json}
    (hmem : place ∈ tree.locateFrom trail path) : ∃ result, change place.1 place.2 = .ok result := by
  have hreports := reports_updateFrom change trail path tree
  rw [hafter] at hreports
  have hfault := List.findSome?_eq_none_iff.mp hreports.1 place hmem
  cases hresult : change place.1 place.2 with
  | ok result => exact ⟨result, rfl⟩
  | error fault =>
      rw [faultAt, hresult] at hfault
      cases hfault

end

end Json

end JsonEdit
