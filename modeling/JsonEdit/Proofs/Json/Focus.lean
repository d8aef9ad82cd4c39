import JsonEdit.Json.Locate
import JsonEdit.Proofs.Json.Entries

/-!
# Paths of single steps

A step that is no wildcard leads to at most one child of a container: to the value of the first entry of
its key, or to the element at its position. So a path of such steps leads to one value or to none, and a
change along it is the change of that value, put back where it was found.

Reading and putting back obey the laws of a lens. What is put in is read again, to put back what is read
changes nothing, and of two values put in at one place the last one stays. Two concrete paths that part
do not get in each other's way.
-/

namespace JsonEdit

namespace Entries

variable {α : Type} {key other : String} {value : α} {entries : Entries α}

theorem replace_of_find? (hfound : entries.find? key = some value) :
    entries.replace key value = entries := by
  induction entries with
  | nil => rfl
  | cons entry rest ih =>
      rw [find?_cons] at hfound
      unfold replace
      split
      · rename_i hkey
        rw [if_pos hkey] at hfound
        cases hfound
        rfl
      · rename_i hkey
        rw [if_neg hkey] at hfound
        rw [ih hfound]

theorem replace_replace (key : String) (first second : α) (entries : Entries α) :
    (entries.replace key first).replace key second = entries.replace key second := by
  induction entries with
  | nil => rfl
  | cons entry rest ih =>
      by_cases hkey : entry.1 = key
      · simp [replace, hkey]
      · simp [replace, hkey, ih]

theorem replace_comm (hne : key ≠ other) (first second : α) (entries : Entries α) :
    (entries.replace key first).replace other second =
      (entries.replace other second).replace key first := by
  induction entries with
  | nil => rfl
  | cons entry rest ih =>
      by_cases hkey : entry.1 = key
      · have hother : entry.1 ≠ other := fun heq => hne (hkey.symm.trans heq)
        simp [replace, hkey, hne]
      · by_cases hother : entry.1 = other
        · simp [replace, hother, hne.symm]
        · simp [replace, hkey, hother, ih]

/-- The first entry of a key, by its position. -/
theorem modify_findIdx (key : String) (value : α) (entries : Entries α) :
    entries.modify (entries.findIdx fun entry => entry.1 = key) (fun entry => (entry.1, value)) =
      entries.replace key value := by
  induction entries with
  | nil => rfl
  | cons entry rest ih =>
      by_cases hkey : entry.1 = key
      · simp [List.findIdx_cons, replace, hkey]
      · simp [List.findIdx_cons, replace, hkey, ih]

end Entries

/-! ### Concrete paths -/

namespace Step

def isConcrete : Step → Bool
  | .field _ | .index _ => true
  | _ => false

def concrete : Step → Step
  | .key text => .field text
  | step => step

theorem isWildcard_of_isConcrete {step : Step} (hconcrete : step.isConcrete) :
    step.isWildcard = false := by
  cases step <;> first | rfl | cases hconcrete

theorem eq_field_of_entryKey? {step : Step} (hconcrete : step.isConcrete) {key : String}
    (hkey : step.entryKey? = some key) : step = .field key := by
  cases step with
  | field name => exact congrArg Step.field (Option.some.inj hkey)
  | key text => cases hconcrete
  | _ => cases hkey

theorem eq_index_of_position? {step : Step} {position : Nat}
    (hposition : step.position? = some position) : step = .index position := by
  cases step with
  | index other => exact congrArg Step.index (Option.some.inj hposition)
  | _ => cases hposition

theorem entryKey_ne {step other : Step} {key key' : String} (hstep : step.isConcrete)
    (hother : other.isConcrete) (hne : step ≠ other) (hkey : step.entryKey? = some key)
    (hkey' : other.entryKey? = some key') : key ≠ key' := by
  rintro rfl
  exact hne ((eq_field_of_entryKey? hstep hkey).trans (eq_field_of_entryKey? hother hkey').symm)

theorem position_ne {step other : Step} {position position' : Nat} (hne : step ≠ other)
    (hposition : step.position? = some position) (hposition' : other.position? = some position') :
    position ≠ position' := by
  rintro rfl
  exact hne ((eq_index_of_position? hposition).trans (eq_index_of_position? hposition').symm)

theorem concrete_of_isConcrete {step : Step} (hconcrete : step.isConcrete) : step.concrete = step := by
  cases step <;> first | rfl | cases hconcrete

end Step

namespace Path

/-- The path has fields and positions only, as the paths of places have. -/
def Concrete (path : Path) : Prop := ∀ step ∈ path, step.isConcrete

instance : DecidablePred Concrete := fun path =>
  inferInstanceAs (Decidable (∀ step ∈ path, step.isConcrete))

variable {path : Path}

theorem concrete_cons {step : Step} {rest : Path} :
    Concrete (step :: rest) ↔ step.isConcrete ∧ rest.Concrete := List.forall_mem_cons

theorem Concrete.hasWildcards (hconcrete : path.Concrete) : path.hasWildcards = false := by
  rw [Path.hasWildcards, List.any_eq_false]
  intro step hstep
  rw [Step.isWildcard_of_isConcrete (hconcrete step hstep)]
  exact Bool.false_ne_true

theorem Concrete.names_notMem (hconcrete : path.Concrete) : Step.names ∉ path := by
  intro hmem
  cases hconcrete .names hmem

theorem splitLast?_eq_some_iff {parent : Path} {step : Step} :
    path.splitLast? = some (parent, step) ↔ path = parent ++ [step] := by
  unfold splitLast?
  constructor
  · intro hsplit
    split at hsplit
    · cases hsplit
    · rename_i hlast
      cases hsplit
      exact (List.dropLast_append_getLast? step hlast).symm
  · rintro rfl
    rw [List.getLast?_append, List.getLast?_singleton, Option.some_or]
    dsimp only
    rw [List.dropLast_concat]

theorem splitLast?_child (parent : Path) (step : Step) :
    (parent.child step).splitLast? = some (parent, step) :=
  splitLast?_eq_some_iff.mpr rfl

theorem Concrete.map_concrete (hconcrete : path.Concrete) : path.map Step.concrete = path :=
  map_eq_self fun step hstep => Step.concrete_of_isConcrete (hconcrete step hstep)

end Path

namespace Json

/-! ### Single steps -/

theorem filterMap_zipIdx_first (name : String) (place : Nat → Json → Place) (entries : Entries Json)
    (start : Nat) :
    (entries.zipIdx start).filterMap (fun item =>
        if item.1.1 = name ∧ start + entries.findIdx (fun entry => entry.1 = name) = item.2 then
          some (place item.2 item.1.2)
        else none) =
      ((entries.find? name).map
        (place (start + entries.findIdx fun entry => entry.1 = name))).toList := by
  induction entries generalizing start with
  | nil => rfl
  | cons entry rest ih =>
      rw [List.zipIdx_cons, List.findIdx_cons, Entries.find?_cons]
      by_cases hname : entry.1 = name
      · -- the positions of the other entries are larger
        have hlater : (rest.zipIdx (start + 1)).filterMap (fun item =>
            if item.1.1 = name ∧ start = item.2 then some (place item.2 item.1.2) else none) = [] := by
          refine List.filterMap_eq_nil_iff.mpr fun item hitem => if_neg ?_
          have hlt := List.le_snd_of_mem_zipIdx hitem
          omega
        simp [hname, hlater]
      · have hrest := ih (start + 1)
        rw [Nat.add_assoc start 1, Nat.add_comm 1] at hrest
        simpa [hname] using hrest

/-- A step with a key leads to its first entry. -/
theorem valuePlaces_first (name : String) (entries : Entries Json) :
    valuePlaces (fun position key => key = name && isFirstEntry entries position key) entries =
      ((entries.find? name).map fun value =>
        ⟨.value (entries.findIdx fun entry => entry.1 = name), .field name, value⟩).toList := by
  have hfirst := filterMap_zipIdx_first name
    (fun position value => ⟨.value position, .field name, value⟩) entries 0
  simp only [Nat.zero_add] at hfirst
  rw [← hfirst, valuePlaces]
  refine List.filterMap_congr fun item _ => ?_
  obtain ⟨⟨key, value⟩, position⟩ := item
  by_cases hname : key = name
  · subst hname
    simp [isFirstEntry]
  · simp [hname]

theorem fill_first (name : String) (path : Path) (new : Json) (entries : Entries Json) :
    fill (.value (entries.findIdx fun entry => entry.1 = name)) path new (.object entries) =
      .ok (.object (entries.replace name new)) := by
  rw [fill, ← Entries.modify_findIdx]

def child? (tree : Json) (step : Step) : Option Json :=
  match tree with
  | .object entries => step.entryKey?.bind (Entries.find? · entries)
  | .array items => step.position?.bind (items[·]?)
  | _ => none

def withChild (tree : Json) (step : Step) (new : Json) : Json :=
  match tree, step.entryKey?, step.position? with
  | .object entries, some key, _ => .object (Entries.replace key new entries)
  | .array items, _, some position => .array (items.set position new)
  | _, _, _ => tree

/-- The places of a single step: at most one, and any value can be put there. -/
theorem exists_slot {step : Step} (hsingle : step.isWildcard = false) (tree : Json) :
    ∃ slot, tree.places step =
        ((tree.child? step).map fun value => ⟨slot, step.concrete, value⟩).toList ∧
      ∀ path new, fill slot path new tree = .ok (tree.withChild step new) := by
  cases step with
  | field name =>
      cases tree with
      | object entries => exact ⟨_, valuePlaces_first name entries, fun _ _ => fill_first name _ _ _⟩
      | _ => exact ⟨.value 0, rfl, fun _ _ => rfl⟩
  | key text =>
      cases tree with
      | object entries => exact ⟨_, valuePlaces_first text entries, fun _ _ => fill_first text _ _ _⟩
      | _ => exact ⟨.value 0, rfl, fun _ _ => rfl⟩
  | index position =>
      cases tree with
      | array items => exact ⟨.element position, rfl, fun _ _ => rfl⟩
      | _ => exact ⟨.element 0, rfl, fun _ _ => rfl⟩
  | indices | elements | values | names | keys => cases hsingle

section Child

variable {tree child : Json} {step other : Step}

theorem child?_withChild (hchild : tree.child? step = some child) (new : Json) :
    (tree.withChild step new).child? step = some new := by
  cases tree with
  | object entries =>
      obtain ⟨key, hkey, hfound⟩ := Option.bind_eq_some_iff.mp hchild
      have hhas : Entries.has key entries := Entries.has_iff.mpr ⟨child, hfound⟩
      simp [withChild, child?, hkey, Entries.find?_replace, hhas]
  | array items =>
      obtain ⟨position, hposition, hitem⟩ := Option.bind_eq_some_iff.mp hchild
      obtain ⟨hlt, -⟩ := List.getElem?_eq_some_iff.mp hitem
      simp [withChild, child?, hposition, hlt]
  | _ => cases hchild

theorem child?_withChild_of_ne (hstep : step.isConcrete) (hother : other.isConcrete)
    (hne : step ≠ other) (new : Json) :
    (tree.withChild step new).child? other = tree.child? other := by
  cases tree with
  | object entries =>
      cases hkey : step.entryKey? with
      | none => simp only [withChild, hkey]
      | some key =>
          have hreplace : ∀ key' ∈ other.entryKey?,
              Entries.find? key' (Entries.replace key new entries) = Entries.find? key' entries := by
            intro key' hkey'
            have hkeys := Step.entryKey_ne hstep hother hne hkey hkey'
            rw [Entries.find?_replace, if_neg fun hsame => hkeys hsame.1.symm]
          simp only [withChild, hkey, child?]
          cases hother : other.entryKey? with
          | none => rfl
          | some key' => exact hreplace key' hother
  | array items =>
      cases hposition : step.position? with
      | none => simp only [withChild, hposition]
      | some position =>
          simp only [withChild, hposition, child?]
          cases hother' : other.position? with
          | none => rfl
          | some position' =>
              have hpositions := Step.position_ne hne hposition hother'
              exact List.getElem?_set_ne hpositions
  | _ => rfl

theorem withChild_of_child? (hchild : tree.child? step = some child) :
    tree.withChild step child = tree := by
  cases tree with
  | object entries =>
      obtain ⟨key, hkey, hfound⟩ := Option.bind_eq_some_iff.mp hchild
      simp only [withChild, hkey, Entries.replace_of_find? hfound]
  | array items =>
      obtain ⟨position, hposition, hitem⟩ := Option.bind_eq_some_iff.mp hchild
      obtain ⟨hlt, rfl⟩ := List.getElem?_eq_some_iff.mp hitem
      simp only [withChild, hposition, List.set_getElem_self hlt]
  | _ => cases hchild

theorem withChild_withChild (tree : Json) (step : Step) (first second : Json) :
    (tree.withChild step first).withChild step second = tree.withChild step second := by
  cases tree with
  | object entries =>
      cases hkey : step.entryKey? with
      | none => simp only [withChild, hkey]
      | some key => simp only [withChild, hkey, Entries.replace_replace]
  | array items =>
      cases hposition : step.position? with
      | none => simp only [withChild, hposition]
      | some position => simp only [withChild, hposition, List.set_set]
  | _ => rfl

theorem withChild_comm (hstep : step.isConcrete) (hother : other.isConcrete) (hne : step ≠ other)
    (tree first second : Json) :
    (tree.withChild step first).withChild other second =
      (tree.withChild other second).withChild step first := by
  cases tree with
  | object entries =>
      cases hkey : step.entryKey? with
      | none => cases hother : other.entryKey? <;> simp only [withChild, hkey, hother]
      | some key =>
          cases hkey' : other.entryKey? with
          | none => simp only [withChild, hkey, hkey']
          | some key' =>
              have hkeys := Step.entryKey_ne hstep hother hne hkey hkey'
              simp only [withChild, hkey, hkey', Entries.replace_comm hkeys]
  | array items =>
      cases hposition : step.position? with
      | none => cases hother : other.position? <;> simp only [withChild, hposition, hother]
      | some position =>
          cases hposition' : other.position? with
          | none => simp only [withChild, hposition, hposition']
          | some position' =>
              have hpositions := Step.position_ne hne hposition hposition'
              simp only [withChild, hposition, hposition', List.set_comm _ _ hpositions]
  | _ => rfl

end Child

/-! ### Paths -/

def valueAt? (tree : Json) : Path → Option Json
  | [] => some tree
  | step :: rest => (tree.child? step).bind (valueAt? · rest)

def withValueAt (tree : Json) : Path → Json → Json
  | [], new => new
  | step :: rest, new =>
    match tree.child? step with
    | none => tree
    | some child => tree.withChild step (withValueAt child rest new)

section Path

variable {tree value : Json} {path other : Path}

theorem valueAt?_child (tree : Json) (path : Path) (step : Step) :
    tree.valueAt? (path.child step) = (tree.valueAt? path).bind (·.child? step) := by
  induction path generalizing tree with
  | nil => exact Option.bind_fun_some _
  | cons first path ih =>
      rw [Path.child, List.cons_append, valueAt?, valueAt?, Option.bind_assoc]
      exact congrArg _ (funext ih)

/-- Wildcards lead to no single value. -/
theorem hasWildcards_of_valueAt? (hvalue : tree.valueAt? path = some value) :
    path.hasWildcards = false := by
  induction path generalizing tree with
  | nil => rfl
  | cons step path ih =>
      obtain ⟨child, hchild, hbelow⟩ := Option.bind_eq_some_iff.mp hvalue
      have hstep : step.isWildcard = false := by
        cases step with
        | field | index | key => rfl
        | _ => cases tree <;> cases hchild
      rw [Path.hasWildcards, List.any_cons, hstep, Bool.false_or]
      exact ih hbelow

theorem withValueAt_of_none {step : Step} (hchild : tree.child? step = none) (rest : Path) (new : Json) :
    tree.withValueAt (step :: rest) new = tree := by
  rw [withValueAt, hchild]

theorem withValueAt_of_some {step : Step} {child : Json} (hchild : tree.child? step = some child)
    (rest : Path) (new : Json) :
    tree.withValueAt (step :: rest) new = tree.withChild step (child.withValueAt rest new) := by
  rw [withValueAt, hchild]

theorem valueAt?_withValueAt (hvalue : tree.valueAt? path = some value) (new : Json) :
    (tree.withValueAt path new).valueAt? path = some new := by
  induction path generalizing tree with
  | nil => rfl
  | cons step path ih =>
      obtain ⟨child, hchild, hbelow⟩ := Option.bind_eq_some_iff.mp hvalue
      rw [withValueAt_of_some hchild, valueAt?, child?_withChild hchild, Option.bind_some, ih hbelow]

theorem withValueAt_of_valueAt? (hvalue : tree.valueAt? path = some value) :
    tree.withValueAt path value = tree := by
  induction path generalizing tree with
  | nil =>
      cases hvalue
      rfl
  | cons step path ih =>
      obtain ⟨child, hchild, hbelow⟩ := Option.bind_eq_some_iff.mp hvalue
      rw [withValueAt_of_some hchild, ih hbelow, withChild_of_child? hchild]

/-- Where the path leads nowhere nothing is put in. -/
theorem withValueAt_of_unresolved (hvalue : tree.valueAt? path = none) (new : Json) :
    tree.withValueAt path new = tree := by
  induction path generalizing tree with
  | nil => cases hvalue
  | cons step path ih =>
      cases hchild : tree.child? step with
      | none => exact withValueAt_of_none hchild path new
      | some child =>
          rw [valueAt?, hchild] at hvalue
          rw [withValueAt_of_some hchild, ih hvalue, withChild_of_child? hchild]

theorem withValueAt_withValueAt (hvalue : tree.valueAt? path = some value) (first second : Json) :
    (tree.withValueAt path first).withValueAt path second = tree.withValueAt path second := by
  induction path generalizing tree with
  | nil => rfl
  | cons step path ih =>
      obtain ⟨child, hchild, hbelow⟩ := Option.bind_eq_some_iff.mp hvalue
      rw [withValueAt_of_some hchild, withValueAt_of_some hchild,
        withValueAt_of_some (child?_withChild hchild _), ih hbelow, withChild_withChild]

/-! ### Following a path of single steps -/

theorem locateFrom_cons_of_single {step : Step} (hsingle : step.isWildcard = false)
    (trail rest : Path) (tree : Json) :
    locateFrom trail (step :: rest) tree =
      (tree.child? step).toList.flatMap (locateFrom (trail.child step.concrete) rest) := by
  obtain ⟨slot, hplaces, -⟩ := exists_slot hsingle tree
  rw [locateFrom, hplaces]
  cases tree.child? step <;> rfl

theorem updateFrom_cons_of_single {step : Step} (hsingle : step.isWildcard = false)
    (change : Path → Json → Except Fault (Option Json)) (trail rest : Path) (tree : Json) :
    updateFrom change trail (step :: rest) tree =
      match tree.child? step with
      | none => .ok none
      | some child =>
        (updateFrom change (trail.child step.concrete) rest child).map (·.map (tree.withChild step)) := by
  obtain ⟨slot, hplaces, hfill⟩ := exists_slot hsingle tree
  rw [updateFrom, hplaces]
  cases tree.child? step with
  | none => rfl
  | some child =>
      rw [Option.map_some, Option.toList_some, List.foldlM_cons]
      simp only [Option.getD_none, hfill]
      rcases updateFrom change (trail.child step.concrete) rest child with fault | after | after <;> rfl

/-- A path of single steps leads to the one value that is found along it. -/
theorem locateFrom_of_single (hsingle : path.hasWildcards = false) (trail : Path) (tree : Json) :
    locateFrom trail path tree =
      ((tree.valueAt? path).map fun value => (trail ++ path.map Step.concrete, value)).toList := by
  induction path generalizing trail tree with
  | nil => simp [locateFrom, valueAt?]
  | cons step path ih =>
      rw [Path.hasWildcards, List.any_cons, Bool.or_eq_false_iff] at hsingle
      rw [locateFrom_cons_of_single hsingle.1, valueAt?]
      cases tree.child? step with
      | none => rfl
      | some child => simpa [Path.child] using ih hsingle.2 (trail.child step.concrete) child

/-- From the places of the first path the second one is followed. -/
theorem locateFrom_append (trail path rest : Path) (tree : Json) :
    tree.locateFrom trail (path ++ rest) =
      (tree.locateFrom trail path).flatMap fun place => place.2.locateFrom place.1 rest := by
  induction path generalizing trail tree with
  | nil => rw [List.nil_append, locateFrom, List.flatMap_singleton]
  | cons step path ih =>
      rw [List.cons_append, locateFrom, locateFrom, List.flatMap_assoc]
      refine List.flatMap_congr fun place _ => ?_
      exact ih (trail.child place.step) place.value

theorem locateFrom_append_of_single (hsingle : path.hasWildcards = false) (trail rest : Path)
    (tree : Json) :
    locateFrom trail (path ++ rest) tree =
      (tree.valueAt? path).toList.flatMap (locateFrom (trail ++ path.map Step.concrete) rest) := by
  rw [locateFrom_append, locateFrom_of_single hsingle]
  cases tree.valueAt? path <;> rfl

/-- **A change behind a path of single steps** is a change in the value that the path leads to. -/
theorem updateFrom_append_of_single (hsingle : path.hasWildcards = false)
    (change : Path → Json → Except Fault (Option Json)) (trail rest : Path) (tree : Json) :
    updateFrom change trail (path ++ rest) tree =
      match tree.valueAt? path with
      | none => .ok none
      | some value =>
        (updateFrom change (trail ++ path.map Step.concrete) rest value).map
          (·.map (tree.withValueAt path)) := by
  induction path generalizing trail tree with
  | nil =>
      simp only [List.nil_append, valueAt?, List.map_nil, List.append_nil]
      rcases updateFrom change trail rest tree with fault | after | after <;> rfl
  | cons step path ih =>
      rw [Path.hasWildcards, List.any_cons, Bool.or_eq_false_iff] at hsingle
      rw [List.cons_append, updateFrom_cons_of_single hsingle.1, valueAt?]
      cases hchild : tree.child? step with
      | none => rfl
      | some child =>
          have hput : tree.withValueAt (step :: path) =
              fun new => tree.withChild step (child.withValueAt path new) := by
            funext new
            exact withValueAt_of_some hchild path new
          have htrail : trail.child step.concrete ++ path.map Step.concrete =
              trail ++ (step :: path).map Step.concrete := by
            simp [Path.child]
          simp only [Option.bind_some, ih hsingle.2, hput, htrail]
          cases child.valueAt? path with
          | none => rfl
          | some value =>
              dsimp only
              rcases updateFrom change (trail ++ (step :: path).map Step.concrete) rest value with
                fault | after | after <;> rfl

/-- A path of single steps reads the one value it leads to, if there is one. -/
theorem get_of_single (hsingle : path.hasWildcards = false) (tree : Json) :
    tree.get path = (tree.valueAt? path).toList := by
  rw [get, locate, locateFrom_of_single hsingle]
  cases tree.valueAt? path <;> rfl

theorem updateFrom_of_single (hsingle : path.hasWildcards = false)
    (change : Path → Json → Except Fault (Option Json)) (trail : Path) (tree : Json) :
    updateFrom change trail path tree =
      match tree.valueAt? path with
      | none => .ok none
      | some value =>
        (change (trail ++ path.map Step.concrete) value).map (·.map (tree.withValueAt path)) := by
  have happend := updateFrom_append_of_single hsingle change trail [] tree
  rwa [List.append_nil] at happend

/-! ### Paths that part -/

/-- The paths part at some step: neither leads through the place of the other. -/
def Parts (path other : Path) : Prop := ¬path <+: other ∧ ¬other <+: path

theorem parts_cons {step step' : Step} {rest rest' : Path} :
    Parts (step :: rest) (step' :: rest') ↔ (step = step' → Parts rest rest') := by
  simp only [Parts, List.cons_prefix_cons]
  by_cases hstep : step = step'
  · simp [hstep]
  · simp [hstep, Ne.symm hstep]

theorem Parts.exists_cons (hparts : Parts path other) :
    ∃ step rest step' rest', path = step :: rest ∧ other = step' :: rest' := by
  obtain ⟨hpath, hother⟩ := hparts
  cases path with
  | nil => exact absurd List.nil_prefix hpath
  | cons step rest =>
      cases other with
      | nil => exact absurd List.nil_prefix hother
      | cons step' rest' => exact ⟨step, rest, step', rest', rfl, rfl⟩

/-- What is put in below one child is not seen from another one. -/
theorem child?_withValueAt_of_ne {step step' : Step} (hstep : step.isConcrete)
    (hstep' : step'.isConcrete) (hne : step ≠ step') (tree : Json) (rest : Path) (new : Json) :
    (tree.withValueAt (step :: rest) new).child? step' = tree.child? step' := by
  rw [withValueAt]
  split
  · rfl
  · exact child?_withChild_of_ne hstep hstep' hne _

theorem valueAt?_withValueAt_of_parts (hpath : path.Concrete) (hother : other.Concrete)
    (hparts : Parts path other) (new : Json) :
    (tree.withValueAt path new).valueAt? other = tree.valueAt? other := by
  induction path generalizing other tree with
  | nil => exact absurd List.nil_prefix hparts.1
  | cons step rest ih =>
      obtain ⟨_, _, step', rest', ⟨⟩, rfl⟩ := hparts.exists_cons
      obtain ⟨hstep, hrest⟩ := Path.concrete_cons.mp hpath
      obtain ⟨hstep', hrest'⟩ := Path.concrete_cons.mp hother
      by_cases hsame : step = step'
      · subst hsame
        cases hchild : tree.child? step with
        | none => rw [withValueAt_of_none hchild]
        | some child =>
            have hbelow : (child.withValueAt rest new).valueAt? rest' = child.valueAt? rest' :=
              ih hrest hrest' (parts_cons.mp hparts rfl)
            rw [withValueAt_of_some hchild, valueAt?, child?_withChild hchild, Option.bind_some, hbelow,
              valueAt?, hchild, Option.bind_some]
      · rw [valueAt?, child?_withValueAt_of_ne hstep hstep' hsame, valueAt?]

/-- **Values are put in in any order** where the paths part. -/
theorem withValueAt_comm (hpath : path.Concrete) (hother : other.Concrete) (hparts : Parts path other)
    (tree first second : Json) :
    (tree.withValueAt path first).withValueAt other second =
      (tree.withValueAt other second).withValueAt path first := by
  induction path generalizing other tree with
  | nil => exact absurd List.nil_prefix hparts.1
  | cons step rest ih =>
      obtain ⟨_, _, step', rest', ⟨⟩, rfl⟩ := hparts.exists_cons
      obtain ⟨hstep, hrest⟩ := Path.concrete_cons.mp hpath
      obtain ⟨hstep', hrest'⟩ := Path.concrete_cons.mp hother
      by_cases hsame : step = step'
      · subst hsame
        cases hchild : tree.child? step with
        | none =>
            rw [withValueAt_of_none hchild, withValueAt_of_none hchild, withValueAt_of_none hchild]
        | some child =>
            have hbelow := ih hrest hrest' (parts_cons.mp hparts rfl) child
            rw [withValueAt_of_some hchild, withValueAt_of_some (child?_withChild hchild _),
              withValueAt_of_some hchild, withValueAt_of_some (child?_withChild hchild _),
              withChild_withChild, withChild_withChild, hbelow]
      · have hseen := child?_withValueAt_of_ne hstep hstep' hsame tree rest first
        have hseen' := child?_withValueAt_of_ne hstep' hstep (Ne.symm hsame) tree rest' second
        cases hchild : tree.child? step with
        | none => rw [withValueAt_of_none hchild, withValueAt_of_none (hseen'.trans hchild)]
        | some child =>
            cases hchild' : tree.child? step' with
            | none => rw [withValueAt_of_none hchild', withValueAt_of_none (hseen.trans hchild')]
            | some child' =>
                rw [withValueAt_of_some (hseen.trans hchild'), withValueAt_of_some hchild,
                  withValueAt_of_some (hseen'.trans hchild), withValueAt_of_some hchild']
                exact withChild_comm hstep hstep' hsame tree _ _

end Path

end Json

end JsonEdit
