import JsonEdit.Json.Pairs
import JsonEdit.Proofs.Json.DocumentOrder

/-!
# Trees from pairs

To put a value where a path leads is to put a child into a container, at the first step of the path, and
the child is made in the same way by the steps behind it. A place that has no value yet becomes the
container that the step asks for. So what holds of a tree that is built from pairs follows from what one
container says of its children before and after.

The tree that is spelled out is built again, container by container: each child is put at a place that
has no value yet. And a value that was put somewhere stays there until a later path meets its path.
-/

namespace JsonEdit

namespace Entries

variable {α : Type} {key : String} {entries : Entries α}

theorem put_of_find? {value : α} (hfound : entries.find? key = some value) :
    entries.put key value = entries := by
  rw [put, if_pos (has_iff.mpr ⟨value, hfound⟩), replace_of_find? hfound]

theorem replace_concat (hfresh : entries.find? key = none) (first second : α) :
    replace key second (entries ++ [(key, first)]) = entries ++ [(key, second)] := by
  induction entries with
  | nil => exact if_pos rfl
  | cons entry rest ih =>
      rw [find?_cons] at hfresh
      split at hfresh
      · cases hfresh
      · rename_i hkey
        rw [List.cons_append, replace, if_neg hkey, ih hfresh, List.cons_append]

theorem put_put (key : String) (first second : α) (entries : Entries α) :
    (entries.put key first).put key second = entries.put key second := by
  have hhas : (entries.put key first).has key := has_iff.mpr ⟨first, by rw [find?_put, if_pos rfl]⟩
  rw [put, if_pos hhas]
  cases hfound : entries.find? key with
  | none => rw [put_of_find?_eq_none hfound, put_of_find?_eq_none hfound, replace_concat hfound]
  | some value =>
      have hhad : entries.has key := has_iff.mpr ⟨value, hfound⟩
      rw [put, if_pos hhad, replace_replace, put, if_pos hhad]

end Entries

namespace Step

theorem concrete_of_entryKey? {step : Step} {key : String} (hkey : step.entryKey? = some key) :
    step.concrete = .field key := by
  cases step with
  | field name | key text =>
      cases hkey
      rfl
  | _ => cases hkey

end Step

namespace Json

/-! ### One container -/

/-- The child at a step of a place that may have no value yet. -/
def childAt? (target : Option Json) (step : Step) : Option Json := target.bind (child? · step)

/-- The container after a child has been put in at a step. A place without a value becomes the container
that the step asks for, and an array only grows at its end. -/
inductive Grows (target : Option Json) (child : Json) : Step → Json → Prop where
  | entry {step : Step} {key : String} {entries : Entries Json} (hkey : step.entryKey? = some key)
      (htarget : target.getD (.object []) = .object entries) :
      Grows target child step (.object (entries.put key child))
  | item {position : Nat} {items : List Json} (htarget : target.getD (.array []) = .array items)
      (hposition : position < items.length) :
      Grows target child (.index position) (.array (items.set position child))
  | next {items : List Json} (htarget : target.getD (.array []) = .array items) :
      Grows target child (.index items.length) (.array (items ++ [child]))

section Container

variable {target : Option Json} {step : Step} {key : String} {child result : Json} {trail : Path}

theorem entriesAt_eq_ok_iff {entries : Entries Json} :
    entriesAt trail target = .ok entries ↔ target.getD (.object []) = .object entries := by
  rcases target with _ | _ | _ | _ | _ | _ | _ <;> simp [entriesAt]

theorem itemsAt_eq_ok_iff {items : List Json} :
    itemsAt trail target = .ok items ↔ target.getD (.array []) = .array items := by
  rcases target with _ | _ | _ | _ | _ | _ | _ <;> simp [itemsAt]

theorem childAt?_of_entries {key : String} {entries : Entries Json} (hkey : step.entryKey? = some key)
    (htarget : target.getD (.object []) = .object entries) :
    childAt? target step = entries.find? key := by
  cases target with
  | none =>
      cases htarget
      rfl
  | some tree =>
      cases htarget
      rw [childAt?, Option.bind_some, child?, hkey, Option.bind_some]

theorem childAt?_of_items {position : Nat} {items : List Json}
    (htarget : target.getD (.array []) = .array items) :
    childAt? target (.index position) = items[position]? := by
  cases target with
  | none =>
      cases htarget
      rfl
  | some tree =>
      cases htarget
      rfl

theorem putAt_entry (hkey : step.entryKey? = some key) (value : Json) (rest : Path) :
    putAt value trail (step :: rest) target =
      (entriesAt trail target).bind fun entries =>
        (putAt value (trail.child step.concrete) rest (entries.find? key)).map fun child =>
          .object (entries.put key child) := by
  cases step with
  | field name | key text =>
      cases hkey
      rw [putAt]
      rfl
  | _ => cases hkey

theorem putAt_index (value : Json) (position : Nat) (rest : Path) :
    putAt value trail (.index position :: rest) target =
      (itemsAt trail target).bind fun items =>
        if items.length < position then .error ⟨.gapInArray position items.length, trail⟩
        else (putAt value (trail.child (.index position)) rest items[position]?).map fun child =>
          .array (if position = items.length then items ++ [child] else items.set position child) := by
  rw [putAt]
  refine congrArg _ (funext fun items => ?_)
  split <;> rfl

theorem putAt_entry_eq_ok_iff (hkey : step.entryKey? = some key) {value : Json} {rest : Path} :
    putAt value trail (step :: rest) target = .ok result ↔
      ∃ child, putAt value (trail.child step.concrete) rest (childAt? target step) = .ok child ∧
        Grows target child step result := by
  rw [putAt_entry hkey]
  constructor
  · intro hput
    obtain ⟨entries, hentries, hbelow⟩ := except_bind_eq_ok hput
    obtain ⟨child, hchild, rfl⟩ := except_map_eq_ok hbelow
    have htarget := entriesAt_eq_ok_iff.mp hentries
    rw [← childAt?_of_entries hkey htarget] at hchild
    exact ⟨child, hchild, .entry hkey htarget⟩
  · rintro ⟨child, hchild, hgrows⟩
    cases hgrows with
    | entry hkey' htarget =>
        obtain rfl := Option.some.inj (hkey.symm.trans hkey')
        rw [childAt?_of_entries hkey htarget] at hchild
        rw [entriesAt_eq_ok_iff.mpr htarget, Except.bind, hchild, Except.map]
    | item | next => cases hkey

theorem putAt_index_eq_ok_iff {value : Json} {position : Nat} {rest : Path} :
    putAt value trail (.index position :: rest) target = .ok result ↔
      ∃ child, putAt value (trail.child (.index position)) rest (childAt? target (.index position)) =
        .ok child ∧ Grows target child (.index position) result := by
  rw [putAt_index]
  constructor
  · intro hput
    obtain ⟨items, hitems, hbelow⟩ := except_bind_eq_ok hput
    have htarget := itemsAt_eq_ok_iff.mp hitems
    split at hbelow
    · cases hbelow
    · rename_i hle
      obtain ⟨child, hchild, rfl⟩ := except_map_eq_ok hbelow
      rw [← childAt?_of_items htarget] at hchild
      refine ⟨child, hchild, ?_⟩
      split
      · rename_i hposition
        rw [hposition]
        exact .next htarget
      · rename_i hposition
        exact .item htarget (by omega)
  · rintro ⟨child, hchild, hgrows⟩
    cases hgrows with
    | entry hkey => cases hkey
    | item htarget hposition =>
        rw [childAt?_of_items htarget] at hchild
        rw [itemsAt_eq_ok_iff.mpr htarget, Except.bind, if_neg (Nat.not_lt.mpr hposition.le), hchild,
          Except.map, if_neg hposition.ne]
    | next htarget =>
        rw [childAt?_of_items htarget] at hchild
        rw [itemsAt_eq_ok_iff.mpr htarget, Except.bind, if_neg (Nat.lt_irrefl _), hchild, Except.map,
          if_pos rfl]

theorem child?_concrete (tree : Json) (step : Step) : tree.child? step.concrete = tree.child? step := by
  cases step <;> rfl

/-- **One step of putting a value in** makes the child and puts it into the container. -/
theorem putAt_cons_eq_ok_iff {value : Json} {rest : Path} :
    putAt value trail (step :: rest) target = .ok result ↔
      ∃ child, putAt value (trail.child step.concrete) rest (childAt? target step) = .ok child ∧
        Grows target child step result := by
  cases step with
  | field name => exact putAt_entry_eq_ok_iff rfl
  | key text => exact putAt_entry_eq_ok_iff rfl
  | index position => exact putAt_index_eq_ok_iff
  | indices | elements | values | names | keys =>
      refine iff_of_false (fun hput => ?_) fun ⟨child, _, hgrows⟩ => ?_
      · cases hput
      · cases hgrows with
        | entry hkey _ => cases hkey

namespace Grows

theorem isWildcard (hgrows : Grows target child step result) : step.isWildcard = false := by
  cases hgrows with
  | entry hkey _ => cases step <;> first | rfl | cases hkey
  | item | next => rfl

/-- The child is found where it was put. -/
theorem child? (hgrows : Grows target child step result) : result.child? step = some child := by
  cases hgrows with
  | entry hkey htarget => simp only [Json.child?, hkey, Option.bind_some, Entries.find?_put, if_pos]
  | item htarget hposition => exact List.getElem?_set_self hposition
  | next htarget => exact List.getElem?_concat_length

/-- The other children of a container stay. -/
theorem child?_of_ne {tree old : Json} {other : Step} (hgrows : Grows (some tree) child step result)
    (hne : other.concrete ≠ step.concrete) (hold : tree.child? other = some old) :
    result.child? other = some old := by
  cases hgrows with
  | @entry _ key entries hkey htarget =>
      cases htarget
      obtain ⟨key', hkey', hfound⟩ := Option.bind_eq_some_iff.mp hold
      have hkeys : key' ≠ key := by
        rintro rfl
        exact hne ((Step.concrete_of_entryKey? hkey').trans (Step.concrete_of_entryKey? hkey).symm)
      simp only [Json.child?, hkey', Option.bind_some, Entries.find?_put, if_neg hkeys, hfound]
  | item htarget hposition =>
      cases htarget
      obtain ⟨position', hposition', hitem⟩ := Option.bind_eq_some_iff.mp hold
      obtain rfl := Step.eq_index_of_position? hposition'
      have hpositions : _ ≠ position' := fun hsame => hne (congrArg Step.index hsame.symm)
      exact (List.getElem?_set_ne hpositions).trans hitem
  | next htarget =>
      cases htarget
      obtain ⟨position', hposition', hitem⟩ := Option.bind_eq_some_iff.mp hold
      obtain rfl := Step.eq_index_of_position? hposition'
      obtain ⟨hlt, -⟩ := List.getElem?_eq_some_iff.mp hitem
      exact (List.getElem?_append_left hlt).trans hitem

/-- To put the child in that is there already changes nothing. -/
theorem eq_of_childAt? (hgrows : Grows target child step result)
    (hchild : childAt? target step = some child) : target = some result := by
  cases hgrows with
  | entry hkey htarget =>
      rw [childAt?_of_entries hkey htarget] at hchild
      cases target with
      | none =>
          cases htarget
          cases hchild
      | some tree =>
          cases htarget
          rw [Entries.put_of_find? hchild]
  | item htarget hposition =>
      rw [childAt?_of_items htarget] at hchild
      cases target with
      | none =>
          cases htarget
          cases hchild
      | some tree =>
          cases htarget
          obtain ⟨hlt, rfl⟩ := List.getElem?_eq_some_iff.mp hchild
          rw [List.set_getElem_self]
  | next htarget =>
      rw [childAt?_of_items htarget, List.getElem?_eq_none (Nat.le_refl _)] at hchild
      cases hchild

/-- Where one child can be put in, another one can be put in after it, and only the last one stays. -/
theorem exists_first (hgrows : Grows target child step result) (first : Json) :
    ∃ middle, Grows target first step middle ∧ Grows (some middle) child step result := by
  cases hgrows with
  | entry hkey htarget =>
      refine ⟨_, .entry hkey htarget, ?_⟩
      rw [← Entries.put_put _ first child]
      exact .entry hkey rfl
  | @item position items htarget hposition =>
      refine ⟨_, .item htarget hposition, ?_⟩
      have hset : (items.set position first).set position child = items.set position child :=
        List.set_set ..
      rw [← hset]
      exact .item rfl (by rwa [List.length_set])
  | @next items htarget =>
      refine ⟨_, .next htarget, ?_⟩
      have hset : (items ++ [first]).set items.length child = items ++ [child] := by simp
      rw [← hset]
      exact .item rfl (by simp)

end Grows

end Container

/-! ### One pair after the other -/

def putAll (trail : Path) (pairs : List (Path × Json)) (target : Option Json) :
    Except Fault (Option Json) :=
  pairs.foldlM (fun target pair => some <$> putAt pair.2 trail pair.1 target) target

section Pairs

variable {trail : Path} {target result : Option Json} {pairs : List (Path × Json)}

theorem ofPairs_eq (pairs : List (Path × Json)) :
    ofPairs pairs = (putAll Path.root pairs none).map (·.getD .null) := rfl

/-- A list of pairs is put in part by part. -/
theorem putAll_append (front back : List (Path × Json)) :
    putAll trail (front ++ back) target = (putAll trail front target).bind (putAll trail back) :=
  List.foldlM_append

theorem putAll_cons_eq_ok_iff {pair : Path × Json} :
    putAll trail (pair :: pairs) target = .ok result ↔
      ∃ next, putAt pair.2 trail pair.1 target = .ok next ∧ putAll trail pairs (some next) = .ok result := by
  constructor
  · intro hput
    obtain ⟨_, hfirst, hrest⟩ := except_bind_eq_ok hput
    obtain ⟨next, hnext, rfl⟩ := except_map_eq_ok hfirst
    exact ⟨next, hnext, hrest⟩
  · rintro ⟨next, hnext, hrest⟩
    rw [putAll, List.foldlM_cons, hnext]
    exact hrest

/-- A place that has a value keeps having one. -/
theorem exists_of_putAll {tree : Json} (hput : putAll trail pairs (some tree) = .ok result) :
    ∃ value, result = some value := by
  induction pairs generalizing tree with
  | nil =>
      cases hput
      exact ⟨tree, rfl⟩
  | cons pair rest ih =>
      obtain ⟨next, -, hrest⟩ := putAll_cons_eq_ok_iff.mp hput
      exact ih hrest

end Pairs

/-! ### Values that were put in -/

section Stored

variable {value tree old : Json} {trail path other : Path} {target : Option Json} {result : Json}

/-- What is put in is found there. -/
theorem valueAt?_of_putAt (hput : putAt value trail path target = .ok result) :
    path.hasWildcards = false ∧ result.valueAt? path = some value := by
  induction path generalizing trail target result with
  | nil =>
      cases hput
      exact ⟨rfl, rfl⟩
  | cons step rest ih =>
      obtain ⟨child, hbelow, hgrows⟩ := putAt_cons_eq_ok_iff.mp hput
      obtain ⟨hsingle, hvalue⟩ := ih hbelow
      refine ⟨?_, ?_⟩
      · rw [Path.hasWildcards, List.any_cons, hgrows.isWildcard, Bool.false_or]
        exact hsingle
      · rw [valueAt?, hgrows.child?, Option.bind_some, hvalue]

/-- What was put in before stays, where the paths part. -/
theorem valueAt?_of_putAt_of_parts (hput : putAt value trail path (some tree) = .ok result)
    (hparts : Parts (other.map Step.concrete) (path.map Step.concrete))
    (hold : tree.valueAt? other = some old) : result.valueAt? other = some old := by
  induction path generalizing trail other tree result with
  | nil => exact absurd List.nil_prefix hparts.2
  | cons step rest ih =>
      cases other with
      | nil => exact absurd List.nil_prefix hparts.1
      | cons step' rest' =>
          obtain ⟨child, hbelow, hgrows⟩ := putAt_cons_eq_ok_iff.mp hput
          obtain ⟨child', hchild', hold⟩ := Option.bind_eq_some_iff.mp hold
          rw [List.map_cons, List.map_cons, parts_cons] at hparts
          by_cases hsame : step'.concrete = step.concrete
          · rw [← child?_concrete, hsame, child?_concrete] at hchild'
            rw [childAt?, Option.bind_some, hchild'] at hbelow
            have hfound := ih hbelow (hparts hsame) hold
            rw [valueAt?, ← child?_concrete, hsame, child?_concrete, hgrows.child?, Option.bind_some,
              hfound]
          · rw [valueAt?, hgrows.child?_of_ne hsame hchild', Option.bind_some, hold]

/-- What is put in behind paths that part from another path does not touch the value there. -/
theorem valueAt?_of_putAll {pairs : List (Path × Json)}
    (hput : putAll trail pairs (some tree) = .ok (some result))
    (hparts : ∀ pair ∈ pairs, Parts (other.map Step.concrete) (pair.1.map Step.concrete))
    (hold : tree.valueAt? other = some old) : result.valueAt? other = some old := by
  induction pairs generalizing tree with
  | nil =>
      cases hput
      exact hold
  | cons pair rest ih =>
      obtain ⟨hpair, hrest⟩ := List.forall_mem_cons.mp hparts
      obtain ⟨next, hfirst, hlater⟩ := putAll_cons_eq_ok_iff.mp hput
      exact ih hlater hrest (valueAt?_of_putAt_of_parts hfirst hpair hold)

end Stored

/-- **A pair lasts until a later path meets its path.** If a tree is built from pairs, the path of each
pair leads to exactly its value, unless the path of a later pair leads through the same place or to a
place inside it. A key and a field of the same name are the same step. -/
theorem get_ofPairs {before after : List (Path × Json)} {path : Path} {value tree : Json}
    (hbuilt : ofPairs (before ++ (path, value) :: after) = .ok tree)
    (hlater : ∀ later ∈ after, Parts (path.map Step.concrete) (later.1.map Step.concrete)) :
    tree.get path = [value] := by
  rw [ofPairs_eq, putAll_append] at hbuilt
  obtain ⟨_, hall, rfl⟩ := except_map_eq_ok hbuilt
  obtain ⟨target, -, hrest⟩ := except_bind_eq_ok hall
  obtain ⟨next, hput, hrest⟩ := putAll_cons_eq_ok_iff.mp hrest
  obtain ⟨result, rfl⟩ := exists_of_putAll hrest
  obtain ⟨hsingle, hvalue⟩ := valueAt?_of_putAt hput
  rw [Option.getD_some, get_of_single hsingle, valueAt?_of_putAll hrest hlater hvalue,
    Option.toList_some]

/-- The place is made by an earlier pair, and later ones put their values beside it. -/
theorem get_ofPairs_between :
    let before : List (Path × Json) :=
      [([.field "a", .index 0], .bool true), ([.key "b"], .object [("x", .null), ("x", .bool true)]),
        ([.field "a", .index 1, .field "y"], .array [])]
    let path : Path := [.key "a", .index 1, .field "z"]
    let after : List (Path × Json) :=
      [([.field "a", .index 2], .null), ([.field "a", .index 1, .key "y", .index 0], .string "v"),
        ([.field "b", .key "x"], .null)]
    let tree : Json := .object
      [("a", .array [.bool true, .object [("y", .array [.string "v"]), ("z", .string "w")], .null]),
        ("b", .object [("x", .null), ("x", .bool true)])]
    ofPairs (before ++ (path, .string "w") :: after) = .ok tree ∧
      (∀ later ∈ after, Parts (path.map Step.concrete) (later.1.map Step.concrete)) ∧
        tree.get path = [.string "w"] := by
  intro before path after tree
  have hbuilt : ofPairs (before ++ (path, .string "w") :: after) = .ok tree := rfl
  have hlater : ∀ later ∈ after, Parts (path.map Step.concrete) (later.1.map Step.concrete) := by
    simp [after, path, Parts, Step.concrete]
  exact ⟨hbuilt, hlater, get_ofPairs hbuilt hlater⟩

/-! ### A tree that is built again -/

/-- A container grows by children that it does not have yet, one after the other. -/
inductive Extends : Option Json → List (Step × Json) → Option Json → Prop where
  | nil (target : Option Json) : Extends target [] target
  | cons {target result : Option Json} {step : Step} {child next : Json}
      {children : List (Step × Json)} (hfresh : childAt? target step = none)
      (hgrows : Grows target child step next) (hrest : Extends (some next) children result) :
      Extends target ((step, child) :: children) result

/-- The pairs of a tree at a place without a value make the tree. -/
def Rebuilds (tree : Json) : Prop := ∀ trail, putAll trail tree.toPairs none = .ok (some tree)

section Rebuilt

variable {tree child result : Json} {target : Option Json} {step : Step} {trail : Path}

/-- Pairs whose paths begin with one step are put into the child there. -/
theorem putAll_map_cons {pairs : List (Path × Json)}
    (hbelow : putAll (trail.child step.concrete) pairs (childAt? target step) = .ok (some child))
    (hgrows : Grows target child step result) :
    putAll trail (pairs.map fun pair => (step :: pair.1, pair.2)) target = .ok (some result) := by
  induction pairs generalizing target with
  | nil => exact congrArg Except.ok (hgrows.eq_of_childAt? (Except.ok.inj hbelow))
  | cons pair rest ih =>
      obtain ⟨first, hfirst, hrest⟩ := putAll_cons_eq_ok_iff.mp hbelow
      obtain ⟨middle, hmiddle, hlast⟩ := hgrows.exists_first first
      have hslot : childAt? (some middle) step = some first := hmiddle.child?
      rw [← hslot] at hrest
      exact putAll_cons_eq_ok_iff.mpr
        ⟨middle, putAt_cons_eq_ok_iff.mpr ⟨first, hfirst, hmiddle⟩, ih hrest hlast⟩

theorem Extends.putAll {children : List (Step × Json)} {built : Option Json}
    (hextends : Extends target children built) (hrebuilds : ∀ child ∈ children, child.2.Rebuilds) :
    putAll trail (children.flatMap fun child => child.2.toPairs.map fun pair => (child.1 :: pair.1, pair.2))
      target = .ok built := by
  induction hextends with
  | nil => rfl
  | @cons _ _ step _ _ _ hfresh hgrows _ ih =>
      obtain ⟨hfirst, hothers⟩ := List.forall_mem_cons.mp hrebuilds
      have hbelow := hfirst (trail.child step.concrete)
      rw [← hfresh] at hbelow
      rw [List.flatMap_cons, putAll_append, putAll_map_cons hbelow hgrows]
      exact ih hothers

/-- An object grows by the entries behind those that it has. -/
theorem extends_object {seen entries : Entries Json} (hdistinct : Entries.Distinct (seen ++ entries)) :
    Extends (some (.object seen)) (entries.map fun entry => (.field entry.1, entry.2))
      (some (.object (seen ++ entries))) := by
  induction entries generalizing seen with
  | nil =>
      rw [List.append_nil]
      exact .nil _
  | cons entry rest ih =>
      have hfresh : Entries.find? entry.1 seen = none := by
        refine Entries.find?_eq_none_iff.mpr fun other hother => ?_
        exact (List.pairwise_append.mp hdistinct).2.2 other hother entry List.mem_cons_self
      have hgrows : Grows (some (.object seen)) entry.2 (.field entry.1) (.object (seen ++ [entry])) := by
        rw [← Entries.put_of_find?_eq_none hfresh entry.2]
        exact .entry rfl rfl
      rw [List.append_cons] at hdistinct ⊢
      exact .cons hfresh hgrows (ih hdistinct)

/-- An array grows by the elements behind those that it has. -/
theorem extends_array (seen items : List Json) :
    Extends (some (.array seen)) ((items.zipIdx seen.length).map fun item => (.index item.2, item.1))
      (some (.array (seen ++ items))) := by
  induction items generalizing seen with
  | nil =>
      rw [List.append_nil]
      exact .nil _
  | cons item rest ih =>
      have hfresh : childAt? (some (.array seen)) (.index seen.length) = none :=
        List.getElem?_eq_none (Nat.le_refl _)
      have hrest := ih (seen ++ [item])
      rw [List.length_append, List.length_singleton] at hrest
      rw [List.append_cons]
      exact .cons hfresh (.next rfl) hrest

/-- A container that is not empty grows by its children from nothing. -/
theorem extends_children (hdistinct : tree.DistinctKeys) (hinner : tree.isLeaf = false) :
    Extends none tree.children (some tree) := by
  cases tree with
  | array items =>
      cases items with
      | nil => cases hinner
      | cons item rest =>
          have hgrows : Grows none item (.index 0) (.array [item]) := @Grows.next none item [] rfl
          exact .cons rfl hgrows (extends_array [item] rest)
  | object entries =>
      cases entries with
      | nil => cases hinner
      | cons entry rest =>
          have hgrows : Grows none entry.2 (.field entry.1) (.object [entry]) :=
            @Grows.entry none entry.2 (.field entry.1) entry.1 [] rfl rfl
          exact .cons rfl hgrows (extends_object hdistinct)
  | _ => cases hinner

theorem isLeaf_iff_children : tree.isLeaf ↔ tree.children = [] := by
  cases tree with
  | array items => cases items <;> simp [isLeaf, isContainer, isEmptyContainer, children]
  | object entries => cases entries <;> simp [isLeaf, isContainer, isEmptyContainer, children]
  | _ => exact iff_of_true rfl rfl

theorem toPairs_of_isLeaf (hleaf : tree.isLeaf) : tree.toPairs = [(Path.root, tree)] := by
  rw [toPairs, nodes, nodesFrom_parentFirst, isLeaf_iff_children.mp hleaf, List.flatMap_nil]
  exact List.filter_cons_of_pos hleaf

/-- The pairs of a tree that is no leaf are those of its children, one step further. -/
theorem toPairs_of_not_isLeaf (hinner : tree.isLeaf = false) :
    tree.toPairs = tree.children.flatMap fun child =>
      child.2.toPairs.map fun pair => (child.1 :: pair.1, pair.2) := by
  rw [toPairs, nodes, nodesFrom_parentFirst, List.filter_cons_of_neg (by simp [hinner]), List.filter_flatMap]
  refine List.flatMap_congr fun child _ => ?_
  rw [nodesFrom_eq_map, List.filter_map]
  rfl

/-- **A tree without repeated keys is built anew from its pairs.** -/
theorem Keyed.rebuilds (hkeyed : tree.Keyed) : tree.Rebuilds := by
  induction tree using induct_children with
  | htree tree ih =>
      intro trail
      cases hleaf : tree.isLeaf with
      | true =>
          rw [toPairs_of_isLeaf hleaf]
          rfl
      | false =>
          rw [toPairs_of_not_isLeaf hleaf]
          refine (extends_children hkeyed.distinctKeys hleaf).putAll fun child hmem => ?_
          obtain ⟨-, hchild⟩ := (mem_children_iff hkeyed.distinctKeys).mp hmem
          exact ih child hmem (hkeyed.child? hchild)

/-- **A tree is built again from its pairs**, if no object in it repeats a key. -/
theorem ofPairs_toPairs (hkeyed : tree.Keyed) : ofPairs tree.toPairs = .ok tree := by
  rw [ofPairs_eq, hkeyed.rebuilds]
  rfl

/-- Containers inside each other, some of them empty, a null, and a number with a superfluous zero. -/
theorem ofPairs_toPairs_nested :
    let number : Json := .number { whole := 1, fraction := [5, 0] }
    let tree : Json := .object
      [("b", .array [.array [], .array [.null, .object []], number]), ("", .null),
        ("a", .object [("b", .string "")])]
    tree.Keyed ∧
      tree.toPairs = [([.field "b", .index 0], .array []), ([.field "b", .index 1, .index 0], .null),
        ([.field "b", .index 1, .index 1], .object []), ([.field "b", .index 2], number),
        ([.field ""], .null), ([.field "a", .field "b"], .string "")] ∧
      ofPairs tree.toPairs = .ok tree := by
  intro number tree
  have hkeyed : tree.Keyed := by
    simp [tree, number, Keyed, Every, EveryItem, EveryEntry, Entries.Distinct]
  exact ⟨hkeyed, rfl, ofPairs_toPairs hkeyed⟩

end Rebuilt

end Json

end JsonEdit
