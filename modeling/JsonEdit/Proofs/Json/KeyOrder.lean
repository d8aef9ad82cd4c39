import JsonEdit.Json.Reshape
import JsonEdit.Proofs.Json.DocumentOrder
import JsonEdit.Proofs.Json.Renumbered

/-!
# Trees with their keys in order

To sort the keys of a tree is to sort those of its children and then its own. Sorting moves entries and
keeps what every key finds, so the tree stays equal. In a tree without repeated keys whose keys are in order
every entry stands where equality looks for it, so two such trees are equal exactly if they agree position
by position.
-/

namespace JsonEdit.Json

variable {tree other : Json}

/-! ### From the leaves up -/

theorem mapChildren_congr {image image' : Step → Json → Json}
    (himage : ∀ child ∈ tree.children, image child.1 child.2 = image' child.1 child.2) :
    tree.mapChildren image = tree.mapChildren image' := by
  cases tree with
  | array items =>
      rw [mapChildren, mapChildren, List.mapIdx_eq_zipIdx_map, List.mapIdx_eq_zipIdx_map]
      refine congrArg array (List.map_congr_left fun item hitem => ?_)
      exact himage _ (List.mem_map_of_mem hitem)
  | object entries =>
      refine congrArg object (List.map_congr_left fun entry hentry => ?_)
      exact congrArg (Prod.mk entry.1) (himage _ (List.mem_map_of_mem hentry))
  | _ => rfl

theorem transformUpItems_eq_mapIdx (change : Path → Json → Json) (path : Path) (start : Nat)
    (items : List Json) :
    transformUpItems change path start items =
      items.mapIdx fun position item => transformUpFrom change (path.child (.index (start + position))) item := by
  induction items generalizing start with
  | nil => rfl
  | cons item rest ih =>
      rw [transformUpItems, ih, List.mapIdx_cons]
      simp only [Nat.add_zero, Nat.add_assoc, Nat.add_comm 1]

theorem transformUpEntries_eq_map (change : Path → Json → Json) (path : Path) (entries : Entries Json) :
    transformUpEntries change path entries =
      entries.map fun entry => (entry.1, transformUpFrom change (path.child (.field entry.1)) entry.2) := by
  induction entries with
  | nil => rfl
  | cons entry rest ih => rw [transformUpEntries, ih, List.map_cons]

/-- A node is changed after its children. -/
theorem transformUpFrom_eq (change : Path → Json → Json) (path : Path) (tree : Json) :
    transformUpFrom change path tree =
      change path (tree.mapChildren fun step child => transformUpFrom change (path.child step) child) := by
  cases tree with
  | array items =>
      rw [transformUpFrom, transformUpItems_eq_mapIdx, mapChildren]
      simp only [Nat.zero_add]
  | object entries => rw [transformUpFrom, transformUpEntries_eq_map, mapChildren]
  | _ => rfl

/-- A change that does not ask for paths is the same everywhere. -/
theorem transformUpFrom_of_path (change : Json → Json) (path : Path) (tree : Json) :
    transformUpFrom (fun _ => change) path tree = tree.transformUp fun _ => change := by
  induction tree using induct_children generalizing path with
  | htree tree ih =>
      rw [transformUp, transformUpFrom_eq, transformUpFrom_eq]
      refine congrArg change (mapChildren_congr fun child hmem => ?_)
      rw [ih child hmem, ih child hmem]

theorem transformUp_array (change : Json → Json) (items : List Json) :
    (array items).transformUp (fun _ => change) =
      change (array (items.map fun item => item.transformUp fun _ => change)) := by
  rw [transformUp, transformUpFrom, transformUpItems_eq_mapIdx]
  refine congrArg (change <| array ·) (List.mapIdx_eq_iff.mpr fun position => ?_)
  rw [List.getElem?_map]
  exact congrArg (Option.map · _) (funext fun item => (transformUpFrom_of_path change _ item).symm)

theorem transformUp_object (change : Json → Json) (entries : Entries Json) :
    (object entries).transformUp (fun _ => change) =
      change (object (entries.map fun entry => (entry.1, entry.2.transformUp fun _ => change))) := by
  rw [transformUp, transformUpFrom, transformUpEntries_eq_map]
  simp only [transformUpFrom_of_path]

/-! ### Sorting -/

theorem sortKeys_array (items : List Json) : (array items).sortKeys = array (items.map sortKeys) :=
  transformUp_array sortEntries items

/-- The entries are sorted, and the keys of their values are as well. -/
theorem sortKeys_object (entries : Entries Json) :
    (object entries).sortKeys =
      object ((Entries.sorted entries).map fun entry => (entry.1, entry.2.sortKeys)) := by
  rw [← Entries.sorted_map]
  exact transformUp_object sortEntries entries

/-- The keys of every object are in order, and equal keys may repeat. -/
def InOrder : Json → Prop :=
  Every fun
    | .object entries => entries.Pairwise fun first second => first.1 ≤ second.1
    | _ => True

theorem inOrder_array {items : List Json} : (array items).InOrder ↔ ∀ item ∈ items, item.InOrder := by
  rw [InOrder, every_array]
  exact and_iff_right trivial

theorem inOrder_object {entries : Entries Json} :
    (object entries).InOrder ↔
      (entries.Pairwise fun first second => first.1 ≤ second.1) ∧ ∀ entry ∈ entries, entry.2.InOrder := by
  rw [InOrder, every_object]

/-- The keys are in order after they were sorted. -/
theorem inOrder_sortKeys (tree : Json) : tree.sortKeys.InOrder := by
  induction tree using Json.induct with
  | array items ih =>
      rw [sortKeys_array, inOrder_array, List.forall_mem_map]
      exact ih
  | object entries ih =>
      rw [sortKeys_object, inOrder_object, List.forall_mem_map, List.pairwise_map]
      refine ⟨Entries.pairwise_le_sorted entries, fun entry hentry => ?_⟩
      exact ih entry ((Entries.perm_sorted entries).mem_iff.mp hentry)
  | _ => trivial

/-- Nothing is left to sort where the keys are in order. -/
theorem InOrder.sortKeys_eq_self (horder : tree.InOrder) : tree.sortKeys = tree := by
  induction tree using Json.induct with
  | array items ih =>
      have hitems := inOrder_array.mp horder
      rw [sortKeys_array, array.injEq]
      exact map_eq_self fun item hitem => ih item hitem (hitems item hitem)
  | object entries ih =>
      obtain ⟨hsorted, hvalues⟩ := inOrder_object.mp horder
      rw [sortKeys_object, Entries.sorted_eq_self hsorted, object.injEq]
      apply Entries.map_values_eq_self
      intro entry hentry
      exact ih entry hentry (hvalues entry hentry)
  | _ => rfl

/-- To sort the keys leaves the data of the tree as it is. -/
theorem canonical_sortKeys (tree : Json) : tree.sortKeys.canonical = tree.canonical := by
  induction tree using Json.induct with
  | array items ih =>
      rw [sortKeys_array, canonical_array, canonical_array, List.map_map]
      exact congrArg Canonical.array (List.map_congr_left ih)
  | object entries ih =>
      have hvalues : (Entries.sorted entries).map (fun entry => (entry.1, entry.2.sortKeys.canonical)) =
          (Entries.sorted entries).map fun entry => (entry.1, entry.2.canonical) := by
        refine List.map_congr_left fun entry hentry => ?_
        rw [ih entry ((Entries.perm_sorted entries).mem_iff.mp hentry)]
      rw [sortKeys_object, canonical_object, canonical_object, List.map_map]
      refine Canonical.ofEntries_inj.mpr ((congrArg Entries.counted hvalues).trans ?_)
      -- a key finds its first entry wherever it was moved to
      rw [Entries.counted_eq_iff]
      intro key
      rw [Entries.find?_map, Entries.find?_map, Entries.find?_sorted]
  | _ => rfl

theorem Keyed.sortKeys (hkeyed : tree.Keyed) : tree.sortKeys.Keyed := by
  induction tree using Json.induct with
  | array items ih =>
      have hitems := keyed_array.mp hkeyed
      rw [sortKeys_array, keyed_array, List.forall_mem_map]
      exact fun item hitem => ih item hitem (hitems item hitem)
  | object entries ih =>
      obtain ⟨hdistinct, hvalues⟩ := keyed_object.mp hkeyed
      rw [sortKeys_object, keyed_object, List.forall_mem_map]
      refine ⟨?_, fun entry hentry => ?_⟩
      · rw [Entries.distinct_iff_nodup, List.map_map]
        exact ((Entries.perm_sorted entries).map Prod.fst).nodup_iff.mpr
          (Entries.distinct_iff_nodup.mp hdistinct)
      · have hmem := (Entries.perm_sorted entries).mem_iff.mp hentry
        exact ih entry hmem (hvalues entry hmem)
  | _ => trivial

/-! ### Position by position -/

theorem forall₂_of_map_eq {α β γ : Type} {related : α → β → Prop} {f : α → γ} {g : β → γ} {items : List α}
    {others : List β} (hmap : items.map f = others.map g)
    (hrelated : ∀ item ∈ items, ∀ other ∈ others, f item = g other → related item other) :
    List.Forall₂ related items others := by
  induction items generalizing others with
  | nil =>
      obtain rfl := List.map_eq_nil_iff.mp hmap.symm
      exact .nil
  | cons item items ih =>
      obtain ⟨other, rest, rfl, hsame, hrest⟩ := List.map_eq_cons_iff.mp hmap.symm
      refine .cons (hrelated item List.mem_cons_self other List.mem_cons_self hsame.symm) ?_
      apply ih hrest.symm
      intro item' hitem' other' hother'
      exact hrelated item' (List.mem_cons_of_mem _ hitem') other' (List.mem_cons_of_mem _ hother')

/-- Where no key repeats and all keys are in order, entries of equal objects have the same keys and equal
values, one after the other. -/
theorem map_canonical_of_object_beq {entries others : Entries Json} (hdistinct : Entries.Distinct entries)
    (hdistinct' : Entries.Distinct others)
    (hsorted : entries.Pairwise fun first second => first.1 ≤ second.1)
    (hsorted' : others.Pairwise fun first second => first.1 ≤ second.1)
    (hequal : object entries == object others) :
    entries.map (fun entry => (entry.1, entry.2.canonical)) =
      others.map fun entry => (entry.1, entry.2.canonical) := by
  rw [beq_iff, canonical_object, canonical_object, Canonical.ofEntries_inj, Entries.counted_map,
    Entries.counted_map, hdistinct.counted_eq_self hsorted, hdistinct'.counted_eq_self hsorted'] at hequal
  exact hequal

/-- Equal trees agree position by position if no key repeats and all keys are in order. -/
theorem renumbered_of_beq (hkeyed : tree.Keyed) (hkeyed' : other.Keyed) (horder : tree.InOrder)
    (horder' : other.InOrder) (hequal : tree == other) :
    Renumbered (fun left right => left == right) tree other := by
  induction tree using Json.induct generalizing other with
  | array items ih =>
      match other, kind_eq_of_beq hequal with
      | .array others, _ =>
          refine .array (forall₂_of_map_eq (array_beq_iff.mp hequal) fun item hitem other hother hsame => ?_)
          exact ih item hitem (keyed_array.mp hkeyed item hitem) (keyed_array.mp hkeyed' other hother)
            (inOrder_array.mp horder item hitem) (inOrder_array.mp horder' other hother) (beq_iff.mpr hsame)
  | object entries ih =>
      match other, kind_eq_of_beq hequal with
      | .object others, _ =>
          obtain ⟨hdistinct, hvalues⟩ := keyed_object.mp hkeyed
          obtain ⟨hdistinct', hvalues'⟩ := keyed_object.mp hkeyed'
          obtain ⟨hsorted, hbelow⟩ := inOrder_object.mp horder
          obtain ⟨hsorted', hbelow'⟩ := inOrder_object.mp horder'
          have hmap := map_canonical_of_object_beq hdistinct hdistinct' hsorted hsorted' hequal
          refine .object (forall₂_of_map_eq hmap ?_)
          rintro ⟨key, value⟩ hentry ⟨key', value'⟩ hentry' hsame
          obtain ⟨rfl, hvalue⟩ := Prod.mk.inj hsame
          exact .mk key (ih _ hentry (hvalues _ hentry) (hvalues' _ hentry') (hbelow _ hentry)
            (hbelow' _ hentry') (beq_iff.mpr hvalue))
  | null =>
      match other, kind_eq_of_beq hequal with
      | .null, _ => exact .null
  | bool value =>
      match other, kind_eq_of_beq hequal with
      | .bool other, _ =>
          obtain rfl := Canonical.bool.inj (beq_iff.mp hequal)
          exact .bool value
  | number value =>
      match other, kind_eq_of_beq hequal with
      | .number other, _ => exact .number (number_beq_iff.mp hequal)
  | string value =>
      match other, kind_eq_of_beq hequal with
      | .string other, _ =>
          obtain rfl := string_beq_iff.mp hequal
          exact .string value

/-- **Sorting the keys decides equality.** The sorted tree equals the tree, and sorting it once more changes
nothing. Two trees without repeated keys are equal exactly if their sorted trees agree position by position:
they are the same up to their numbers, and these are equal. -/
theorem sortKeys_canonical (tree : Json) :
    tree.sortKeys == tree ∧ tree.sortKeys.sortKeys = tree.sortKeys ∧
      ∀ other : Json, tree.Keyed → other.Keyed →
        (tree == other ↔
          Renumbered (fun left right => left == right) tree.sortKeys other.sortKeys) := by
  have hsorted : ∀ tree : Json, tree.sortKeys == tree := fun tree => beq_iff.mpr (canonical_sortKeys tree)
  refine ⟨hsorted tree, (inOrder_sortKeys tree).sortKeys_eq_self, fun other hkeyed hkeyed' => ?_⟩
  constructor
  · intro hequal
    have hequal' : tree.sortKeys == other.sortKeys :=
      BEq.trans (BEq.trans (hsorted tree) hequal) (BEq.symm (hsorted other))
    exact renumbered_of_beq hkeyed.sortKeys hkeyed'.sortKeys (inOrder_sortKeys tree)
      (inOrder_sortKeys other) hequal'
  · intro hsame
    have hequal : tree.sortKeys == other.sortKeys := hsame.beq fun _ _ hnumbers => hnumbers
    exact BEq.trans (BEq.symm (hsorted tree)) (BEq.trans hequal (hsorted other))

/-- Keys in different orders at two depths, and a number with a superfluous zero. -/
theorem sortKeys_canonical_nested :
    let number : Number := { whole := 1, fraction := [5] }
    let number' : Number := { whole := 1, fraction := [5, 0] }
    let tree : Json := .object
      [("b", .array [.object [("y", .null), ("x", .number number)]]), ("a", .string "s")]
    let other : Json := .object
      [("a", .string "s"), ("b", .array [.object [("x", .number number'), ("y", .null)]])]
    tree.Keyed ∧ other.Keyed ∧ tree == other ∧
      Renumbered (fun left right => left == right) tree.sortKeys other.sortKeys := by
  intro number number' tree other
  have hkeyed : tree.Keyed := by
    simp [tree, Keyed, Every, EveryItem, EveryEntry, Entries.Distinct]
  have hkeyed' : other.Keyed := by
    simp [other, Keyed, Every, EveryItem, EveryEntry, Entries.Distinct]
  have hnumber : (Json.number number).canonical = (Json.number number').canonical :=
    beq_iff.mp (by decide +kernel)
  have hequal : tree == other := by
    rw [beq_iff]
    simp [tree, other, canonical_object_eq, keys, values, Entries.counted, Entries.sorted,
      List.mergeSort, Entries.keyLe, Entries.dropRepeats, Entries.dropRepeats.after, hnumber]
  exact ⟨hkeyed, hkeyed', hequal, ((sortKeys_canonical tree).2.2 other hkeyed hkeyed').mp hequal⟩

end JsonEdit.Json
