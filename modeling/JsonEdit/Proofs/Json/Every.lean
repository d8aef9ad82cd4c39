import JsonEdit.Proofs.Json.Equality
import JsonEdit.Json.Reader

/-!
# Properties of all parts of a tree

A tree has a property everywhere if the tree itself and all values in it have it. Three properties
matter when trees are written and read back: a tree is tidy if no object repeats a key and every number
has its exponent in normal form; it is unmarked if no object begins with the key that stands for a
number; and it is within a bound if its strings and arrays are shorter than that. Besides these there is
the depth, the number of lists and objects that are open at once.
-/

namespace JsonEdit.Json

mutual

def Every (p : Json → Prop) : Json → Prop
  | .array items => p (.array items) ∧ EveryItem p items
  | .object entries => p (.object entries) ∧ EveryEntry p entries
  | leaf => p leaf

def EveryItem (p : Json → Prop) : List Json → Prop
  | [] => True
  | item :: rest => Every p item ∧ EveryItem p rest

def EveryEntry (p : Json → Prop) : List (String × Json) → Prop
  | [] => True
  | (_, value) :: rest => Every p value ∧ EveryEntry p rest

end

variable {p q : Json → Prop}

theorem everyItem_iff {items : List Json} : EveryItem p items ↔ ∀ item ∈ items, item.Every p := by
  induction items with
  | nil => simp [EveryItem]
  | cons item rest ih => rw [EveryItem, ih, List.forall_mem_cons]

theorem everyEntry_iff {entries : Entries Json} :
    EveryEntry p entries ↔ ∀ entry ∈ entries, entry.2.Every p := by
  induction entries with
  | nil => simp [EveryEntry]
  | cons entry rest ih => rw [EveryEntry, ih, List.forall_mem_cons]

theorem every_array {items : List Json} :
    (array items).Every p ↔ p (array items) ∧ ∀ item ∈ items, item.Every p := by
  rw [Every, everyItem_iff]

theorem every_object {entries : Entries Json} :
    (object entries).Every p ↔ p (object entries) ∧ ∀ entry ∈ entries, entry.2.Every p := by
  rw [Every, everyEntry_iff]

theorem Every.self {tree : Json} (hevery : tree.Every p) : p tree := by
  cases tree with
  | array items => exact (every_array.mp hevery).1
  | object entries => exact (every_object.mp hevery).1
  | _ => exact hevery

theorem Every.mono {tree : Json} (hevery : tree.Every p) (himp : ∀ value, p value → q value) :
    tree.Every q := by
  induction tree using Json.induct with
  | array items ih =>
      obtain ⟨hself, hitems⟩ := every_array.mp hevery
      exact every_array.mpr ⟨himp _ hself, fun item hitem => ih item hitem (hitems item hitem)⟩
  | object entries ih =>
      obtain ⟨hself, hentries⟩ := every_object.mp hevery
      exact every_object.mpr ⟨himp _ hself, fun entry hentry => ih entry hentry (hentries entry hentry)⟩
  | _ => exact himp _ hevery

/-! ### Depth -/

mutual

/-- The number of lists and objects that are open at the innermost place. -/
def depth : Json → Nat
  | .array items => itemsDepth items + 1
  | .object entries => entriesDepth entries + 1
  | _ => 0

def itemsDepth : List Json → Nat
  | [] => 0
  | item :: rest => max (depth item) (itemsDepth rest)

def entriesDepth : List (String × Json) → Nat
  | [] => 0
  | (_, value) :: rest => max (depth value) (entriesDepth rest)

end

theorem depth_array_le_iff {items : List Json} {bound : Nat} :
    (array items).depth ≤ bound + 1 ↔ ∀ item ∈ items, item.depth ≤ bound := by
  rw [depth, Nat.add_le_add_iff_right]
  induction items with
  | nil => simp [itemsDepth]
  | cons item rest ih => rw [itemsDepth, Nat.max_le, ih, List.forall_mem_cons]

theorem depth_object_le_iff {entries : Entries Json} {bound : Nat} :
    (object entries).depth ≤ bound + 1 ↔ ∀ entry ∈ entries, entry.2.depth ≤ bound := by
  rw [depth, Nat.add_le_add_iff_right]
  induction entries with
  | nil => simp [entriesDepth]
  | cons entry rest ih => rw [entriesDepth, Nat.max_le, ih, List.forall_mem_cons]

/-! ### Normal exponents -/

mutual

def normal : Json → Json
  | .number value => .number value.normal
  | .array items => .array (normalItems items)
  | .object entries => .object (normalEntries entries)
  | leaf => leaf

def normalItems : List Json → List Json
  | [] => []
  | item :: rest => normal item :: normalItems rest

def normalEntries : List (String × Json) → List (String × Json)
  | [] => []
  | (key, value) :: rest => (key, normal value) :: normalEntries rest

end

theorem normal_array (items : List Json) : (array items).normal = .array (items.map normal) := by
  rw [normal, array.injEq]
  induction items with
  | nil => rfl
  | cons item rest ih => rw [normalItems, ih, List.map_cons]

theorem normal_object (entries : Entries Json) :
    (object entries).normal = .object (entries.map fun entry => (entry.1, entry.2.normal)) := by
  rw [normal, object.injEq]
  induction entries with
  | nil => rfl
  | cons entry rest ih => rw [normalEntries, ih, List.map_cons]

/-! ### Tidy, unmarked and bounded trees -/

/-- No object repeats a key. -/
def Keyed : Json → Prop :=
  Every fun
    | .object entries => Entries.Distinct entries
    | _ => True

/-- No object repeats a key, and the exponents of numbers are in normal form. -/
def Tidy : Json → Prop :=
  Every fun
    | .number value => value.normal = value
    | .object entries => Entries.Distinct entries
    | _ => True

/-- No object begins with the key that stands for a number. -/
def Unmarked : Json → Prop :=
  Every fun
    | .object entries => (entries.map Prod.fst).head? ≠ some Reader.numberKey
    | _ => True

/-- Tidy and unmarked, as all trees are that were read. -/
def Clean (tree : Json) : Prop := tree.Tidy ∧ tree.Unmarked

def CleanTo (height : Nat) (tree : Json) : Prop := tree.Clean ∧ tree.depth ≤ height

def Within (bound : Nat) : Json → Prop :=
  Every fun
    | .string text => text.length < bound
    | .array items => items.length < bound
    | _ => True

theorem keyed_array {items : List Json} : (array items).Keyed ↔ ∀ item ∈ items, item.Keyed := by
  rw [Keyed, every_array]
  exact and_iff_right trivial

theorem keyed_object {entries : Entries Json} :
    (object entries).Keyed ↔ Entries.Distinct entries ∧ ∀ entry ∈ entries, entry.2.Keyed := by
  rw [Keyed, every_object]

theorem tidy_array {items : List Json} : (array items).Tidy ↔ ∀ item ∈ items, item.Tidy := by
  rw [Tidy, every_array]
  exact and_iff_right trivial

theorem tidy_object {entries : Entries Json} :
    (object entries).Tidy ↔ Entries.Distinct entries ∧ ∀ entry ∈ entries, entry.2.Tidy := by
  rw [Tidy, every_object]

theorem Tidy.keyed {tree : Json} (htidy : tree.Tidy) : tree.Keyed :=
  Every.mono htidy fun value hvalue => by
    cases value with
    | object entries => exact hvalue
    | _ => trivial

theorem Tidy.normal_eq {tree : Json} (htidy : tree.Tidy) : tree.normal = tree := by
  induction tree using Json.induct with
  | number value =>
      have hnormal : value.normal = value := htidy
      rw [normal, hnormal]
  | array items ih =>
      rw [normal_array, array.injEq]
      exact map_eq_self fun item hitem => ih item hitem (tidy_array.mp htidy item hitem)
  | object entries ih =>
      rw [normal_object, object.injEq]
      apply Entries.map_values_eq_self
      intro entry hentry
      exact ih entry hentry ((tidy_object.mp htidy).2 entry hentry)
  | _ => rfl

theorem unmarked_array {items : List Json} :
    (array items).Unmarked ↔ ∀ item ∈ items, item.Unmarked := by
  rw [Unmarked, every_array]
  exact and_iff_right trivial

theorem unmarked_object {entries : Entries Json} :
    (object entries).Unmarked ↔
      (entries.map Prod.fst).head? ≠ some Reader.numberKey ∧ ∀ entry ∈ entries, entry.2.Unmarked := by
  rw [Unmarked, every_object]

theorem clean_array {items : List Json} : (array items).Clean ↔ ∀ item ∈ items, item.Clean := by
  rw [Clean, tidy_array, unmarked_array]
  exact forall₂_and.symm

theorem clean_object {entries : Entries Json} :
    (object entries).Clean ↔
      (Entries.Distinct entries ∧ (entries.map Prod.fst).head? ≠ some Reader.numberKey) ∧
        ∀ entry ∈ entries, entry.2.Clean := by
  rw [Clean, tidy_object, unmarked_object, and_and_and_comm]
  exact and_congr_right fun _ => forall₂_and.symm

theorem CleanTo.mono {height higher : Nat} {tree : Json} (hclean : tree.CleanTo height)
    (hle : height ≤ higher) : tree.CleanTo higher :=
  ⟨hclean.1, Nat.le_trans hclean.2 hle⟩

theorem cleanTo_array {height : Nat} {items : List Json} :
    (array items).CleanTo (height + 1) ↔ ∀ item ∈ items, item.CleanTo height := by
  rw [CleanTo, clean_array, depth_array_le_iff]
  exact forall₂_and.symm

theorem cleanTo_object {height : Nat} {entries : Entries Json} :
    (object entries).CleanTo (height + 1) ↔
      (Entries.Distinct entries ∧ (entries.map Prod.fst).head? ≠ some Reader.numberKey) ∧
        ∀ entry ∈ entries, entry.2.CleanTo height := by
  rw [CleanTo, clean_object, depth_object_le_iff, and_assoc]
  exact and_congr_right fun _ => forall₂_and.symm

theorem within_array {bound : Nat} {items : List Json} :
    (array items).Within bound ↔ items.length < bound ∧ ∀ item ∈ items, item.Within bound := by
  rw [Within, every_array]

theorem within_object {bound : Nat} {entries : Entries Json} :
    (object entries).Within bound ↔ ∀ entry ∈ entries, entry.2.Within bound := by
  rw [Within, every_object]
  exact and_iff_right trivial

theorem Within.mono {bound larger : Nat} {tree : Json} (hwithin : tree.Within bound)
    (hle : bound ≤ larger) : tree.Within larger :=
  Every.mono hwithin fun value hvalue => by
    cases value with
    | string text => exact Nat.lt_of_lt_of_le hvalue hle
    | array items => exact Nat.lt_of_lt_of_le hvalue hle
    | _ => trivial

/-- A tree without repeated keys is no deeper than the trees that it equals. -/
theorem depth_le_of_beq {left right : Json} (hequal : left == right) (hkeyed : left.Keyed) :
    left.depth ≤ right.depth := by
  induction left using Json.induct generalizing right with
  | array items ih =>
      match right, kind_eq_of_beq hequal with
      | .array others, _ =>
          have hmap := array_beq_iff.mp hequal
          refine depth_array_le_iff.mpr fun item hitem => ?_
          obtain ⟨other, hother, hcanonical⟩ :=
            List.mem_map.mp (hmap ▸ List.mem_map_of_mem (f := canonical) hitem)
          have hle := ih item hitem (beq_iff.mpr hcanonical.symm) (keyed_array.mp hkeyed item hitem)
          exact Nat.le_trans hle (depth_array_le_iff.mp (Nat.le_refl _) other hother)
  | object entries ih =>
      match right, kind_eq_of_beq hequal with
      | .object others, _ =>
          obtain ⟨hdistinct, hkeyed⟩ := keyed_object.mp hkeyed
          refine depth_object_le_iff.mpr fun entry hentry => ?_
          have hkey := object_beq_iff.mp hequal entry.1
          rw [hdistinct.find?_of_mem hentry, Option.map_some] at hkey
          obtain ⟨other, hother, hcanonical⟩ := Option.map_eq_some_iff.mp hkey.symm
          have hle := ih entry hentry (beq_iff.mpr hcanonical.symm) (hkeyed entry hentry)
          have hbound := depth_object_le_iff.mp (Nat.le_refl _) _ (Entries.mem_of_find? hother)
          exact Nat.le_trans hle hbound
  | _ => exact Nat.zero_le _

end JsonEdit.Json
