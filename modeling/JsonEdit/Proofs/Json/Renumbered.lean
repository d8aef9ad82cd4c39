import JsonEdit.Proofs.Json.Equality
import JsonEdit.Proofs.Json.Entries
import Mathlib.Data.List.Forall2

/-!
# Trees that differ in their numbers only

Such trees have the same shape, and the same keys and texts in the same order. Their numbers are related
place by place. Whatever is looked up in one of them or put into it can be looked up in the other or put
into it as well.
-/

namespace JsonEdit

namespace Json

mutual

/-- The trees are the same except for their numbers, which are related. -/
inductive Renumbered (related : Number → Number → Prop) : Json → Json → Prop where
  | null : Renumbered related .null .null
  | bool (value : Bool) : Renumbered related (.bool value) (.bool value)
  | number {value other : Number} (hrelated : related value other) :
      Renumbered related (.number value) (.number other)
  | string (value : String) : Renumbered related (.string value) (.string value)
  | array {items others : List Json} (hitems : List.Forall₂ (Renumbered related) items others) :
      Renumbered related (.array items) (.array others)
  | object {entries others : List (String × Json)}
      (hentries : List.Forall₂ (RenumberedEntry related) entries others) :
      Renumbered related (.object entries) (.object others)

inductive RenumberedEntry (related : Number → Number → Prop) : String × Json → String × Json → Prop where
  | mk (key : String) {value other : Json} (hvalue : Renumbered related value other) :
      RenumberedEntry related (key, value) (key, other)

end

variable {related : Number → Number → Prop} {tree other : Json}

theorem renumbered_refl (hrefl : ∀ number, related number number) (tree : Json) :
    Renumbered related tree tree := by
  induction tree using Json.induct with
  | null => exact .null
  | bool value => exact .bool value
  | number value => exact .number (hrefl value)
  | string value => exact .string value
  | array items ih => exact .array (List.forall₂_same.mpr ih)
  | object entries ih =>
      exact .object (List.forall₂_same.mpr fun entry hentry => .mk entry.1 (ih entry hentry))

/-- Trees are equal if their numbers are. -/
theorem Renumbered.beq (hequal : ∀ left right, related left right → left == right)
    (hsame : Renumbered related tree other) : tree == other := by
  rw [beq_iff]
  induction tree using Json.induct generalizing other with
  | null | bool value | string value =>
      cases hsame
      rfl
  | number value =>
      obtain _ | _ | hrelated := hsame
      exact congrArg Canonical.number (Number.beq_iff.mp (hequal _ _ hrelated))
  | array items ih =>
      obtain _ | _ | _ | _ | hitems := hsame
      rw [canonical_array, canonical_array]
      refine congrArg Canonical.array ?_
      induction hitems with
      | nil => rfl
      | cons hitem hrest ihrest =>
          obtain ⟨hhead, htail⟩ := List.forall_mem_cons.mp ih
          rw [List.map_cons, List.map_cons, hhead hitem, ihrest htail]
  | object entries ih =>
      obtain _ | _ | _ | _ | _ | hentries := hsame
      rw [canonical_object, canonical_object]
      refine congrArg Canonical.ofEntries ?_
      induction hentries with
      | nil => rfl
      | cons hentry hrest ihrest =>
          obtain ⟨hhead, htail⟩ := List.forall_mem_cons.mp ih
          obtain ⟨key, hvalue⟩ := hentry
          rw [List.map_cons, List.map_cons, hhead hvalue, ihrest htail]

/-! ### Entries -/

variable {entries others : Entries Json} {key : String} {value new : Json}

theorem renumbered_find? (hentries : List.Forall₂ (RenumberedEntry related) entries others)
    (key : String) :
    Option.Rel (Renumbered related) (Entries.find? key entries) (Entries.find? key others) := by
  induction hentries with
  | nil => exact .none
  | cons hentry hrest ih =>
      obtain ⟨other, hvalue⟩ := hentry
      rw [Entries.find?_cons, Entries.find?_cons]
      by_cases hkey : other = key
      · rw [if_pos hkey, if_pos hkey]
        exact .some hvalue
      · rw [if_neg hkey, if_neg hkey]
        exact ih

theorem renumbered_has (hentries : List.Forall₂ (RenumberedEntry related) entries others)
    (key : String) : Entries.has key entries = Entries.has key others := by
  have hfind := renumbered_find? hentries key
  unfold Entries.has
  generalize Entries.find? key entries = found, Entries.find? key others = found' at hfind
  cases hfind <;> rfl

theorem renumbered_replace (hentries : List.Forall₂ (RenumberedEntry related) entries others)
    (key : String) (hnew : Renumbered related value new) :
    List.Forall₂ (RenumberedEntry related) (Entries.replace key value entries)
      (Entries.replace key new others) := by
  induction hentries with
  | nil => exact .nil
  | cons hentry hrest ih =>
      obtain ⟨other, hvalue⟩ := hentry
      rw [Entries.replace, Entries.replace]
      by_cases hkey : other = key
      · rw [if_pos hkey, if_pos hkey]
        exact .cons (.mk other hnew) hrest
      · rw [if_neg hkey, if_neg hkey]
        exact .cons (.mk other hvalue) ih

theorem renumbered_put (hentries : List.Forall₂ (RenumberedEntry related) entries others)
    (key : String) (hnew : Renumbered related value new) :
    List.Forall₂ (RenumberedEntry related) (Entries.put key value entries)
      (Entries.put key new others) := by
  rw [Entries.put, Entries.put, renumbered_has hentries]
  split
  · exact renumbered_replace hentries key hnew
  · exact List.rel_append hentries (.cons (.mk key hnew) .nil)

theorem renumbered_erase (hentries : List.Forall₂ (RenumberedEntry related) entries others)
    (key : String) :
    List.Forall₂ (RenumberedEntry related) (Entries.erase key entries) (Entries.erase key others) := by
  refine List.rel_filter ?_ hentries
  rintro entry next ⟨other, hvalue⟩
  exact Iff.rfl

end Json

end JsonEdit
