import JsonEdit.Json.Entries
import Mathlib.Data.List.Sort

/-!
# Entries by their look-ups

What counts in a list of entries is which value is found at which key. Each operation has one lemma
about that. When objects are compared nothing else counts: after sorting, the entries that are kept are
the first occurrences, and they are the same in two lists exactly when every key finds the same in both.
-/

namespace JsonEdit

/-- A list stays the same if every item does. -/
theorem map_eq_self {α : Type} {image : α → α} {items : List α} (hitems : ∀ item ∈ items, image item = item) :
    items.map image = items :=
  (List.map_congr_left hitems).trans (List.map_id items)

namespace Entries

variable {α β : Type} {key other : String} {value : α} {entries : Entries α}

theorem map_values_eq_self {image : α → α} (hvalues : ∀ entry ∈ entries, image entry.2 = entry.2) :
    (entries.map fun entry => (entry.1, image entry.2)) = entries :=
  map_eq_self fun entry hentry => congrArg (Prod.mk entry.1) (hvalues entry hentry)

@[simp]
theorem find?_nil (key : String) : find? key ([] : Entries α) = none := rfl

theorem find?_cons (key : String) (entry : String × α) (rest : Entries α) :
    find? key (entry :: rest) = if entry.1 = key then some entry.2 else find? key rest := rfl

theorem find?_append (key : String) (first second : Entries α) :
    find? key (first ++ second) = (find? key first).or (find? key second) := by
  induction first with
  | nil => simp
  | cons entry rest ih =>
      rw [List.cons_append, find?_cons, find?_cons, ih]
      split <;> simp

theorem has_iff : entries.has key = true ↔ ∃ value, entries.find? key = some value := by
  rw [has, Option.isSome_iff_exists]

theorem has_eq_false_iff : entries.has key = false ↔ entries.find? key = none := by
  rw [has, Option.isSome_eq_false_iff, Option.isNone_iff_eq_none]

/-- A new key is put behind the others. -/
theorem put_of_find?_eq_none (hfresh : entries.find? key = none) (value : α) :
    entries.put key value = entries ++ [(key, value)] := by
  rw [put, has_eq_false_iff.mpr hfresh, if_neg Bool.false_ne_true]

theorem find?_map (f : α → β) (key : String) (entries : Entries α) :
    find? key (entries.map fun entry => (entry.1, f entry.2)) = (entries.find? key).map f := by
  induction entries with
  | nil => rfl
  | cons entry rest ih =>
      rw [List.map_cons, find?_cons, find?_cons, ih]
      split <;> rfl

theorem mem_of_find? (hfound : entries.find? key = some value) : (key, value) ∈ entries := by
  induction entries with
  | nil => cases hfound
  | cons entry rest ih =>
      rw [find?_cons] at hfound
      split at hfound
      · rename_i hkey
        cases hfound
        rw [← hkey]
        exact List.mem_cons_self
      · exact List.mem_cons_of_mem _ (ih hfound)

theorem find?_eq_none_iff : entries.find? key = none ↔ ∀ entry ∈ entries, entry.1 ≠ key := by
  induction entries with
  | nil => simp
  | cons entry rest ih =>
      rw [find?_cons, List.forall_mem_cons, ← ih]
      by_cases hkey : entry.1 = key <;> simp [hkey]

theorem find?_eq_none_iff_notMem :
    entries.find? key = none ↔ key ∉ entries.map Prod.fst := by
  rw [find?_eq_none_iff, List.mem_map, not_exists]
  exact forall_congr' fun entry => not_and.symm

/-! ### What an operation does to the look-ups -/

/-- Entries are selected by their keys. -/
theorem find?_filter (select : String → Bool) (key : String) (entries : Entries α) :
    find? key (entries.filter fun entry => select entry.1) =
      if select key then entries.find? key else none := by
  induction entries with
  | nil => simp
  | cons entry rest ih =>
      rw [List.filter_cons, find?_cons]
      by_cases hentry : entry.1 = key
      · rw [hentry, if_pos rfl]
        split
        · rw [find?_cons, if_pos hentry]
        · rename_i hselect
          rw [ih, if_neg hselect]
      · rw [if_neg hentry]
        split
        · rw [find?_cons, if_neg hentry, ih]
        · exact ih

theorem find?_erase (key other : String) (entries : Entries α) :
    (entries.erase key).find? other = if other = key then none else entries.find? other := by
  have hfilter := find?_filter (fun candidate => decide (candidate ≠ key)) other entries
  rw [erase, hfilter]
  by_cases hother : other = key <;> simp [hother]

theorem find?_replace (key other : String) (value : α) (entries : Entries α) :
    (entries.replace key value).find? other =
      if other = key ∧ entries.has key then some value else entries.find? other := by
  induction entries with
  | nil => simp [replace, has]
  | cons entry rest ih =>
      unfold replace
      by_cases hentry : entry.1 = key
      · rw [if_pos hentry, find?_cons, find?_cons, has, find?_cons, if_pos hentry, hentry]
        by_cases hother : key = other <;> simp [hother, eq_comm]
      · rw [if_neg hentry, find?_cons, ih, find?_cons, has, has, find?_cons, if_neg hentry]
        by_cases hother : entry.1 = other
        · have hne : other ≠ key := fun heq => hentry (hother.trans heq)
          simp [hother, hne]
        · simp [hother]

theorem find?_put (key other : String) (value : α) (entries : Entries α) :
    (entries.put key value).find? other =
      if other = key then some value else entries.find? other := by
  unfold put
  split
  · rename_i hkey
    simp [find?_replace, hkey]
  · rename_i hkey
    rw [find?_append, find?_cons]
    by_cases hother : other = key
    · rw [hother, has_eq_false_iff.mp (by simpa using hkey)]
      simp
    · simp [hother, Ne.symm hother]

/-- Entries keep their keys when a value is replaced. -/
theorem keys_replace (key : String) (value : α) (entries : Entries α) :
    (entries.replace key value).map Prod.fst = entries.map Prod.fst := by
  induction entries with
  | nil => rfl
  | cons entry rest ih =>
      unfold replace
      split <;> simp [ih]

theorem keys_put (key : String) (value : α) (entries : Entries α) :
    (entries.put key value).map Prod.fst =
      entries.map Prod.fst ++ if entries.has key then [] else [key] := by
  rw [put]
  split
  · rw [keys_replace, List.append_nil]
  · rw [List.map_append, List.map_singleton]

theorem mem_replace {entry : String × α} (hmem : entry ∈ entries.replace key value) :
    entry.2 = value ∨ entry ∈ entries := by
  induction entries with
  | nil => cases hmem
  | cons first rest ih =>
      unfold replace at hmem
      split at hmem
      · rcases List.mem_cons.mp hmem with rfl | hmem
        · exact .inl rfl
        · exact .inr (List.mem_cons_of_mem _ hmem)
      · rcases List.mem_cons.mp hmem with rfl | hmem
        · exact .inr List.mem_cons_self
        · exact (ih hmem).imp_right (List.mem_cons_of_mem _)

theorem mem_put {entry : String × α} (hmem : entry ∈ entries.put key value) :
    entry.2 = value ∨ entry ∈ entries := by
  unfold put at hmem
  split at hmem
  · exact mem_replace hmem
  · rcases List.mem_append.mp hmem with hmem | hmem
    · exact .inr hmem
    · rw [List.mem_singleton.mp hmem]
      exact .inl rfl

/-! ### A value at a position -/

theorem keys_modify (position : Nat) (value : α) (entries : Entries α) :
    (entries.modify position fun entry => (entry.1, value)).map Prod.fst = entries.map Prod.fst := by
  refine List.ext_getElem? fun place => ?_
  rw [List.getElem?_map, List.getElem?_map, List.getElem?_modify]
  cases entries[place]? with
  | none => rfl
  | some entry =>
      by_cases hplace : position = place <;> simp [hplace]

theorem mem_modify {position : Nat} {entry : String × α}
    (hmem : entry ∈ entries.modify position fun entry => (entry.1, value)) :
    entry.2 = value ∨ entry ∈ entries := by
  obtain ⟨place, hplace⟩ := List.mem_iff_getElem?.mp hmem
  rw [List.getElem?_modify] at hplace
  obtain ⟨old, hold, hentry⟩ := Option.map_eq_some_iff.mp hplace
  split at hentry
  · rw [← hentry]
    exact .inl rfl
  · rw [← hentry]
    exact .inr (List.mem_of_getElem? hold)

/-! ### Distinct keys -/

def Distinct (entries : Entries α) : Prop :=
  entries.Pairwise fun first second => first.1 ≠ second.1

theorem distinct_cons {entry : String × α} {rest : Entries α} :
    Distinct (entry :: rest) ↔ find? entry.1 rest = none ∧ Distinct rest := by
  rw [Distinct, List.pairwise_cons, find?_eq_none_iff, Distinct]
  exact and_congr_left fun _ => forall₂_congr fun _ _ => ne_comm

theorem distinct_iff_nodup : entries.Distinct ↔ (entries.map Prod.fst).Nodup := by
  rw [Distinct, List.Nodup, List.pairwise_map]

/-- Where no key repeats every entry is found. -/
theorem Distinct.find?_of_mem (hdistinct : entries.Distinct) {entry : String × α}
    (hmem : entry ∈ entries) : entries.find? entry.1 = some entry.2 := by
  induction entries with
  | nil => cases hmem
  | cons first rest ih =>
      obtain ⟨hfresh, hrest⟩ := distinct_cons.mp hdistinct
      rw [find?_cons]
      rcases List.mem_cons.mp hmem with rfl | hmem
      · rw [if_pos rfl]
      · rw [if_neg, ih hrest hmem]
        intro heq
        exact find?_eq_none_iff.mp hfresh entry hmem heq.symm

/-- Where no key repeats the order of the entries does not matter. -/
theorem Distinct.find?_eq_of_perm {others : Entries α} (hdistinct : entries.Distinct)
    (hperm : entries.Perm others) (key : String) : entries.find? key = others.find? key := by
  have hdistinct' : others.Distinct := by
    rw [distinct_iff_nodup] at hdistinct ⊢
    exact (hperm.map Prod.fst).nodup_iff.mp hdistinct
  ext value
  constructor
  · intro hfound
    exact hdistinct'.find?_of_mem (hperm.mem_iff.mp (mem_of_find? hfound))
  · intro hfound
    exact hdistinct.find?_of_mem (hperm.mem_iff.mpr (mem_of_find? hfound))

theorem Distinct.put (hdistinct : entries.Distinct) (key : String) (value : α) :
    (entries.put key value).Distinct := by
  rw [distinct_iff_nodup] at hdistinct ⊢
  rw [keys_put]
  split
  · rwa [List.append_nil]
  · rename_i hkey
    have hfresh := find?_eq_none_iff_notMem.mp (has_eq_false_iff.mp (by simpa using hkey))
    refine List.nodup_append'.mpr ⟨hdistinct, List.nodup_singleton key, ?_⟩
    rwa [List.disjoint_singleton]

theorem Distinct.replace (hdistinct : entries.Distinct) (key : String) (value : α) :
    (entries.replace key value).Distinct := by
  rw [distinct_iff_nodup] at hdistinct ⊢
  rwa [keys_replace]

theorem Distinct.modify (hdistinct : entries.Distinct) (position : Nat) (value : α) :
    Distinct (entries.modify position fun entry => (entry.1, value)) := by
  rw [distinct_iff_nodup] at hdistinct ⊢
  rwa [keys_modify]

/-! ### First occurrences -/

theorem distinct_firsts (entries : Entries α) : entries.firsts.Distinct := pairwise_firsts entries

/-- Where no key is repeated every occurrence is a first one. -/
theorem Distinct.firsts_eq (hdistinct : entries.Distinct) : entries.firsts = entries := by
  induction entries with
  | nil => rfl
  | cons entry rest ih =>
      obtain ⟨hfresh, hrest⟩ := distinct_cons.mp hdistinct
      rw [firsts, ih hrest, Entries.erase, List.filter_eq_self.mpr]
      simpa using find?_eq_none_iff.mp hfresh

@[simp]
theorem find?_firsts (key : String) (entries : Entries α) :
    entries.firsts.find? key = entries.find? key := by
  induction entries with
  | nil => rfl
  | cons entry rest ih =>
      rw [firsts, find?_cons, find?_cons, find?_erase, ih]
      by_cases hkey : entry.1 = key
      · simp [hkey]
      · simp [hkey, Ne.symm hkey]

@[simp]
theorem has_firsts (key : String) (entries : Entries α) : entries.firsts.has key = entries.has key := by
  rw [has, has, find?_firsts]

/-! ### The entries that count -/

/-- Sorting moves an entry only across entries with other keys. -/
@[simp]
theorem find?_sorted (key : String) (entries : Entries α) :
    entries.sorted.find? key = entries.find? key := by
  induction entries with
  | nil => rw [sorted, List.mergeSort_nil]
  | cons entry rest ih =>
      obtain ⟨front, back, hcons, hrest, hfront⟩ := List.mergeSort_cons keyLe_trans keyLe_total entry rest
      rw [sorted, hrest, find?_append] at ih
      rw [sorted, hcons, find?_append, find?_cons, find?_cons, ← ih]
      by_cases hkey : entry.1 = key
      · -- what stands in front of the entry has a smaller key
        have hnone : find? key front = none := by
          rw [find?_eq_none_iff]
          rintro other hother rfl
          have hle : ¬entry.1 ≤ other.1 := by simpa [keyLe] using hfront other hother
          exact hle (hkey ▸ String.le_refl _)
        rw [if_pos hkey, hnone, Option.none_or, if_pos hkey]
      · rw [if_neg hkey, if_neg hkey]

theorem perm_sorted (entries : Entries α) : entries.sorted.Perm entries := List.mergeSort_perm entries keyLe

/-- Entries that are in order stay where they are. -/
theorem sorted_eq_self (hsorted : entries.Pairwise fun first second => first.1 ≤ second.1) :
    entries.sorted = entries :=
  List.mergeSort_of_pairwise (hsorted.imp decide_eq_true)

/-- The keys alone say in which order the entries stand. -/
theorem sorted_map (f : α → β) (entries : Entries α) :
    sorted (entries.map fun entry => (entry.1, f entry.2)) =
      entries.sorted.map fun entry => (entry.1, f entry.2) := by
  rw [sorted, sorted, List.map_mergeSort]
  exact fun _ _ _ _ => rfl

theorem find?_dropRepeats_after {previous : String} (hne : previous ≠ key) (entries : Entries α) :
    (dropRepeats.after previous entries).find? key = entries.find? key := by
  induction entries generalizing previous with
  | nil => rfl
  | cons entry rest ih =>
      unfold dropRepeats.after
      split
      · rename_i hprevious
        rw [ih hne, find?_cons, if_neg fun hentry => hne (hprevious.symm.trans hentry)]
      · rw [find?_cons, find?_cons]
        split
        · rfl
        · rename_i hentry
          exact ih hentry

@[simp]
theorem find?_dropRepeats (key : String) (entries : Entries α) :
    entries.dropRepeats.find? key = entries.find? key := by
  cases entries with
  | nil => rfl
  | cons entry rest =>
      rw [dropRepeats, find?_cons, find?_cons]
      split
      · rfl
      · rename_i hentry
        exact find?_dropRepeats_after hentry rest

/-- Once the keys are ascending, those with the same key are neighbours and only one of them is kept. -/
theorem pairwise_lt_dropRepeats_after {previous : String}
    (hsorted : entries.Pairwise fun first second => first.1 ≤ second.1)
    (hprevious : ∀ entry ∈ entries, previous ≤ entry.1) :
    (dropRepeats.after previous entries).Pairwise (fun first second => first.1 < second.1) ∧
      ∀ entry ∈ dropRepeats.after previous entries, previous < entry.1 := by
  induction entries generalizing previous with
  | nil => simp [dropRepeats.after]
  | cons entry rest ih =>
      obtain ⟨hentry, hrest⟩ := List.pairwise_cons.mp hsorted
      obtain ⟨hle, hlater⟩ := List.forall_mem_cons.mp hprevious
      unfold dropRepeats.after
      split
      · exact ih hrest hlater
      · rename_i hne
        obtain ⟨hpairwise, habove⟩ := ih hrest hentry
        have hlt : previous < entry.1 := String.not_le.mp fun hge => hne (String.le_antisymm hge hle)
        refine ⟨List.pairwise_cons.mpr ⟨habove, hpairwise⟩,
          List.forall_mem_cons.mpr ⟨hlt, fun other hother => ?_⟩⟩
        exact String.lt_trans hlt (habove other hother)

theorem pairwise_lt_dropRepeats (hsorted : entries.Pairwise fun first second => first.1 ≤ second.1) :
    entries.dropRepeats.Pairwise fun first second => first.1 < second.1 := by
  cases entries with
  | nil => exact List.Pairwise.nil
  | cons entry rest =>
      obtain ⟨hentry, hrest⟩ := List.pairwise_cons.mp hsorted
      obtain ⟨hpairwise, habove⟩ := pairwise_lt_dropRepeats_after hrest hentry
      exact List.pairwise_cons.mpr ⟨habove, hpairwise⟩

theorem pairwise_counted (entries : Entries α) :
    entries.counted.Pairwise fun first second => first.1 < second.1 :=
  pairwise_lt_dropRepeats (pairwise_le_sorted entries)

/-- The first occurrences are those that count. -/
theorem mem_counted_iff {entry : String × α} :
    entry ∈ entries.counted ↔ entries.find? entry.1 = some entry.2 := by
  have hdistinct : entries.counted.Distinct := by
    refine List.Pairwise.imp ?_ (pairwise_counted entries)
    intro first second hlt heq
    rw [heq] at hlt
    exact String.lt_irrefl second.1 hlt
  have hfind : entries.counted.find? entry.1 = entries.find? entry.1 := by
    rw [counted, find?_dropRepeats, find?_sorted]
  rw [← hfind]
  exact ⟨hdistinct.find?_of_mem, mem_of_find?⟩

theorem mem_of_mem_counted {entry : String × α} (hmem : entry ∈ entries.counted) : entry ∈ entries :=
  mem_of_find? (mem_counted_iff.mp hmem)

/-- Where no key repeats and the keys are in order, all entries count. -/
theorem Distinct.counted_eq_self (hdistinct : entries.Distinct)
    (hsorted : entries.Pairwise fun first second => first.1 ≤ second.1) : entries.counted = entries := by
  have hascending : entries.Pairwise fun first second => first.1 < second.1 := by
    refine hsorted.imp₂ ?_ hdistinct
    intro first second hle hne
    exact String.not_le.mp fun hge => hne (String.le_antisymm hle hge)
  refine (pairwise_counted entries).eq_of_mem_iff hascending fun entry => ?_
  rw [mem_counted_iff]
  exact ⟨mem_of_find?, hdistinct.find?_of_mem⟩

/-- **Only the look-ups count.** The entries that count are the same in two lists exactly when every key
finds the same in both. -/
theorem counted_eq_iff {first second : Entries α} :
    first.counted = second.counted ↔ ∀ key, first.find? key = second.find? key := by
  constructor
  · intro heq key
    ext value
    have hmem (entries : Entries α) :
        entries.find? key = some value ↔ (key, value) ∈ entries.counted := by
      rw [mem_counted_iff]
    rw [hmem, hmem, heq]
  · intro hfind
    -- strictly ascending lists are determined by their members
    refine (pairwise_counted first).eq_of_mem_iff (pairwise_counted second) fun entry => ?_
    rw [mem_counted_iff, mem_counted_iff, hfind]

/-- The keys alone say which entries count, and in which order. -/
theorem counted_map (f : α → β) (entries : Entries α) :
    counted (entries.map fun entry => (entry.1, f entry.2)) =
      entries.counted.map fun entry => (entry.1, f entry.2) := by
  refine (pairwise_counted _).eq_of_mem_iff ((pairwise_counted entries).map _ fun _ _ hlt => hlt)
    fun entry => ?_
  rw [mem_counted_iff, find?_map, Option.map_eq_some_iff, List.mem_map]
  constructor
  · rintro ⟨value, hfound, hvalue⟩
    exact ⟨(entry.1, value), mem_counted_iff.mpr hfound, by rw [hvalue]⟩
  · rintro ⟨pair, hpair, rfl⟩
    exact ⟨pair.2, mem_counted_iff.mp hpair, rfl⟩

end Entries

end JsonEdit
