/-!
# Entries

The entries of an object are a list of keys with values, in the order in which they are written. A
key may occur more than once; then its first occurrence is the one that counts. Entries are written
in place: a key keeps its position when its value changes.
-/

namespace JsonEdit

abbrev Entries (α : Type) := List (String × α)

namespace Entries

variable {α : Type}

def find? (key : String) : Entries α → Option α
  | [] => none
  | (other, value) :: rest => if other = key then some value else find? key rest

def has (key : String) (entries : Entries α) : Bool := (entries.find? key).isSome

def replace (key : String) (value : α) : Entries α → Entries α
  | [] => []
  | (other, old) :: rest =>
    if other = key then (other, value) :: rest else (other, old) :: replace key value rest

/-- The entries with a value for a key: at its first occurrence, or else at the end. -/
def put (key : String) (value : α) (entries : Entries α) : Entries α :=
  if entries.has key then entries.replace key value else entries ++ [(key, value)]

def erase (key : String) (entries : Entries α) : Entries α :=
  entries.filter fun (other, _) => other ≠ key

def firsts : Entries α → Entries α
  | [] => []
  | (key, value) :: rest => (key, value) :: erase key (firsts rest)

def keyLe (first second : String × α) : Bool := first.1 ≤ second.1

/-- The entries in the order of their keys. Entries with the same key keep their order. -/
def sorted (entries : Entries α) : Entries α := entries.mergeSort keyLe

def dropRepeats : Entries α → Entries α
  | [] => []
  | (key, value) :: rest => (key, value) :: after key rest
where
  after (previous : String) : Entries α → Entries α
    | [] => []
    | (key, value) :: rest =>
      if key = previous then after previous rest else (key, value) :: after key rest

/-- The entries that count when objects are compared, in the order of their keys. Of the entries with
one key the first stays in front. -/
def counted (entries : Entries α) : Entries α := entries.sorted.dropRepeats

/-! ### Keys in order -/

theorem keyLe_trans (first second third : String × α) (hfirst : keyLe first second)
    (hsecond : keyLe second third) : keyLe first third :=
  decide_eq_true (String.le_trans (of_decide_eq_true hfirst) (of_decide_eq_true hsecond))

theorem keyLe_total (first second : String × α) : keyLe first second || keyLe second first := by
  rw [Bool.or_eq_true, keyLe, keyLe, decide_eq_true_eq, decide_eq_true_eq]
  exact String.le_total first.1 second.1

theorem pairwise_le_sorted (entries : Entries α) :
    entries.sorted.Pairwise fun first second => first.1 ≤ second.1 :=
  (List.pairwise_mergeSort keyLe_trans keyLe_total entries).imp of_decide_eq_true

theorem mem_of_mem_firsts {entry : String × α} {entries : Entries α}
    (hmem : entry ∈ entries.firsts) : entry ∈ entries := by
  induction entries with
  | nil => cases hmem
  | cons next rest ih =>
      rcases List.mem_cons.mp hmem with rfl | hmem
      · exact List.mem_cons_self
      · exact List.mem_cons_of_mem _ (ih (List.mem_filter.mp hmem).1)

/-- The first occurrences have different keys. -/
theorem pairwise_firsts (entries : Entries α) :
    entries.firsts.Pairwise fun first second => first.1 ≠ second.1 := by
  induction entries with
  | nil => exact List.Pairwise.nil
  | cons entry rest ih =>
      refine List.pairwise_cons.mpr ⟨?_, ih.filter _⟩
      intro other hother
      have hne : other.1 ≠ entry.1 := by simpa using (List.mem_filter.mp hother).2
      exact hne.symm

/-- Entries with different keys are sorted into strictly ascending order. -/
theorem pairwise_sorted {entries : Entries α}
    (hdistinct : entries.Pairwise fun first second => first.1 ≠ second.1) :
    entries.sorted.Pairwise fun first second => first.1 < second.1 := by
  have hne : entries.sorted.Pairwise fun first second => first.1 ≠ second.1 :=
    ((List.mergeSort_perm entries _).pairwise_iff Ne.symm).mpr hdistinct
  refine (pairwise_le_sorted entries).imp₂ ?_ hne
  intro first second hle hne
  exact String.not_le.mp fun hge => hne (String.le_antisymm hle hge)

end Entries

structure SortedEntries (α : Type) where
  entries : Entries α
  ascending : entries.Pairwise fun first second => first.1 < second.1

def SortedEntries.ofEntries {α : Type} (entries : Entries α) : SortedEntries α where
  entries := entries.firsts.sorted
  ascending := Entries.pairwise_sorted (Entries.pairwise_firsts entries)

end JsonEdit
