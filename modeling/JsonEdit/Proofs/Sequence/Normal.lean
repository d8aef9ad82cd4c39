import JsonEdit.Proofs.Json.Equality
import JsonEdit.Proofs.Sequence.Search
import Mathlib.Data.List.Chain

/-!
# Runs in normal form, and what they rebuild

Runs that are put in front one by one are in normal form, as long as no insertion comes to stand before
a deletion. The runs of a change are gathered, its deletions first, and between two changes something is
kept, because the way back through the rounds records no empty stretch. So the runs between two sequences
are in normal form.

They align the sequences, so replaying them rebuilds the second sequence: from the items that they keep
of the first one, and from the items of the second one that stand in insertions.
-/

namespace JsonEdit

namespace Run

variable {α β : Type} {runs rest : List Run}

/-! ### Normal form -/

/-- The first run may stand directly before the second one: they are of two kinds, and an insertion does
not come before a deletion. -/
def Precedes : Run → Run → Prop
  | .keep _, .delete _ | .keep _, .insert _ => True
  | .delete _, .keep _ | .delete _, .insert _ => True
  | .insert _, .keep _ => True
  | _, _ => False

/-- No run is empty, no two neighbours are of one kind, and no insertion stands directly before a
deletion. -/
structure Normal (runs : List Run) : Prop where
  size_ne_zero : ∀ run ∈ runs, run.size ≠ 0
  precedes : runs.IsChain Precedes

def OpensWithDeletion : List Run → Prop
  | .delete _ :: _ => True
  | _ => False

theorem normal_nil : Normal [] := ⟨by simp, .nil⟩

theorem Normal.of_cons {run : Run} (hnormal : Normal (run :: rest)) : Normal rest :=
  ⟨fun other hother => hnormal.size_ne_zero other (List.mem_cons_of_mem run hother),
    hnormal.precedes.tail⟩

theorem Normal.cons_of_precedes {run : Run} (hnormal : Normal runs) (hsize : run.size ≠ 0)
    (hprecedes : ∀ next ∈ runs.head?, Precedes run next) : Normal (run :: runs) := by
  refine ⟨?_, List.isChain_cons.mpr ⟨hprecedes, hnormal.precedes⟩⟩
  intro other hother
  rcases List.mem_cons.mp hother with rfl | hother
  · exact hsize
  · exact hnormal.size_ne_zero other hother

/-- Only the kind of the first run matters for what may stand behind it. -/
theorem Normal.enlarge {run larger : Run} (hnormal : Normal (run :: rest)) (hsize : larger.size ≠ 0)
    (hkind : ∀ next, Precedes run next → Precedes larger next) : Normal (larger :: rest) :=
  hnormal.of_cons.cons_of_precedes hsize fun next hnext =>
    hkind next ((List.isChain_cons.mp hnormal.precedes).1 next hnext)

/-- A run put in front keeps the normal form, unless it is an insertion before a deletion. -/
theorem normal_cons {run : Run} (hnormal : Normal runs)
    (hrun : (∃ count, run = .insert count) → ¬OpensWithDeletion runs) : Normal (cons run runs) := by
  unfold cons
  split
  · exact hnormal
  · rename_i hsize
    split
    · exact hnormal.enlarge (by simp only [size] at hsize ⊢; omega) (fun next hnext => by
        cases next <;> exact hnext)
    · exact hnormal.enlarge (by simp only [size] at hsize ⊢; omega) (fun next hnext => by
        cases next <;> exact hnext)
    · exact hnormal.enlarge (by simp only [size] at hsize ⊢; omega) (fun next hnext => by
        cases next <;> exact hnext)
    · rename_i hkeep hdelete hinsert
      refine hnormal.cons_of_precedes hsize fun next hnext => ?_
      obtain ⟨rest, rfl⟩ : ∃ rest, runs = next :: rest := by
        cases runs with
        | nil => cases hnext
        | cons first rest => exact ⟨rest, by cases hnext; rfl⟩
      cases run with
      | keep count =>
          cases next with
          | keep more => exact hkeep count more rest rfl rfl
          | delete more => exact trivial
          | insert more => exact trivial
      | delete count =>
          cases next with
          | keep more => exact trivial
          | delete more => exact hdelete count more rest rfl rfl
          | insert more => exact trivial
      | insert count =>
          cases next with
          | keep more => exact trivial
          | delete more => exact hrun ⟨count, rfl⟩ trivial
          | insert more => exact hinsert count more rest rfl rfl

theorem not_opensWithDeletion_cons_keep {count : Nat} (hrest : count = 0 → ¬OpensWithDeletion runs) :
    ¬OpensWithDeletion (cons (.keep count) runs) := by
  unfold cons
  split
  · rename_i hsize
    exact hrest hsize
  · split <;> simp_all [OpensWithDeletion]

/-- Changes that are gathered keep the normal form, if something is kept between them. -/
theorem normal_gather {deleted inserted : Nat} {changes : List Run}
    (hchanges : ∀ run ∈ changes, run.size ≠ 0) (hnormal : Normal rest)
    (hrest : ¬OpensWithDeletion rest) :
    Normal ((gather deleted inserted changes).foldr cons rest) := by
  have hchange : ∀ {deleted inserted : Nat} {runs : List Run}, Normal runs → ¬OpensWithDeletion runs →
      Normal (cons (.delete deleted) (cons (.insert inserted) runs)) := fun hruns hopens =>
    normal_cons (normal_cons hruns fun _ => hopens) (by simp)
  induction changes generalizing deleted inserted with
  | nil => exact hchange hnormal hrest
  | cons run changes ih =>
      have hmore : ∀ other ∈ changes, other.size ≠ 0 := fun other hother =>
        hchanges other (List.mem_cons_of_mem run hother)
      cases run with
      | keep count =>
          have hcount : count ≠ 0 := hchanges (.keep count) List.mem_cons_self
          exact hchange (normal_cons (ih hmore) (by simp))
            (not_opensWithDeletion_cons_keep fun hzero => absurd hzero hcount)
      | delete count => exact ih hmore
      | insert count => exact ih hmore

theorem size_ne_zero_cons {run : Run} (hruns : ∀ other ∈ runs, other.size ≠ 0) :
    ∀ other ∈ cons run runs, other.size ≠ 0 := by
  unfold cons
  split
  · exact hruns
  · rename_i hsize
    split <;> simp_all [size]

end Run

namespace Frontier

variable {α : Type} [BEq α]

theorem size_ne_zero_walkBack {x y : Int} {runs result : List Run} {trace : List Frontier}
    (hruns : ∀ run ∈ runs, run.size ≠ 0) (hwalk : walkBack x y runs trace = some result) :
    ∀ run ∈ result, run.size ≠ 0 := by
  induction trace generalizing x y runs with
  | nil =>
      cases hwalk
      exact hruns
  | cons frontier earlier ih =>
      rw [walkBack] at hwalk
      obtain ⟨above, -, hwalk⟩ := Option.bind_eq_some_iff.mp hwalk
      obtain ⟨fromX, -, hwalk⟩ := Option.bind_eq_some_iff.mp hwalk
      refine ih ?_ hwalk
      split
      · exact Run.size_ne_zero_cons hruns
      · generalize (if above then x - y + 1 else x - y - 1) = from'
        split
        · exact Run.size_ne_zero_cons (Run.size_ne_zero_cons hruns)
        · exact Run.size_ne_zero_cons (Run.size_ne_zero_cons hruns)

theorem size_ne_zero_search {a b : Array α} {rounds d : Nat} {trace : List Frontier}
    {frontier : Frontier} {result : List Run}
    (hsearch : search a b rounds d trace frontier = some (.found result)) :
    ∀ run ∈ result, run.size ≠ 0 := by
  induction rounds generalizing d trace frontier with
  | zero => cases hsearch
  | succ rounds ih =>
      rw [search] at hsearch
      split at hsearch
      · cases hsearch
      · obtain ⟨⟨next, arrived⟩, -, hsearch⟩ := Option.bind_eq_some_iff.mp hsearch
        cases arrived with
        | false => exact ih hsearch
        | true =>
            obtain ⟨runs, hwalk, hresult⟩ := Option.bind_eq_some_iff.mp hsearch
            cases hresult
            exact size_ne_zero_walkBack (by simp) hwalk

end Frontier

namespace Run

variable {α : Type} [BEq α]

theorem exists_betweenMiddles_eq_gather (a b : Array α) :
    ∃ deleted inserted changes, betweenMiddles a b = gather deleted inserted changes ∧
      ∀ run ∈ changes, run.size ≠ 0 := by
  have hreplace : replaceAll a.size b.size = gather a.size b.size [] := rfl
  unfold betweenMiddles
  split
  · exact ⟨_, _, [], hreplace, by simp⟩
  · split
    · rename_i changes hsearch
      exact ⟨0, 0, changes, rfl, Frontier.size_ne_zero_search hsearch⟩
    · exact ⟨_, _, [], hreplace, by simp⟩

/-- The number of items that two sequences end with in common behind their common beginning. -/
def commonEnd (a b : List α) : Nat :=
  commonPrefix (a.drop (commonPrefix a b)).reverse (b.drop (commonPrefix a b)).reverse

def middles (a b : List α) : List α × List α :=
  (middle a, middle b)
where
  middle (items : List α) : List α :=
    let rest := items.drop (commonPrefix a b)
    rest.take (rest.length - commonEnd a b)

theorem between_eq (a b : List α) :
    between a b = cons (.keep (commonPrefix a b))
      ((betweenMiddles (middles a b).1.toArray (middles a b).2.toArray).foldr cons
        (cons (.keep (commonEnd a b)) [])) := by
  change normalize (_ :: _ ++ [_]) = _
  rw [normalize, List.foldr_append, List.foldr_cons]
  rfl

/-- **A comparison is in normal form.** -/
theorem normal_between (a b : List α) : Normal (between a b) := by
  obtain ⟨deleted, inserted, changes, hmiddle, hchanges⟩ :=
    exists_betweenMiddles_eq_gather (middles a b).1.toArray (middles a b).2.toArray
  rw [between_eq, hmiddle]
  refine normal_cons (normal_gather hchanges (normal_cons normal_nil (by simp)) ?_) (by simp)
  exact not_opensWithDeletion_cons_keep fun _ => id

end Run

/-! ### Replaying -/

namespace Run

variable {α : Type} {same : α → α → Prop} {runs : List Run} {a b : List α}

def insertions : List Run → List α → List α
  | [], _ => []
  | .keep count :: rest, b => insertions rest (b.drop count)
  | .delete _ :: rest, b => insertions rest b
  | .insert count :: rest, b => b.take count ++ insertions rest (b.drop count)

/-- Replayed with the items of the second sequence that stand in insertions, the runs use up the first
sequence and give one that is the same as the second, item by item. -/
def Rebuilds (same : α → α → Prop) (runs : List Run) (a b : List α) : Prop :=
  ∃ rebuilt, replay? runs a (insertions runs b) = some rebuilt ∧ List.Forall₂ same rebuilt b

theorem replay?_keep_eq_some_iff {count : Nat} {inserted rebuilt : List α} :
    replay? (.keep count :: runs) a inserted = some rebuilt ↔
      count ≤ a.length ∧ ∃ more, replay? runs (a.drop count) inserted = some more ∧
        a.take count ++ more = rebuilt := by
  rw [replay?]
  split
  · rename_i hshort
    simp [hshort]
  · rename_i hlong
    rw [Option.map_eq_some_iff, and_iff_right (Nat.le_of_not_lt hlong)]

theorem replay?_delete_eq_some_iff {count : Nat} {inserted rebuilt : List α} :
    replay? (.delete count :: runs) a inserted = some rebuilt ↔
      count ≤ a.length ∧ replay? runs (a.drop count) inserted = some rebuilt := by
  rw [replay?]
  split
  · rename_i hshort
    simp [hshort]
  · rename_i hlong
    rw [and_iff_right (Nat.le_of_not_lt hlong)]

theorem replay?_insert_eq_some_iff {count : Nat} {inserted rebuilt : List α} :
    replay? (.insert count :: runs) a inserted = some rebuilt ↔
      count ≤ inserted.length ∧ ∃ more, replay? runs a (inserted.drop count) = some more ∧
        inserted.take count ++ more = rebuilt := by
  rw [replay?]
  split
  · rename_i hshort
    simp [hshort]
  · rename_i hlong
    rw [Option.map_eq_some_iff, and_iff_right (Nat.le_of_not_lt hlong)]

/-- Aligned runs rebuild the second sequence from the first. -/
theorem Aligns.rebuilds (hrefl : ∀ item, same item item) (haligns : Aligns same runs a b) :
    Rebuilds same runs a b := by
  induction runs generalizing a b with
  | nil =>
      obtain ⟨rfl, rfl⟩ := haligns
      exact ⟨[], rfl, .nil⟩
  | cons run rest ih =>
      cases run with
      | keep count =>
          obtain ⟨ha, -, hsame, hrest⟩ := haligns
          obtain ⟨rebuilt, hreplay, hforall⟩ := ih hrest
          refine ⟨a.take count ++ rebuilt,
            replay?_keep_eq_some_iff.mpr ⟨ha, rebuilt, hreplay, rfl⟩, ?_⟩
          rw [← List.take_append_drop count b]
          exact List.rel_append hsame hforall
      | delete count =>
          obtain ⟨ha, hrest⟩ := haligns
          obtain ⟨rebuilt, hreplay, hforall⟩ := ih hrest
          exact ⟨rebuilt, replay?_delete_eq_some_iff.mpr ⟨ha, hreplay⟩, hforall⟩
      | insert count =>
          obtain ⟨hb, hrest⟩ := haligns
          obtain ⟨rebuilt, hreplay, hforall⟩ := ih hrest
          have hlength : (b.take count).length = count := List.length_take_of_le hb
          refine ⟨b.take count ++ rebuilt, ?_, ?_⟩
          · rw [insertions, replay?_insert_eq_some_iff, List.drop_left' hlength,
              List.take_left' hlength]
            exact ⟨by rw [List.length_append]; omega, rebuilt, hreplay, rfl⟩
          · conv_rhs => rw [← List.take_append_drop count b]
            exact List.rel_append (List.forall₂_same.mpr fun item _ => hrefl item) hforall

theorem insertions_nil (runs : List Run) : insertions runs ([] : List α) = [] := by
  induction runs with
  | nil => rfl
  | cons run rest ih => cases run <;> simp [insertions, ih]

/-- Runs that rebuild the second sequence align the two. -/
theorem Rebuilds.aligns (hrebuilds : Rebuilds same runs a b) : Aligns same runs a b := by
  induction runs generalizing a b with
  | nil =>
      obtain ⟨rebuilt, hreplay, hforall⟩ := hrebuilds
      cases a with
      | nil =>
          cases hreplay
          cases hforall
          exact ⟨rfl, rfl⟩
      | cons first a => cases hreplay
  | cons run rest ih =>
      obtain ⟨rebuilt, hreplay, hforall⟩ := hrebuilds
      cases run with
      | keep count =>
          obtain ⟨ha, more, hmore, rfl⟩ := replay?_keep_eq_some_iff.mp hreplay
          have hlength : (a.take count).length = count := List.length_take_of_le ha
          have hboth := hforall.length_eq
          rw [List.length_append, hlength] at hboth
          have htake := List.forall₂_take count hforall
          have hdrop := List.forall₂_drop count hforall
          rw [List.take_left' hlength] at htake
          rw [List.drop_left' hlength] at hdrop
          exact ⟨ha, by omega, htake, ih ⟨more, hmore, hdrop⟩⟩
      | delete count =>
          obtain ⟨ha, hmore⟩ := replay?_delete_eq_some_iff.mp hreplay
          exact ⟨ha, ih ⟨rebuilt, hmore, hforall⟩⟩
      | insert count =>
          obtain ⟨hinserted, more, hmore, rfl⟩ := replay?_insert_eq_some_iff.mp hreplay
          -- behind a second sequence that is too short nothing more is inserted
          have hb : count ≤ b.length := by
            by_contra hshort
            rw [insertions, List.drop_eq_nil_of_le (by omega), insertions_nil, List.append_nil,
              List.length_take] at hinserted
            omega
          have hlength : (b.take count).length = count := List.length_take_of_le hb
          rw [insertions, List.drop_left' hlength] at hmore
          rw [insertions, List.take_left' hlength] at hforall
          have hdrop := List.forall₂_drop count hforall
          rw [List.drop_left' hlength] at hdrop
          exact ⟨hb, ih ⟨more, hmore, hdrop⟩⟩

/-- **The runs between two sequences rebuild the second one**, if everything is the same as itself. They
lead through both sequences and keep only what is the same in both; replayed with the items of the second
sequence that stand in insertions they use up the first sequence and give one that is the same as the
second, item by item; and they are in normal form. -/
theorem between_rebuilds [BEq α] [ReflBEq α] (a b : List α) :
    Aligns (fun u v => u == v) (between a b) a b ∧
      Rebuilds (fun u v => u == v) (between a b) a b ∧ Normal (between a b) :=
  ⟨aligns_between a b, (aligns_between a b).rebuilds fun _ => BEq.rfl, normal_between a b⟩

/-- A kept number stays as the first sequence writes it. -/
theorem between_rebuilds_written :
    let one : Json := .number { whole := 1 }
    let tenths : Json := .number { whole := 1, fraction := [0] }
    let a : List Json := [one, .null, .bool true]
    let b : List Json := [tenths, .bool false, .null]
    let runs : List Run := [.keep 1, .insert 1, .keep 1, .delete 1]
    ReflBEq Json ∧ between a b = runs ∧ Aligns (fun u v => u == v) runs a b ∧
      replay? runs a [.bool false] = some [one, .bool false, .null] ∧
      List.Forall₂ (fun u v => u == v) [one, .bool false, .null] b ∧ Normal runs := by
  intro one tenths a b runs
  have hruns : between a b = runs := by decide +kernel
  have hrebuilds := between_rebuilds a b
  rw [hruns] at hrebuilds
  obtain ⟨haligns, ⟨rebuilt, hreplay, hforall⟩, hnormal⟩ := hrebuilds
  have hrebuilt : replay? runs a [.bool false] = some [one, .bool false, .null] := by
    simp [runs, a, replay?]
  cases hrebuilt.symm.trans hreplay
  exact ⟨inferInstance, hruns, haligns, hrebuilt, hforall, hnormal⟩

end Run

end JsonEdit
