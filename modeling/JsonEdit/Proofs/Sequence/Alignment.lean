import JsonEdit.Sequence.Run
import Mathlib.Data.List.Forall2

/-!
# Runs that fit two sequences

Runs align two sequences if replaying them uses up both: kept items stand at the same place of both and
are the same in the sense of `same`, deleted items are taken from the first sequence and inserted ones
from the second. Joining neighbours of one kind, leaving out empty runs and putting the deletions of a
change first do not disturb an alignment, and neither does the grouping of runs into blocks.
-/

namespace JsonEdit

namespace Run

variable {α β : Type} (same : α → β → Prop)

/-- The runs lead through both sequences. -/
def Aligns : List Run → List α → List β → Prop
  | [], a, b => a = [] ∧ b = []
  | .keep count :: rest, a, b =>
    count ≤ a.length ∧ count ≤ b.length ∧ List.Forall₂ same (a.take count) (b.take count) ∧
      Aligns rest (a.drop count) (b.drop count)
  | .delete count :: rest, a, b => count ≤ a.length ∧ Aligns rest (a.drop count) b
  | .insert count :: rest, a, b => count ≤ b.length ∧ Aligns rest a (b.drop count)

variable {same} {runs more : List Run} {a a' : List α} {b b' : List β}

theorem aligns_append (hfront : Aligns same runs a b) (hback : Aligns same more a' b') :
    Aligns same (runs ++ more) (a ++ a') (b ++ b') := by
  induction runs generalizing a b with
  | nil =>
      obtain ⟨rfl, rfl⟩ := hfront
      exact hback
  | cons run rest ih =>
      cases run with
      | keep count =>
          obtain ⟨ha, hb, hsame, hrest⟩ := hfront
          refine ⟨by rw [List.length_append]; omega, by rw [List.length_append]; omega, ?_, ?_⟩
          · rwa [List.take_append_of_le_length ha, List.take_append_of_le_length hb]
          · rw [List.drop_append_of_le_length ha, List.drop_append_of_le_length hb]
            exact ih hrest
      | delete count =>
          obtain ⟨ha, hrest⟩ := hfront
          refine ⟨by rw [List.length_append]; omega, ?_⟩
          rw [List.drop_append_of_le_length ha]
          exact ih hrest
      | insert count =>
          obtain ⟨hb, hrest⟩ := hfront
          refine ⟨by rw [List.length_append]; omega, ?_⟩
          rw [List.drop_append_of_le_length hb]
          exact ih hrest

/-- Everything is kept. -/
theorem aligns_keep (hsame : List.Forall₂ same a b) : Aligns same [.keep a.length] a b := by
  have hlength := hsame.length_eq
  refine ⟨Nat.le_refl _, Nat.le_of_eq hlength, ?_, by simp, by simp [hlength]⟩
  rwa [List.take_length, hlength, List.take_length]

/-- Everything is deleted and inserted. -/
theorem aligns_replaceAll (a : List α) (b : List β) :
    Aligns same (replaceAll a.length b.length) a b :=
  ⟨Nat.le_refl _, Nat.le_refl _, List.drop_length, List.drop_length⟩

theorem aligns_of_size_eq_zero {run : Run} (hsize : run.size = 0)
    (haligns : Aligns same (run :: runs) a b) : Aligns same runs a b := by
  cases run with
  | keep count =>
      cases (show count = 0 from hsize)
      exact haligns.2.2.2
  | delete count =>
      cases (show count = 0 from hsize)
      exact haligns.2
  | insert count =>
      cases (show count = 0 from hsize)
      exact haligns.2

/-- Joining a run with the next one of its kind keeps the alignment. -/
theorem aligns_cons {run : Run} (haligns : Aligns same (run :: runs) a b) :
    Aligns same (cons run runs) a b := by
  unfold cons
  split
  · rename_i hsize
    exact aligns_of_size_eq_zero hsize haligns
  · split
    · obtain ⟨ha, hb, hsame, ha', hb', hsame', hrest⟩ := haligns
      rw [List.length_drop] at ha' hb'
      refine ⟨by omega, by omega, ?_, ?_⟩
      · rw [List.take_add, List.take_add]
        exact List.rel_append hsame hsame'
      · rwa [List.drop_drop, List.drop_drop] at hrest
    · obtain ⟨ha, ha', hrest⟩ := haligns
      rw [List.length_drop] at ha'
      refine ⟨by omega, ?_⟩
      rwa [List.drop_drop] at hrest
    · obtain ⟨hb, hb', hrest⟩ := haligns
      rw [List.length_drop] at hb'
      refine ⟨by omega, ?_⟩
      rwa [List.drop_drop] at hrest
    · exact haligns

theorem aligns_normalize (haligns : Aligns same runs a b) : Aligns same (normalize runs) a b := by
  induction runs generalizing a b with
  | nil => exact haligns
  | cons run rest ih =>
      refine aligns_cons ?_
      cases run with
      | keep count => exact ⟨haligns.1, haligns.2.1, haligns.2.2.1, ih haligns.2.2.2⟩
      | delete count => exact ⟨haligns.1, ih haligns.2⟩
      | insert count => exact ⟨haligns.1, ih haligns.2⟩

/-- Deletions and insertions of one change do not depend on each other. -/
theorem aligns_gather {deleted inserted : Nat} (ha : deleted ≤ a.length) (hb : inserted ≤ b.length)
    (haligns : Aligns same runs (a.drop deleted) (b.drop inserted)) :
    Aligns same (gather deleted inserted runs) a b := by
  induction runs generalizing a b deleted inserted with
  | nil =>
      obtain ⟨ha', hb'⟩ := haligns
      exact ⟨ha, hb, ha', hb'⟩
  | cons run rest ih =>
      cases run with
      | keep count =>
          obtain ⟨hcount, hcount', hsame, hrest⟩ := haligns
          exact ⟨ha, hb, hcount, hcount', hsame, ih (Nat.zero_le _) (Nat.zero_le _) hrest⟩
      | delete count =>
          obtain ⟨hcount, hrest⟩ := haligns
          rw [List.length_drop] at hcount
          rw [List.drop_drop] at hrest
          exact ih (by omega) hb hrest
      | insert count =>
          obtain ⟨hcount, hrest⟩ := haligns
          rw [List.length_drop] at hcount
          rw [List.drop_drop] at hrest
          exact ih ha (by omega) hrest

end Run

namespace Block

variable {α β : Type} (same : α → β → Prop)

def Aligns : List Block → List α → List β → Prop
  | [], a, b => a = [] ∧ b = []
  | .keep count :: rest, a, b =>
    count ≤ a.length ∧ count ≤ b.length ∧ List.Forall₂ same (a.take count) (b.take count) ∧
      Aligns rest (a.drop count) (b.drop count)
  | .change deleted inserted :: rest, a, b =>
    deleted ≤ a.length ∧ inserted ≤ b.length ∧ Aligns rest (a.drop deleted) (b.drop inserted)

variable {same}

theorem aligns_ofRuns {runs : List Run} {a : List α} {b : List β} (haligns : Run.Aligns same runs a b) :
    Aligns same (ofRuns runs) a b := by
  induction runs using ofRuns.induct generalizing a b with
  | case1 => exact haligns
  | case2 count rest ih =>
      obtain ⟨ha, hb, hsame, hrest⟩ := haligns
      exact ⟨ha, hb, hsame, ih hrest⟩
  | case3 deleted inserted rest ih =>
      obtain ⟨ha, hb, hrest⟩ := haligns
      exact ⟨ha, hb, ih hrest⟩
  | case4 deleted rest hrest ih =>
      obtain ⟨ha, haligns⟩ := haligns
      rw [ofRuns]
      · exact ⟨ha, Nat.zero_le _, ih haligns⟩
      · exact hrest
  | case5 inserted rest ih =>
      obtain ⟨hb, haligns⟩ := haligns
      exact ⟨Nat.zero_le _, hb, ih haligns⟩

/-- An alignment of images. -/
theorem aligns_map_iff {γ δ : Type} {f : γ → α} {g : δ → β} {blocks : List Block} {a : List γ}
    {b : List δ} :
    Aligns same blocks (a.map f) (b.map g) ↔ Aligns (fun u v => same (f u) (g v)) blocks a b := by
  induction blocks generalizing a b with
  | nil => simp [Aligns]
  | cons block rest ih =>
      cases block with
      | keep count =>
          rw [Aligns, Aligns, List.length_map, List.length_map, ← List.map_take, ← List.map_take,
            ← List.map_drop, ← List.map_drop, ih, List.forall₂_map_left_iff,
            List.forall₂_map_right_iff]
      | change deleted inserted =>
          rw [Aligns, Aligns, List.length_map, List.length_map, ← List.map_drop, ← List.map_drop, ih]

end Block

end JsonEdit
