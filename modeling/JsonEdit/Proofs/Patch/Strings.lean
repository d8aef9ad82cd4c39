import JsonEdit.Patch.Diff
import JsonEdit.Proofs.Patch.Strict
import JsonEdit.Proofs.Sequence.Search

/-!
# The difference of two strings

The edits of a string are done from left to right. What lies before the position of the next edit is
already the beginning of the second string, and what lies behind it is still the end of the first.
-/

namespace JsonEdit

namespace StringEdit

/-- The edit of one change replaces the deleted characters by the inserted ones. -/
theorem apply_ofChange (path : Path) (front chars text : List Char) {deleted : Nat}
    (hdeleted : deleted ≤ chars.length) :
    (if deleted = 0 then
        if front.length = (front ++ chars).length then StringEdit.append (String.ofList text)
        else .insert front.length (String.ofList text)
      else if text.length = 0 then .delete front.length deleted
      else .modify front.length deleted (String.ofList text)).apply path (front ++ chars) =
      .ok (front ++ text ++ chars.drop deleted) := by
  have hrange : ¬(front ++ chars).length < front.length + deleted := by
    rw [List.length_append]
    omega
  have htake : (front ++ chars).take front.length = front := List.take_left
  have hdrop : (front ++ chars).drop (front.length + deleted) = chars.drop deleted := by
    rw [← List.drop_drop, List.drop_left]
  split
  · rename_i hzero
    subst hzero
    rw [List.drop_zero]
    split
    · rename_i hend
      have hnil : chars = [] := by
        rw [List.length_append] at hend
        exact List.length_eq_zero_iff.mp (by omega)
      rw [apply, String.toList_ofList, hnil, List.append_nil, List.append_nil]
    · rw [apply, if_neg (by simp), SequenceEdit.insertAll, String.toList_ofList, htake,
        List.drop_left]
  · split
    · rename_i hempty
      rw [apply, if_neg hrange, SequenceEdit.replaceRange, htake, hdrop,
        List.length_eq_zero_iff.mp hempty]
    · rw [apply, if_neg hrange, SequenceEdit.replaceRange, htake, hdrop, String.toList_ofList]

/-- Edits that are made of an alignment produce the second string. -/
theorem applyAll_ofBlocks (path : Path) {blocks : List Block} {chars target : List Char}
    (haligns : Block.Aligns (fun u v : Char => u == v) blocks chars target) (front : List Char) :
    applyAll .strict path (ofBlocks target front.length (front ++ chars).length blocks)
      (front ++ chars) = .ok (front ++ target) := by
  induction blocks generalizing chars target front with
  | nil =>
      obtain ⟨rfl, rfl⟩ := haligns
      rfl
  | cons block rest ih =>
      cases block with
      | keep count =>
          obtain ⟨hchars, htarget, hsame, hrest⟩ := haligns
          have hkept : chars.take count = target.take count := by
            refine List.forall₂_eq_eq_eq ▸ hsame.imp fun u v huv => ?_
            exact eq_of_beq huv
          have hsplit := ih hrest (front ++ chars.take count)
          rw [List.append_assoc, List.take_append_drop, List.length_append, List.length_take,
            Nat.min_eq_left hchars] at hsplit
          rw [ofBlocks, hsplit, hkept, List.append_assoc, List.take_append_drop]
      | change deleted inserted =>
          obtain ⟨hchars, htarget, hrest⟩ := haligns
          have hedit := apply_ofChange path front chars (target.take inserted) hchars
          rw [List.length_take, Nat.min_eq_left htarget] at hedit
          have hlength : (front ++ chars).length - deleted + inserted =
              (front ++ target.take inserted ++ chars.drop deleted).length := by
            simp only [List.length_append, List.length_take, List.length_drop]
            omega
          have hposition : front.length + inserted = (front ++ target.take inserted).length := by
            rw [List.length_append, List.length_take, Nat.min_eq_left htarget]
          rw [ofBlocks, applyAll_cons, hedit, hlength, hposition]
          change applyAll _ _ _ _ = _
          rw [ih hrest, List.append_assoc, List.take_append_drop]

end StringEdit

namespace Operation

/-- **The difference of two strings** turns the first into the second. -/
theorem apply_betweenStrings (path : Path) (options : DiffOptions) (source target : String) :
    apply .strict path (betweenStrings options source target) (.string source) =
      .ok (.string target) := by
  unfold betweenStrings
  split
  · have haligns := Block.aligns_ofRuns (Run.aligns_between source.toList target.toList)
    have happlied := StringEdit.applyAll_ofBlocks path haligns []
    rw [List.nil_append, List.nil_append, List.length_nil, String.length_toList] at happlied
    rw [apply, happlied]
    exact congrArg _ (congrArg _ String.ofList_toList)
  · rw [apply, StringEdit.applyAll_cons, StringEdit.apply]
    rw [if_neg (by rw [String.length_toList]; omega), SequenceEdit.replaceRange,
      ← String.length_toList, Nat.zero_add, List.drop_length, List.append_nil]
    exact congrArg _ (congrArg _ String.ofList_toList)

end Operation

end JsonEdit
