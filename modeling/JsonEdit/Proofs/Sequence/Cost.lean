import JsonEdit.Proofs.Sequence.Normal

/-!
# What runs cost

The cost of runs is the number of items that they delete or insert. What aligned runs keep is a common
subsequence of the two sequences, and every common subsequence can be kept. So the more items two
sequences have in common, the less it costs to get from one to the other.

A common subsequence loses at most one item for each item that is dropped in front of both sequences, or
behind both. So nothing is lost by setting aside a common beginning and a common end.
-/

namespace JsonEdit.Run

variable {α β : Type} {same : α → β → Prop} {runs rest : List Run} {a : List α} {b : List β}
  {kept : List α} {kept' : List β}

/-- The number of items that are deleted or inserted. -/
def cost : List Run → Nat
  | [] => 0
  | .keep _ :: rest => cost rest
  | .delete count :: rest | .insert count :: rest => count + cost rest

theorem cost_cons (run : Run) (runs : List Run) : cost (cons run runs) = cost (run :: runs) := by
  unfold cons
  split
  · rename_i hsize
    cases run <;> simp only [size] at hsize <;> simp [cost, hsize]
  · split <;> simp only [cost]
    · omega
    · omega

theorem cost_foldr_cons (runs rest : List Run) :
    cost (runs.foldr cons rest) = cost runs + cost rest := by
  induction runs with
  | nil => simp [cost]
  | cons run runs ih =>
      rw [List.foldr_cons, cost_cons]
      cases run <;> simp only [cost, ih] <;> omega

theorem cost_gather (deleted inserted : Nat) (runs : List Run) :
    cost (gather deleted inserted runs) = deleted + inserted + cost runs := by
  induction runs generalizing deleted inserted with
  | nil => simp only [gather, cost]; omega
  | cons run runs ih => cases run <;> simp only [gather, cost, ih] <;> omega

/-! ### Common subsequences -/

/-- Subsequences of the two sequences that are the same, item by item. -/
structure Common (same : α → β → Prop) (a : List α) (b : List β) (kept : List α) (kept' : List β) :
    Prop where
  left : kept.Sublist a
  right : kept'.Sublist b
  same : List.Forall₂ same kept kept'

/-- What runs keep is common to both sequences. -/
theorem Aligns.exists_common (haligns : Aligns same runs a b) :
    ∃ kept kept', Common same a b kept kept' ∧
      cost runs + 2 * kept.length = a.length + b.length := by
  induction runs generalizing a b with
  | nil =>
      obtain ⟨rfl, rfl⟩ := haligns
      exact ⟨[], [], ⟨.slnil, .slnil, .nil⟩, rfl⟩
  | cons run rest ih =>
      cases run with
      | keep count =>
          obtain ⟨ha, hb, hsame, hrest⟩ := haligns
          obtain ⟨kept, kept', hcommon, hcost⟩ := ih hrest
          refine ⟨a.take count ++ kept, b.take count ++ kept', ⟨?_, ?_, ?_⟩, ?_⟩
          · conv_rhs => rw [← List.take_append_drop count a]
            exact (List.Sublist.refl _).append hcommon.left
          · conv_rhs => rw [← List.take_append_drop count b]
            exact (List.Sublist.refl _).append hcommon.right
          · exact List.rel_append hsame hcommon.same
          · rw [List.length_drop, List.length_drop] at hcost
            rw [List.length_append, List.length_take_of_le ha, cost]
            omega
      | delete count =>
          obtain ⟨ha, hrest⟩ := haligns
          obtain ⟨kept, kept', hcommon, hcost⟩ := ih hrest
          refine ⟨kept, kept', ⟨hcommon.left.trans (List.drop_sublist count a), hcommon.right,
            hcommon.same⟩, ?_⟩
          rw [List.length_drop] at hcost
          rw [cost]
          omega
      | insert count =>
          obtain ⟨hb, hrest⟩ := haligns
          obtain ⟨kept, kept', hcommon, hcost⟩ := ih hrest
          refine ⟨kept, kept', ⟨hcommon.left, hcommon.right.trans (List.drop_sublist count b),
            hcommon.same⟩, ?_⟩
          rw [List.length_drop] at hcost
          rw [cost]
          omega

theorem exists_eq_append_cons {first : α} (hsublist : (first :: kept).Sublist a) :
    ∃ before after, a = before ++ first :: after ∧ kept.Sublist after := by
  obtain ⟨front, back, rfl, hmem, hkept⟩ := List.cons_sublist_iff.mp hsublist
  obtain ⟨before, between, rfl⟩ := List.append_of_mem hmem
  exact ⟨before, between ++ back, by simp, hkept.trans (List.sublist_append_right between back)⟩

/-- What is common to both sequences can be kept. -/
theorem Common.exists_aligns (hcommon : Common same a b kept kept') :
    ∃ runs, Aligns same runs a b ∧ cost runs + 2 * kept.length = a.length + b.length := by
  induction kept generalizing a b kept' with
  | nil =>
      refine ⟨replaceAll a.length b.length, aligns_replaceAll a b, ?_⟩
      simp [replaceAll, cost]
  | cons item kept ih =>
      obtain ⟨hleft, hright, hsame⟩ := hcommon
      cases hsame with
      | @cons _ other _ kept' hitem hsame =>
          obtain ⟨before, after, rfl, hafter⟩ := exists_eq_append_cons hleft
          obtain ⟨before', after', rfl, hafter'⟩ := exists_eq_append_cons hright
          obtain ⟨runs, haligns, hcost⟩ := ih ⟨hafter, hafter', hsame⟩
          refine ⟨replaceAll before.length before'.length ++ .keep 1 :: runs, ?_, ?_⟩
          · refine aligns_append (aligns_replaceAll before before') ⟨?_, ?_, ?_, ?_⟩
            · simp
            · simp
            · simpa using hitem
            · simpa using haligns
          · simp only [replaceAll, List.cons_append, List.nil_append, cost, List.length_append,
              List.length_cons]
            omega

theorem Common.drop (hcommon : Common same a b kept kept') (count : Nat) :
    Common same (a.drop count) (b.drop count) (kept.drop count) (kept'.drop count) :=
  ⟨hcommon.left.drop count, hcommon.right.drop count, List.forall₂_drop count hcommon.same⟩

theorem Common.reverse (hcommon : Common same a b kept kept') :
    Common same a.reverse b.reverse kept.reverse kept'.reverse :=
  ⟨hcommon.left.reverse, hcommon.right.reverse, List.forall₂_reverse_iff.mpr hcommon.same⟩

/-! ### Between the common beginning and the common end -/

section Middles

variable [BEq α] {a b kept kept' : List α}

/-- The common beginning and end do not overlap. -/
theorem length_middles (a b : List α) :
    (middles a b).1.length + commonPrefix a b + commonEnd a b = a.length ∧
      (middles a b).2.length + commonPrefix a b + commonEnd a b = b.length := by
  obtain ⟨ha, hb, -⟩ := commonPrefix_spec a b
  obtain ⟨ha', hb', -⟩ := commonPrefix_spec (a.drop (commonPrefix a b)).reverse
    (b.drop (commonPrefix a b)).reverse
  rw [List.length_reverse, List.length_drop] at ha' hb'
  change commonEnd a b ≤ _ at ha'
  change commonEnd a b ≤ _ at hb'
  simp only [middles, middles.middle, List.length_take, List.length_drop]
  omega

theorem middle_eq (a b items : List α) :
    middles.middle a b items =
      ((items.drop (commonPrefix a b)).reverse.drop (commonEnd a b)).reverse := by
  rw [List.drop_reverse, List.reverse_reverse]
  rfl

/-- The common beginning and the common end make up for the items that the middles lack. -/
theorem Common.exists_middles (hcommon : Common (fun u v : α => u == v) a b kept kept') :
    ∃ inner inner', Common (fun u v => u == v) (middles a b).1 (middles a b).2 inner inner' ∧
      kept.length ≤ inner.length + commonPrefix a b + commonEnd a b := by
  refine ⟨((kept.drop (commonPrefix a b)).reverse.drop (commonEnd a b)).reverse,
    ((kept'.drop (commonPrefix a b)).reverse.drop (commonEnd a b)).reverse, ?_, ?_⟩
  · rw [middles, middle_eq, middle_eq]
    exact ((hcommon.drop _).reverse.drop _).reverse
  · simp only [List.length_reverse, List.length_drop]
    omega

/-- What two sequences begin and end with in common costs nothing. -/
theorem cost_between (a b : List α) :
    cost (between a b) = cost (betweenMiddles (middles a b).1.toArray (middles a b).2.toArray) := by
  rw [between_eq, cost_cons, cost, cost_foldr_cons, cost_cons]
  rfl

end Middles

end JsonEdit.Run
