import JsonEdit.Json.Merge
import JsonEdit.Proofs.Json.Lasting

/-!
# What merging keeps

A merged object has the keys of the left object in their places, and after them those that only the right
one has, at their first occurrence. So no key repeats unless one does on the left. Everything in a merged
tree comes from one of the two sides or is settled by the strategy.
-/

namespace JsonEdit

/-- What the strategy settles has the property if both sides have it. -/
def MergeStrategy.Keeps (p : Json → Prop) : MergeStrategy → Prop
  | .custom settle _ => ∀ path (left right : Json), left.Every p → right.Every p →
      (settle path left right).Every p
  | _ => True

namespace Json

variable {strategy : MergeStrategy}

theorem keys_mergeEntries (path : Path) (rights lefts : Entries Json) (seen : List String) :
    (mergeEntries strategy path rights seen lefts).map Prod.fst = lefts.map Prod.fst := by
  induction lefts generalizing seen with
  | nil => rfl
  | cons entry rest ih => rw [mergeEntries, List.map_cons, ih, List.map_cons]

theorem distinct_merged {merged lefts rights : Entries Json} (hlefts : Entries.Distinct lefts)
    (hkeys : merged.map Prod.fst = lefts.map Prod.fst) :
    Entries.Distinct
      (merged ++ (Entries.firsts rights).filter fun (key, _) => !Entries.has key lefts) := by
  have hrights : Entries.Distinct
      ((Entries.firsts rights).filter fun (key, _) => !Entries.has key lefts) :=
    (Entries.distinct_firsts rights).sublist List.filter_sublist
  rw [Entries.distinct_iff_nodup] at hlefts hrights ⊢
  rw [List.map_append, hkeys]
  refine List.nodup_append'.mpr ⟨hlefts, hrights, fun key hleft hright => ?_⟩
  obtain ⟨entry, hentry, rfl⟩ := List.mem_map.mp hright
  obtain ⟨other, hother, hkey⟩ := List.mem_map.mp hleft
  have hfresh : Entries.has entry.1 lefts = false := by
    simpa using (List.mem_filter.mp hentry).2
  exact Entries.find?_eq_none_iff.mp (Entries.has_eq_false_iff.mp hfresh) other hother hkey

/-- A key of the left side finds its first value there, merged with the first one on the right unless the
key was seen before. -/
theorem find?_mergeEntries (path : Path) (rights lefts : Entries Json) (seen : List String)
    (key : String) :
    Entries.find? key (mergeEntries strategy path rights seen lefts) =
      (Entries.find? key lefts).map fun left =>
        match Entries.find? key rights with
        | some right =>
          if seen.contains key then left else mergeFrom strategy (path.child (.field key)) left right
        | none => left := by
  induction lefts generalizing seen with
  | nil => rfl
  | cons entry rest ih =>
      rw [mergeEntries, Entries.find?_cons, Entries.find?_cons]
      by_cases hkey : entry.1 = key
      · rw [if_pos hkey, if_pos hkey, hkey]
        rfl
      · have hseen : (entry.1 :: seen).contains key = seen.contains key := by
          simp [Ne.symm hkey]
        rw [if_neg hkey, if_neg hkey, ih, hseen]

/-- What a key finds in a merged object. -/
theorem find?_merged (path : Path) (lefts rights : Entries Json) (key : String) :
    Entries.find? key (mergeEntries strategy path rights [] lefts ++
        (Entries.firsts rights).filter fun (key, _) => !Entries.has key lefts) =
      match Entries.find? key lefts, Entries.find? key rights with
      | some left, some right => some (mergeFrom strategy (path.child (.field key)) left right)
      | some left, none => some left
      | none, found => found := by
  have hadded : Entries.find? key ((Entries.firsts rights).filter fun (key, _) => !Entries.has key lefts) =
      if !Entries.has key lefts then Entries.find? key rights else none := by
    rw [← Entries.find?_firsts key rights]
    exact Entries.find?_filter (fun key => !Entries.has key lefts) key (Entries.firsts rights)
  rw [Entries.find?_append, find?_mergeEntries, hadded, Entries.has]
  cases Entries.find? key lefts with
  | none => rfl
  | some left => cases Entries.find? key rights <;> rfl

/-- A value of a merged object is one of the left side, or it is merged. -/
theorem of_mem_mergeEntries {path : Path} {rights lefts : Entries Json} {seen : List String}
    {entry : String × Json} (hmem : entry ∈ mergeEntries strategy path rights seen lefts) :
    ∃ left ∈ lefts, entry.2 = left.2 ∨
      ∃ right ∈ rights, ∃ place, entry.2 = mergeFrom strategy place left.2 right.2 := by
  induction lefts generalizing seen with
  | nil => cases hmem
  | cons left rest ih =>
      rw [mergeEntries] at hmem
      rcases List.mem_cons.mp hmem with rfl | hmem
      · refine ⟨left, List.mem_cons_self, ?_⟩
        simp only
        split
        · rename_i right hright
          split
          · exact .inl rfl
          · exact .inr ⟨_, Entries.mem_of_find? hright, _, rfl⟩
        · exact .inl rfl
      · obtain ⟨other, hother, hvalue⟩ := ih hmem
        exact ⟨other, List.mem_cons_of_mem _ hother, hvalue⟩

/-- An element of a merged array is one of either side, or it is merged. -/
theorem of_mem_mergeItems {path : Path} {position : Nat} {lefts rights : List Json} {item : Json}
    (hmem : item ∈ mergeItems strategy path position lefts rights) :
    item ∈ lefts ∨ item ∈ rights ∨
      ∃ left ∈ lefts, ∃ right ∈ rights, ∃ place, item = mergeFrom strategy place left right := by
  induction lefts generalizing position rights with
  | nil =>
      rw [mergeItems] at hmem
      exact .inr (.inl hmem)
  | cons left lefts ih =>
      cases rights with
      | nil =>
          rw [mergeItems] at hmem
          · exact .inl hmem
          · exact List.cons_ne_nil left lefts
      | cons right rights =>
          rw [mergeItems] at hmem
          rcases List.mem_cons.mp hmem with rfl | hmem
          · exact .inr (.inr ⟨left, List.mem_cons_self, right, List.mem_cons_self, _, rfl⟩)
          · rcases ih hmem with hleft | hright | ⟨other, hother, other', hother', place, hitem⟩
            · exact .inl (List.mem_cons_of_mem _ hleft)
            · exact .inr (.inl (List.mem_cons_of_mem _ hright))
            · exact .inr (.inr ⟨other, List.mem_cons_of_mem _ hother, other',
                List.mem_cons_of_mem _ hother', place, hitem⟩)

namespace Lasting

variable {p : Json → Prop} (hlasting : Lasting p)
include hlasting

theorem settled? (hstrategy : strategy.Keeps p) {left right : Json} (hleft : left.Every p)
    (hright : right.Every p) (path : Path) : Renewed p (strategy.settled? path left right) := by
  rintro settled hsettled
  unfold MergeStrategy.settled? at hsettled
  split at hsettled
  · cases hsettled
  · split at hsettled
    · cases hsettled
    · cases hsettled
      exact hright
  · split at hsettled
    · cases hsettled
      rw [hlasting.every_array_iff] at hleft hright ⊢
      exact List.forall_mem_append.mpr ⟨hleft, hright⟩
    · cases hsettled
  · split at hsettled
    · cases hsettled
    · cases hsettled
      exact hstrategy path left right hleft hright

/-- Where nothing below is merged the strategy settles, or the right side stays. -/
theorem getD_settled? (hstrategy : strategy.Keeps p) {left right : Json} (hleft : left.Every p)
    (hright : right.Every p) (path : Path) :
    ((strategy.settled? path left right).getD right).Every p := by
  have hsettled := hlasting.settled? hstrategy hleft hright path
  cases hresult : strategy.settled? path left right with
  | none => exact hright
  | some settled => exact hsettled settled hresult

theorem mergeFrom (hstrategy : strategy.Keeps p) {left right : Json} (hleft : left.Every p)
    (hright : right.Every p) (path : Path) : (Json.mergeFrom strategy path left right).Every p := by
  induction left using Json.induct generalizing right path with
  | array lefts ih =>
      cases right with
      | array rights =>
          have hsettled := hlasting.settled? hstrategy hleft hright path
          rw [hlasting.every_array_iff] at hleft hright
          rw [Json.mergeFrom]
          split
          · rename_i settled hresult
            exact hsettled settled hresult
          · refine hlasting.every_array_iff.mpr fun item hitem => ?_
            rcases of_mem_mergeItems hitem with hitem | hitem | ⟨left, hl, right, hr, place, rfl⟩
            · exact hleft item hitem
            · exact hright item hitem
            · exact ih left hl (hleft left hl) (hright right hr) place
      | _ => exact hlasting.getD_settled? hstrategy hleft hright path
  | object lefts ih =>
      cases right with
      | object rights =>
          have hsettled := hlasting.settled? hstrategy hleft hright path
          rw [hlasting.every_object_iff] at hleft hright
          rw [Json.mergeFrom]
          split
          · rename_i settled hresult
            exact hsettled settled hresult
          · refine hlasting.every_object_iff.mpr
              ⟨distinct_merged hleft.1 (keys_mergeEntries path rights lefts []), fun entry hentry => ?_⟩
            rcases List.mem_append.mp hentry with hentry | hentry
            · obtain ⟨left, hl, hvalue | ⟨right, hr, place, hvalue⟩⟩ := of_mem_mergeEntries hentry
              · rw [hvalue]
                exact hleft.2 left hl
              · rw [hvalue]
                exact ih left hl (hleft.2 left hl) (hright.2 right hr) place
            · exact hright.2 entry (Entries.mem_of_mem_firsts (List.mem_of_mem_filter hentry))
      | _ => exact hlasting.getD_settled? hstrategy hleft hright path
  | _ => exact hlasting.getD_settled? hstrategy hleft hright path

/-- **Merging keeps what lasts.** -/
theorem merge (hstrategy : strategy.Keeps p) {left right : Json} (hleft : left.Every p)
    (hright : right.Every p) : (Json.merge strategy left right).Every p :=
  hlasting.mergeFrom hstrategy hleft hright Path.root

end Lasting

end Json

end JsonEdit
