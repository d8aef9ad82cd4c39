import JsonEdit.Patch.Diff
import JsonEdit.Proofs.Json.Equality
import JsonEdit.Proofs.Patch.Strict
import JsonEdit.Proofs.Sequence.Search

/-!
# The difference of two arrays

The edits of an array are made from the changes of its elements, whatever these are, and are done from
left to right. What lies before the position of the next edit already equals the beginning of the second
array; what lies behind it are the elements that the changes belong to.

A change belongs to one element of the document, and says under which condition on the target its
operation can be done there. The edits can be done exactly when the changes of all paired elements can.
-/

namespace JsonEdit.Operation

/-- The change makes of the value of the document something that equals the target, if and only if the
target fits. -/
def Turns (change : Change) (fits : Json → Prop) (doc : Json) : Prop :=
  ∀ path target,
    match change target with
    | none => fits target ∧ doc == target
    | some operation => Gives (fits target) (· == target) (apply .strict path operation doc)

def TurnsAll : List Change → List (Json → Prop) → List Json → Prop
  | [], [], [] => True
  | change :: changes, fits :: rest, doc :: docs => Turns change fits doc ∧ TurnsAll changes rest docs
  | _, _, _ => False

namespace TurnsAll

variable {changes : List Change} {fits : List (Json → Prop)} {docs : List Json}

theorem length_changes (hall : TurnsAll changes fits docs) : changes.length = docs.length := by
  induction changes generalizing fits docs with
  | nil =>
      match fits, docs with
      | [], [] => rfl
  | cons change changes ih =>
      match fits, docs with
      | fit :: fits, doc :: docs => rw [List.length_cons, List.length_cons, ih hall.2]

theorem take (hall : TurnsAll changes fits docs) (count : Nat) :
    TurnsAll (changes.take count) (fits.take count) (docs.take count) := by
  induction changes generalizing fits docs count with
  | nil =>
      match fits, docs with
      | [], [] => simp [TurnsAll]
  | cons change changes ih =>
      match fits, docs, count with
      | fit :: fits, doc :: docs, 0 => trivial
      | fit :: fits, doc :: docs, count + 1 => exact ⟨hall.1, ih hall.2 count⟩

theorem drop (hall : TurnsAll changes fits docs) (count : Nat) :
    TurnsAll (changes.drop count) (fits.drop count) (docs.drop count) := by
  induction changes generalizing fits docs count with
  | nil =>
      match fits, docs with
      | [], [] => simp [TurnsAll]
  | cons change changes ih =>
      match fits, docs, count with
      | fit :: fits, doc :: docs, 0 => exact hall
      | fit :: fits, doc :: docs, count + 1 => exact ih hall.2 count

end TurnsAll

/-! ### Paired elements -/

def FitsPairs (fits : List (Json → Prop)) (targets : List Json) : Prop :=
  ∀ pair ∈ fits.zip targets, pair.1 pair.2

theorem fitsPairs_cons {fit : Json → Prop} {fits : List (Json → Prop)} {target : Json}
    {targets : List Json} :
    FitsPairs (fit :: fits) (target :: targets) ↔ fit target ∧ FitsPairs fits targets := by
  rw [FitsPairs, List.zip_cons_cons, List.forall_mem_cons, FitsPairs]

variable {changes : List Change} {fits : List (Json → Prop)} {docs : List Json} (path : Path)

/-- The element at the position of an edit. -/
theorem applyArrayEdit_modify (operation : Operation) (front back : List Json) (doc : Json) :
    applyArrayEdit .strict path (.modify front.length operation) (front ++ doc :: back) =
      (apply .strict (path.child (.index front.length)) operation doc).map fun new =>
        front ++ new :: back := by
  have hget : (front ++ doc :: back)[front.length]? = some doc := by
    rw [List.getElem?_append_right (Nat.le_refl _), Nat.sub_self, List.getElem?_cons_zero]
  have hset : ∀ new, (front ++ doc :: back).set front.length new = front ++ new :: back := by
    intro new
    rw [List.set_append_right _ _ (Nat.le_refl _), Nat.sub_self, List.set_cons_zero]
  rw [applyArrayEdit, hget]
  simp only [hset]

theorem gives_pairedEdits (hall : TurnsAll changes fits docs) (targets front back : List Json) :
    Gives (FitsPairs fits targets)
      (fun items => ∃ new, items = front ++ new ++ docs.drop targets.length ++ back ∧
        List.Forall₂ (fun u v => u == v) new (targets.take docs.length))
      (applyArrayEdits .strict path (pairedEdits front.length changes targets)
        (front ++ docs ++ back)) := by
  induction changes generalizing fits docs targets front with
  | nil =>
      match fits, docs with
      | [], [] =>
          rw [pairedEdits.eq_2 _ _ _ (by simp)]
          exact (Gives.of_ok ⟨[], by simp, by simp⟩).congr (by simp [FitsPairs])
  | cons change changes ih =>
      match fits, docs, targets with
      | fit :: fits, doc :: docs, [] =>
          rw [pairedEdits.eq_2 _ _ _ (by simp)]
          exact (Gives.of_ok ⟨[], by simp, by simp⟩).congr (by simp [FitsPairs])
      | fit :: fits, doc :: docs, target :: targets =>
          obtain ⟨hturn, hall⟩ := hall
          -- the edits behind a first element that equals its target
          have hrest : ∀ new, new == target → Gives (FitsPairs fits targets)
              (fun items => ∃ news, items = front ++ news ++ (doc :: docs).drop (targets.length + 1) ++
                back ∧ List.Forall₂ (fun u v => u == v) news
                  ((target :: targets).take (doc :: docs).length))
              (applyArrayEdits .strict path (pairedEdits (front.length + 1) changes targets)
                (front ++ new :: (docs ++ back))) := by
            intro new hnew
            have hstep := ih hall targets (front ++ [new])
            rw [List.length_append, List.length_singleton, List.append_assoc, List.append_assoc,
              List.singleton_append] at hstep
            refine hstep.mono fun items hitems => ?_
            obtain ⟨news, rfl, hnews⟩ := hitems
            exact ⟨new :: news, by simp, .cons hnew hnews⟩
          have hturn := hturn (path.child (.index front.length)) target
          rw [pairedEdits, List.append_assoc, List.cons_append]
          cases hchange : change target with
          | none =>
              rw [hchange] at hturn
              obtain ⟨hfit, hequal⟩ := hturn
              exact (hrest doc hequal).congr (by rw [fitsPairs_cons, and_iff_right hfit])
          | some operation =>
              rw [hchange] at hturn
              simp only at hturn ⊢
              rw [applyArrayEdits_cons, applyArrayEdit_modify]
              have hfirst : Gives (fit target)
                  (fun items => ∃ new, new == target ∧ items = front ++ new :: (docs ++ back))
                  ((apply .strict (path.child (.index front.length)) operation doc).map fun new =>
                    front ++ new :: (docs ++ back)) :=
                hturn.map fun new hnew => ⟨new, hnew, rfl⟩
              refine (hfirst.bind fun items hitems => ?_).congr fitsPairs_cons.symm
              obtain ⟨new, hnew, rfl⟩ := hitems
              exact hrest new hnew

/-! ### One change of the comparison -/

theorem applyArrayEdits_removed (front rest back : List Json) :
    applyArrayEdits .strict path
      (if rest.length = 0 then [] else [.delete front.length rest.length]) (front ++ rest ++ back) =
      .ok (front ++ back) := by
  split
  · rename_i hempty
    rw [List.length_eq_zero_iff.mp hempty, List.append_nil]
    rfl
  · rw [applyArrayEdits_cons, applyArrayEdit, if_neg (by simp), SequenceEdit.replaceRange,
      ← List.length_append, List.drop_left, List.append_assoc front, List.take_left, List.append_nil]
    rfl

theorem applyArrayEdits_added (front values back : List Json) :
    applyArrayEdits .strict path
      (if values = [] then []
        else if front.length = (front ++ back).length then [.append values]
        else [.insert front.length values]) (front ++ back) =
      .ok (front ++ values ++ back) := by
  split
  · rename_i hempty
    rw [hempty, List.append_nil]
    rfl
  · split
    · rename_i hend
      rw [List.length_append] at hend
      rw [List.length_eq_zero_iff.mp (show back.length = 0 by omega), List.append_nil,
        List.append_nil]
      rfl
    · rw [applyArrayEdits_cons, applyArrayEdit, if_neg (by simp), SequenceEdit.insertAll,
        List.take_left, List.drop_left]
      rfl

/-- The paired elements are changed, and the rest of the deleted ones give way to the rest of the
inserted ones. -/
theorem gives_arrayEditsOfChange (hall : TurnsAll changes fits docs) (inserted front back : List Json) :
    Gives (FitsPairs fits inserted)
      (fun items => ∃ new, items = front ++ new ++ back ∧
        List.Forall₂ (fun u v => u == v) new inserted)
      (applyArrayEdits .strict path
        (arrayEditsOfChange changes inserted front.length (front ++ docs ++ back).length)
        (front ++ docs ++ back)) := by
  have hlength := hall.length_changes
  unfold arrayEditsOfChange
  simp only [hlength]
  rw [List.append_assoc, applyArrayEdits_append]
  refine ((gives_pairedEdits path hall inserted front back).bind ?_).congr (and_iff_left trivial)
  rintro items ⟨new, rfl, hnew⟩
  have hpaired : new.length = min docs.length inserted.length := by
    rw [hnew.length_eq, List.length_take]
  have hafter : front.length + min docs.length inserted.length = (front ++ new).length := by
    rw [List.length_append, hpaired]
  have hsurplus : docs.length - min docs.length inserted.length =
      (docs.drop inserted.length).length := by
    rw [List.length_drop]
    omega
  have hleft : (front ++ docs ++ back).length - (docs.drop inserted.length).length =
      (front ++ new ++ back).length := by
    simp only [List.length_append, List.length_drop]
    omega
  have hempty : inserted.length = min docs.length inserted.length ↔
      inserted.drop (min docs.length inserted.length) = [] := by
    rw [List.drop_eq_nil_iff]
    omega
  rw [applyArrayEdits_append, hsurplus, hafter, hleft, applyArrayEdits_removed]
  simp only [hempty]
  change Gives _ _ (applyArrayEdits _ _ _ _)
  rw [applyArrayEdits_added]
  refine .of_ok ⟨new ++ inserted.drop (min docs.length inserted.length), by simp, ?_⟩
  have htake : inserted.take docs.length = inserted.take (min docs.length inserted.length) := by
    rcases Nat.le_total docs.length inserted.length with hle | hle
    · rw [Nat.min_eq_left hle]
    · rw [Nat.min_eq_right hle, List.take_of_length_le hle, List.take_length]
  have hrest : List.Forall₂ (fun u v : Json => u == v)
      (inserted.drop (min docs.length inserted.length))
      (inserted.drop (min docs.length inserted.length)) :=
    List.forall₂_same.mpr fun value _ => BEq.refl value
  have hboth : List.Forall₂ (fun u v : Json => u == v)
      (new ++ inserted.drop (min docs.length inserted.length))
      (inserted.take docs.length ++ inserted.drop (min docs.length inserted.length)) :=
    List.rel_append hnew hrest
  rwa [htake, List.take_append_drop] at hboth

/-! ### All changes -/

def FitsBlocks (fits : List (Json → Prop)) (target : List Json) : List Block → Prop
  | [] => True
  | .keep count :: rest => FitsBlocks (fits.drop count) (target.drop count) rest
  | .change deleted inserted :: rest =>
    FitsPairs (fits.take deleted) (target.take inserted) ∧
      FitsBlocks (fits.drop deleted) (target.drop inserted) rest

/-- **The edits of an array** can be done on a document that the blocks align with the target, if and
only if the paired elements can be changed, and then they make the target of it. -/
theorem gives_arrayEditsOfBlocks {blocks : List Block} {target : List Json}
    (haligns : Block.Aligns (fun u v => u == v) blocks docs target) (hall : TurnsAll changes fits docs)
    (front : List Json) :
    Gives (FitsBlocks fits target blocks)
      (fun items => ∃ new, items = front ++ new ∧ List.Forall₂ (fun u v => u == v) new target)
      (applyArrayEdits .strict path
        (arrayEditsOfBlocks changes target front.length (front ++ docs).length blocks)
        (front ++ docs)) := by
  induction blocks generalizing changes fits docs target front with
  | nil =>
      obtain ⟨rfl, rfl⟩ := haligns
      exact .of_ok ⟨[], rfl, .nil⟩
  | cons block rest ih =>
      cases block with
      | keep count =>
          obtain ⟨hdocs, htarget, hsame, hrest⟩ := haligns
          have hstep := ih hrest (hall.drop count) (front ++ docs.take count)
          have hposition : (front ++ docs.take count).length = front.length + count := by
            rw [List.length_append, List.length_take, Nat.min_eq_left hdocs]
          rw [hposition, List.append_assoc, List.take_append_drop] at hstep
          refine hstep.mono fun items hitems => ?_
          obtain ⟨new, rfl, hnew⟩ := hitems
          refine ⟨docs.take count ++ new, List.append_assoc _ _ _, ?_⟩
          rw [← List.take_append_drop count target]
          exact List.rel_append hsame hnew
      | change deleted inserted =>
          obtain ⟨hdocs, htarget, hrest⟩ := haligns
          have hchange := gives_arrayEditsOfChange path (hall.take deleted) (target.take inserted) front
            (docs.drop deleted)
          rw [List.append_assoc, List.take_append_drop] at hchange
          rw [arrayEditsOfBlocks, applyArrayEdits_append]
          refine hchange.bind fun items hitems => ?_
          obtain ⟨new, rfl, hnew⟩ := hitems
          have hcount : new.length = inserted := by
            rw [hnew.length_eq, List.length_take, Nat.min_eq_left htarget]
          have hposition : (front ++ new).length = front.length + inserted := by
            rw [List.length_append, hcount]
          have hstep := ih hrest (hall.drop deleted) (front ++ new)
          have hlength : (front ++ docs).length - deleted + inserted =
              (front ++ new ++ docs.drop deleted).length := by
            simp only [List.length_append, List.length_drop, hcount]
            omega
          rw [hposition, ← hlength] at hstep
          refine hstep.mono fun items hitems => ?_
          obtain ⟨more, rfl, hmore⟩ := hitems
          refine ⟨new ++ more, List.append_assoc _ _ _, ?_⟩
          rw [← List.take_append_drop inserted target]
          exact List.rel_append hnew hmore

end JsonEdit.Operation
