import JsonEdit.Proofs.Sequence.Cost

/-!
# The search finds a shortest way

In round `d` the search knows the farthest point of every second diagonal: no way with `d` steps off the
diagonals ends farther along on it. For the last such step comes from a neighbouring diagonal, on which
the way was not ahead of the round before, and the search enters a diagonal from the better one of its
neighbours and then stops only where the items differ. A farthest point may lie beside the grid, which
does no harm, since it is only ever compared with points that lie behind it.

So the round in which the far corner is reached is the least number of steps with which it can be
reached, and the way back takes exactly one step for each round. As there is always a way, the search
ends in no other manner than by finding one or by going over its budget, and it goes over its budget only
if a shortest way has too many steps.
-/

namespace JsonEdit.Frontier

open Run

variable {α : Type} [BEq α] {a b : Array α} {frontier next : Frontier} {d x y : Nat} {k : Int}

/-! ### Ways through the grid -/

/-- The point `(x, y)` of the grid can be reached from the corner `(0, 0)` with `d` steps off the
diagonals. -/
inductive Way (a b : Array α) : (d x y : Nat) → Prop
  | start : Way a b 0 0 0
  | keep {d x y : Nat} (hx : x < a.size) (hy : y < b.size) :
    Way a b d x y → a[x] == b[y] → Way a b d (x + 1) (y + 1)
  | delete {d x y : Nat} : Way a b d x y → x < a.size → Way a b (d + 1) (x + 1) y
  | insert {d x y : Nat} : Way a b d x y → y < b.size → Way a b (d + 1) x (y + 1)

theorem Way.le_size (hway : Way a b d x y) : x ≤ a.size ∧ y ≤ b.size := by
  induction hway with
  | start => omega
  | keep hx hy _ _ _ => omega
  | delete _ hx ih => omega
  | insert _ hy ih => omega

theorem Way.onRound (hway : Way a b d x y) : OnRound d ((x : Int) - y) := by
  induction hway with
  | start => exact ⟨0, by omega, by omega⟩
  | keep hx hy _ _ ih =>
      obtain ⟨i, hi, hk⟩ := ih
      exact ⟨i, hi, by omega⟩
  | delete _ hx ih =>
      obtain ⟨i, hi, hk⟩ := ih
      exact ⟨i + 1, by omega, by omega⟩
  | insert _ hy ih =>
      obtain ⟨i, hi, hk⟩ := ih
      exact ⟨i, by omega, by omega⟩

theorem Way.keeps {count : Nat} (hway : Way a b d x y) (hx : x + count ≤ a.size)
    (hy : y + count ≤ b.size)
    (hsame : List.Forall₂ (fun u v => u == v) ((a.toList.drop x).take count)
      ((b.toList.drop y).take count)) : Way a b d (x + count) (y + count) := by
  induction count generalizing x y with
  | zero => exact hway
  | succ count ih =>
      have hx' : x < a.size := by omega
      have hy' : y < b.size := by omega
      rw [List.drop_eq_getElem_cons (l := a.toList) (i := x) (by simpa using hx'),
        List.drop_eq_getElem_cons (l := b.toList) (i := y) (by simpa using hy'), List.take_succ_cons,
        List.take_succ_cons] at hsame
      cases hsame with
      | cons hitem hsame =>
          have hrest := ih (hway.keep hx' hy' (by simpa using hitem)) (by omega) (by omega) hsame
          rwa [Nat.add_right_comm x, Nat.add_right_comm y] at hrest

theorem Way.deletes {count : Nat} (hway : Way a b d x y) (hx : x + count ≤ a.size) :
    Way a b (d + count) (x + count) y := by
  induction count with
  | zero => exact hway
  | succ count ih => exact (ih (by omega)).delete (by omega)

theorem Way.inserts {count : Nat} (hway : Way a b d x y) (hy : y + count ≤ b.size) :
    Way a b (d + count) x (y + count) := by
  induction count with
  | zero => exact hway
  | succ count ih => exact (ih (by omega)).insert (by omega)

/-- Runs that align the rest of the sequences lead to the far corner. -/
theorem Way.of_aligns {runs : List Run} (hway : Way a b d x y)
    (haligns : Aligns (fun u v => u == v) runs (a.toList.drop x) (b.toList.drop y)) :
    Way a b (d + cost runs) a.size b.size := by
  induction runs generalizing d x y with
  | nil =>
      obtain ⟨hx, hy⟩ := hway.le_size
      obtain ⟨ha, hb⟩ := haligns
      rw [List.drop_eq_nil_iff, Array.length_toList] at ha hb
      obtain rfl : x = a.size := by omega
      obtain rfl : y = b.size := by omega
      exact hway
  | cons run rest ih =>
      obtain ⟨hx, hy⟩ := hway.le_size
      cases run with
      | keep count =>
          obtain ⟨ha, hb, hsame, hrest⟩ := haligns
          rw [List.length_drop, Array.length_toList] at ha hb
          rw [List.drop_drop, List.drop_drop] at hrest
          exact ih (hway.keeps (by omega) (by omega) hsame) hrest
      | delete count =>
          obtain ⟨ha, hrest⟩ := haligns
          rw [List.length_drop, Array.length_toList] at ha
          rw [List.drop_drop] at hrest
          rw [cost, ← Nat.add_assoc]
          exact ih (hway.deletes (by omega)) hrest
      | insert count =>
          obtain ⟨hb, hrest⟩ := haligns
          rw [List.length_drop, Array.length_toList] at hb
          rw [List.drop_drop] at hrest
          rw [cost, ← Nat.add_assoc]
          exact ih (hway.inserts (by omega)) hrest

/-! ### The farthest points -/

/-- Where a common stretch ends, the items differ. -/
theorem commonFrom_stops (hx : x + commonFrom a b x y < a.size) (hy : y + commonFrom a b x y < b.size) :
    ¬(a[x + commonFrom a b x y] == b[y + commonFrom a b x y]) := by
  induction x, y using commonFrom.induct a b with
  | case1 x y hinside hsame ih =>
      have hstep : commonFrom a b x y = commonFrom a b (x + 1) (y + 1) + 1 := by
        rw [commonFrom, dif_pos hinside, if_pos hsame]
      simp only [hstep] at hx hy ⊢
      simp only [Nat.add_right_comm _ 1, ← Nat.add_assoc] at ih hx hy ⊢
      exact ih hx hy
  | case2 x y hinside hdiffer =>
      have hstep : commonFrom a b x y = 0 := by rw [commonFrom, dif_pos hinside, if_neg hdiffer]
      simp only [hstep]
      exact hdiffer
  | case3 x y houtside =>
      have hstep : commonFrom a b x y = 0 := by rw [commonFrom, dif_neg houtside]
      exact absurd ⟨by omega, by omega⟩ houtside

/-- **No way is farther along than the search** after as many rounds as the way has steps off the
diagonals. -/
theorem Recorded.le_of_way {trace : List Frontier} (hrecorded : Recorded a b trace frontier)
    (hway : Way a b trace.length x y) {farthest : Nat}
    (hadvance : advance? a b frontier trace.length ((x : Int) - y) = some farthest) :
    x ≤ farthest := by
  generalize hd : trace.length = d at hway
  induction hway generalizing trace frontier farthest with
  | start => exact Nat.zero_le farthest
  | @keep d x y hx hy hway hsame ih =>
      have hdiagonal : ((x + 1 : Nat) : Int) - (y + 1 : Nat) = (x : Int) - y := by omega
      rw [hdiagonal] at hadvance
      have hle := ih hrecorded hadvance hd
      by_contra hbehind
      -- then the search has stopped at `(x, y)`, although the items there are the same
      obtain ⟨entered, henter, hcommon⟩ := advance?_eq_some_iff.mp hadvance
      have hentered := hrecorded.le_enter? (hd ▸ hway.onRound) henter
      obtain ⟨enteredY, hy'⟩ := Int.eq_ofNat_of_zero_le (a := (entered : Int) - ((x : Int) - y))
        (by omega)
      rw [hy', Int.toNat_natCast] at hcommon
      obtain rfl : x = entered + commonFrom a b entered enteredY := by omega
      obtain rfl : y = enteredY + commonFrom a b entered enteredY := by omega
      exact commonFrom_stops hx hy hsame
  | @delete d x y hway hx ih =>
      obtain ⟨earlier, rest, rfl⟩ := List.exists_cons_of_length_eq_add_one hd
      rw [List.length_cons, Nat.add_right_cancel_iff] at hd
      obtain ⟨entered, henter, hcommon⟩ := advance?_eq_some_iff.mp hadvance
      have hk := hway.onRound
      rw [← hd] at hk
      obtain ⟨left, hadvance', hget, -⟩ := hrecorded.point hk
      have hle := ih hrecorded.tail hadvance' hd
      have hdiagonal : (x : Int) - y = ((x + 1 : Nat) : Int) - y - 1 := by omega
      rw [hdiagonal] at hget
      obtain ⟨i, hi, hki⟩ := hk
      have hlt := lt_enter?_of_left henter hget (by simp only [List.length_cons]; omega)
      omega
  | @insert d x y hway hy ih =>
      obtain ⟨earlier, rest, rfl⟩ := List.exists_cons_of_length_eq_add_one hd
      rw [List.length_cons, Nat.add_right_cancel_iff] at hd
      obtain ⟨entered, henter, hcommon⟩ := advance?_eq_some_iff.mp hadvance
      have hk := hway.onRound
      rw [← hd] at hk
      obtain ⟨right, hadvance', hget, -⟩ := hrecorded.point hk
      have hle := ih hrecorded.tail hadvance' hd
      have hdiagonal : (x : Int) - y = (x : Int) - (y + 1 : Nat) + 1 := by omega
      rw [hdiagonal] at hget
      obtain ⟨i, hi, hki⟩ := hk
      have hle' := le_enter?_of_right henter hget (by simp only [List.length_cons]; omega)
      omega

/-- There is no way to the far corner with fewer steps than there were rounds. -/
theorem Recorded.length_le_of_way {trace : List Frontier} (hrecorded : Recorded a b trace frontier)
    (hway : Way a b d a.size b.size) : trace.length ≤ d := by
  induction hrecorded with
  | start => exact Nat.zero_le d
  | @round trace frontier next hrecorded hsweep ih =>
      rw [List.length_cons]
      by_contra hlt
      obtain rfl : d = trace.length := by omega
      obtain ⟨farthest, hadvance, -, hpassed⟩ := (Recorded.round hrecorded hsweep).point hway.onRound
      have hle := hrecorded.le_of_way hway hadvance
      exact hpassed ⟨hle, by omega⟩

/-! ### The search has a result -/

section Sized

omit [BEq α]

def HasPlace (frontier : Frontier) (k : Int) : Prop :=
  0 ≤ k + frontier.offset ∧ k + frontier.offset < frontier.reach.size

/-- What is beside the table cannot be read. -/
theorem isSome_get?_iff : (frontier.get? k).isSome ↔ frontier.HasPlace k := by
  unfold get? HasPlace
  by_cases hlow : 0 ≤ k + frontier.offset
  · rw [if_pos hlow, isSome_getElem?]
    omega
  · rw [if_neg hlow]
    constructor
    · intro hnone
      cases hnone
    · intro hplace
      exact absurd hplace.1 hlow

/-- What is beside the table cannot be written. -/
theorem isSome_set?_iff : (frontier.set? k x).isSome ↔ frontier.HasPlace k := by
  unfold set? HasPlace
  rw [Option.isSome_ite]
  omega

structure Sized (a b : Array α) (frontier : Frontier) : Prop where
  offset_eq : frontier.offset = a.size + b.size
  size_eq : frontier.reach.size = 2 * (a.size + b.size) + 2

theorem sized_start : Sized a b (.start a.size b.size) := ⟨rfl, Array.size_replicate⟩

theorem Sized.set? (hsized : Sized a b frontier) (hset : frontier.set? k x = some next) :
    Sized a b next := by
  unfold Frontier.set? at hset
  simp only at hset
  split at hset
  · cases hset
    exact ⟨hsized.offset_eq, by rw [Array.size_setIfInBounds, hsized.size_eq]⟩
  · cases hset

theorem Sized.hasPlace (hsized : Sized a b frontier) (hlow : -(a.size + b.size : Int) ≤ k)
    (hhigh : k ≤ a.size + b.size + 1) : frontier.HasPlace k := by
  have hoffset := hsized.offset_eq
  have hsize := hsized.size_eq
  constructor <;> omega

theorem Sized.exists_get? (hsized : Sized a b frontier) (hlow : -(a.size + b.size : Int) ≤ k)
    (hhigh : k ≤ a.size + b.size + 1) : ∃ x, frontier.get? k = some x :=
  Option.isSome_iff_exists.mp (isSome_get?_iff.mpr (hsized.hasPlace hlow hhigh))

theorem Sized.exists_set? (hsized : Sized a b frontier) (hlow : -(a.size + b.size : Int) ≤ k)
    (hhigh : k ≤ a.size + b.size + 1) (x : Nat) :
    ∃ next, frontier.set? k x = some next ∧ Sized a b next := by
  have hplace : (frontier.set? k x).isSome := isSome_set?_iff.mpr (hsized.hasPlace hlow hhigh)
  obtain ⟨next, hset⟩ := Option.isSome_iff_exists.mp hplace
  exact ⟨next, hset, hsized.set? hset⟩

end Sized

theorem Sized.exists_advance? (hsized : Sized a b frontier) {d : Nat} (hd : d ≤ a.size + b.size)
    (hlow : -(d : Int) ≤ k) (hhigh : k ≤ d) : ∃ x, advance? a b frontier d k = some x := by
  have henter : ∃ x, frontier.enter? d k = some x := by
    unfold enter?
    rw [fromAbove?_eq]
    split
    · simpa using hsized.exists_get? (k := k + 1) (by omega) (by omega)
    · obtain ⟨left, hleft⟩ := hsized.exists_get? (k := k - 1) (by omega) (by omega)
      split
      · simp [hleft]
      · obtain ⟨right, hright⟩ := hsized.exists_get? (k := k + 1) (by omega) (by omega)
        by_cases hlt : left < right <;> simp [hleft, hright, hlt]
  obtain ⟨entered, henter⟩ := henter
  exact ⟨_, advance?_eq_some_iff.mpr ⟨entered, henter, rfl⟩⟩

theorem Sized.exists_sweep (hsized : Sized a b frontier) {d : Nat} (hd : d ≤ a.size + b.size)
    {count : Nat} (hlow : -(d : Int) ≤ k) (hhigh : k + 2 * count ≤ d + 2) :
    ∃ next arrived, sweep a b d count k frontier = some (next, arrived) ∧ Sized a b next := by
  induction count generalizing k frontier with
  | zero => exact ⟨frontier, false, rfl, hsized⟩
  | succ count ih =>
      obtain ⟨x, hadvance⟩ := hsized.exists_advance? hd hlow (by omega)
      obtain ⟨entered, henter, rfl⟩ := advance?_eq_some_iff.mp hadvance
      obtain ⟨middle, hset, hmiddle⟩ := hsized.exists_set? (k := k) (by omega) (by omega)
        (entered + commonFrom a b entered (entered - k).toNat)
      rw [sweep]
      simp only [Option.bind_eq_bind, henter, Option.bind_some, hset]
      split
      · exact ⟨middle, true, rfl, hmiddle⟩
      · exact ih hmiddle (by omega) (by omega)

/-- The way back takes a step for each round but the first one. -/
theorem Recorded.exists_walkBack {trace : List Frontier} (hrecorded : Recorded a b trace frontier)
    (hk : OnRound trace.length ((x : Int) - y))
    (hadvance : advance? a b frontier trace.length ((x : Int) - y) = some x) (runs : List Run) :
    ∃ result, walkBack x y runs (frontier :: trace) = some result ∧
      cost result = cost runs + trace.length := by
  induction trace generalizing frontier x y runs with
  | nil =>
      cases hrecorded
      obtain ⟨hback, -, -⟩ := walkBack_start hk hadvance runs
      exact ⟨_, hback, cost_cons _ _⟩
  | cons earlier trace ih =>
      obtain ⟨step, fromX, fromY, enteredX, enteredY, hstep, -, -, hk', hadvance', hback⟩ :=
        hrecorded.walkBack_cons hk hadvance runs
      obtain ⟨result, hwalk, hcost⟩ := ih hrecorded.tail hk' hadvance'
        (Run.cons step (Run.cons (.keep (commonFrom a b enteredX enteredY)) runs))
      refine ⟨result, hback.trans hwalk, hcost.trans ?_⟩
      rw [List.length_cons, cost_cons]
      rcases hstep with ⟨rfl, -, -⟩ | ⟨rfl, -, -⟩ <;> rw [cost, cost_cons, cost] <;> omega

/-- To delete everything and to insert everything is a way, so there are no more rounds than items. -/
theorem Recorded.length_le {trace : List Frontier} (hrecorded : Recorded a b trace frontier) :
    trace.length ≤ a.size + b.size := by
  have haligns : Aligns (fun u v => u == v) (replaceAll a.toList.length b.toList.length) a.toList
      b.toList := aligns_replaceAll a.toList b.toList
  have hlength := hrecorded.length_le_of_way (Way.start.of_aligns haligns)
  simp only [replaceAll, cost, Array.length_toList] at hlength
  omega

theorem Recorded.sized {trace : List Frontier} (hrecorded : Recorded a b trace frontier) :
    Sized a b frontier := by
  induction hrecorded with
  | start => exact sized_start
  | @round trace frontier next hrecorded hsweep ih =>
      obtain ⟨next', arrived, hsweep', hnext⟩ :
          ∃ next arrived, sweep a b trace.length (trace.length + 1) (-trace.length) frontier =
            some (next, arrived) ∧ Sized a b next :=
        ih.exists_sweep hrecorded.length_le (by omega) (by omega)
      rw [hsweep] at hsweep'
      cases hsweep'
      exact hnext

/-- How the search ends: in front of a round that would go over its budget, or with the way back from a
round that has arrived, which is no later than the number of all items. -/
inductive Concludes (a b : Array α) : Option Outcome → Prop
  | overBudget {trace : List Frontier} {frontier : Frontier} (hrecorded : Recorded a b trace frontier)
      (hover : budget < (trace.length + 1) * frontier.reach.size) : Concludes a b (some .overBudget)
  | found {trace : List Frontier} {frontier next : Frontier} {runs : List Run}
      (hrecorded : Recorded a b trace frontier) (hround : trace.length ≤ a.size + b.size)
      (hwithin : (trace.length + 1) * frontier.reach.size ≤ budget)
      (harrived : sweep a b trace.length (trace.length + 1) (-trace.length) frontier = some (next, true))
      (hback : walkBack a.size b.size [] (frontier :: trace) = some runs) :
      Concludes a b (some (.found runs))

theorem Recorded.concludes_search {trace : List Frontier} (hrecorded : Recorded a b trace frontier)
    {rounds : Nat} (hrounds : trace.length + rounds = a.size + b.size + 1) :
    Concludes a b (search a b rounds trace.length trace frontier) := by
  induction rounds generalizing trace frontier with
  | zero =>
      have hlength := hrecorded.length_le
      omega
  | succ rounds ih =>
      rw [search]
      split
      · rename_i hover
        exact .overBudget hrecorded hover
      · rename_i hwithin
        have hround : ∃ next arrived, sweep a b trace.length (trace.length + 1) (-trace.length) frontier =
            some (next, arrived) ∧ Sized a b next :=
          hrecorded.sized.exists_sweep (by omega) (by omega) (by omega)
        obtain ⟨next, arrived, hsweep, -⟩ := hround
        rw [hsweep, Option.bind_eq_bind, Option.bind_some]
        cases arrived with
        | false => exact ih (.round hrecorded hsweep) (by simp only [List.length_cons]; omega)
        | true =>
            obtain ⟨hk, hadvance⟩ := hrecorded.advance?_corner hsweep
            obtain ⟨runs, hwalk, -⟩ := hrecorded.exists_walkBack hk hadvance []
            simp only [if_true, hwalk, Option.bind_eq_bind, Option.bind_some]
            exact .found hrecorded hrecorded.length_le (Nat.le_of_not_lt hwithin) hsweep hwalk

/-- What the end of the search says of all ways: over its budget every way has too many steps for the
budget, and no way has fewer steps than the one that is found. -/
inductive Ends (a b : Array α) : Option Outcome → Prop
  | overBudget (hway : ∀ d, Way a b d a.size b.size →
      budget < (d + 1) * (2 * (a.size + b.size) + 2)) : Ends a b (some .overBudget)
  | found (runs : List Run) (hway : ∀ d, Way a b d a.size b.size → cost runs ≤ d)
      (hbudget : (cost runs + 1) * (2 * (a.size + b.size) + 2) ≤ budget) : Ends a b (some (.found runs))

theorem Concludes.ends {outcome : Option Outcome} (hconcludes : Concludes a b outcome) :
    Ends a b outcome := by
  cases hconcludes with
  | overBudget hrecorded hover =>
      refine .overBudget fun d hway => lt_of_lt_of_le hover ?_
      rw [hrecorded.sized.size_eq]
      exact Nat.mul_le_mul_right _ (Nat.add_le_add_right (hrecorded.length_le_of_way hway) 1)
  | found hrecorded hround hwithin harrived hback =>
      obtain ⟨hk, hadvance⟩ := hrecorded.advance?_corner harrived
      obtain ⟨runs, hwalk, hcost⟩ := hrecorded.exists_walkBack hk hadvance []
      cases hback.symm.trans hwalk
      rw [cost, Nat.zero_add] at hcost
      refine .found _ (fun d hway => hcost ▸ hrecorded.length_le_of_way hway) ?_
      rw [hcost, ← hrecorded.sized.size_eq]
      exact hwithin

def searchAll (a b : Array α) : Option Outcome :=
  search a b (a.size + b.size + 1) 0 [] (.start a.size b.size)

/-- **The search comes to an end**, within its budget or because of it. -/
theorem concludes_searchAll (a b : Array α) : Concludes a b (searchAll a b) :=
  Recorded.start.concludes_search (by simp)

theorem ends_searchAll (a b : Array α) : Ends a b (searchAll a b) := (concludes_searchAll a b).ends

end JsonEdit.Frontier

namespace JsonEdit.Run

open Frontier

variable {α : Type} [BEq α] {a b : List α} {runs : List Run}

theorem way_of_aligns (haligns : Aligns (fun u v => u == v) runs a b) :
    Way a.toArray b.toArray (cost runs) a.length b.length := by
  have hway := Way.start.of_aligns (a := a.toArray) (b := b.toArray) haligns
  rwa [Nat.zero_add] at hway

/-- One of the sequences is empty, or the search through both stays within its budget. -/
def Complete (a b : List α) : Prop :=
  a = [] ∨ b = [] ∨ searchAll a.toArray b.toArray ≠ some .overBudget

/-- A search is complete exactly if some runs between the sequences cost little enough for the budget: one
more round than they cost has to be recorded, each with two places for every item and two more. -/
theorem complete_iff :
    Complete a b ↔ a = [] ∨ b = [] ∨ ∃ runs, Aligns (fun u v => u == v) runs a b ∧
      (cost runs + 1) * (2 * (a.length + b.length) + 2) ≤ budget := by
  have hends := ends_searchAll a.toArray b.toArray
  refine or_congr_right (or_congr_right ⟨?_, ?_⟩)
  · intro hwithin
    cases hsearch : searchAll a.toArray b.toArray with
    | none =>
        rw [hsearch] at hends
        cases hends
    | some outcome =>
        rw [hsearch] at hends hwithin
        cases hends with
        | overBudget hway => exact absurd rfl hwithin
        | found runs hway hbudget =>
            exact ⟨runs, Recorded.start.aligns_search hsearch, hbudget⟩
  · rintro ⟨runs, haligns, hbudget⟩ hover
    rw [hover] at hends
    cases hends with
    | overBudget hway =>
        have hlt := hway (cost runs) (way_of_aligns haligns)
        simp only [List.size_toArray] at hlt
        omega

/-- Nothing costs less than what a complete search finds. -/
theorem cost_betweenMiddles_le (hcomplete : Complete a b)
    (haligns : Aligns (fun u v => u == v) runs a b) :
    cost (betweenMiddles a.toArray b.toArray) ≤ cost runs := by
  by_cases hempty : (a.toArray.isEmpty || b.toArray.isEmpty) = true
  · obtain ⟨kept, kept', hcommon, hcost⟩ := haligns.exists_common
    have hkept : kept.length = 0 := by
      have hleft := hcommon.left.length_le
      have hright := hcommon.right.length_le
      rw [← hcommon.same.length_eq] at hright
      rcases Bool.or_eq_true_iff.mp hempty with hempty | hempty <;> simp_all
    rw [betweenMiddles, if_pos hempty]
    simp only [replaceAll, cost, List.size_toArray]
    omega
  · have hwithin := (hcomplete.resolve_left (by simp_all)).resolve_left (by simp_all)
    have hends := ends_searchAll a.toArray b.toArray
    rw [betweenMiddles, if_neg hempty, ← searchAll]
    generalize searchAll a.toArray b.toArray = outcome at *
    cases hends with
    | overBudget hway => exact absurd rfl hwithin
    | found found hway =>
        simp only [cost_gather, Nat.zero_add]
        exact hway (cost runs) (way_of_aligns haligns)

/-- **The runs between two sequences are shortest**, if nothing is left of one of them between their
common beginning and their common end, or if the search through what is left stays within its budget.
They keep a longest common subsequence, and so no runs that rebuild the second sequence delete and insert
fewer items. -/
theorem between_shortest (hcomplete : Complete (middles a b).1 (middles a b).2) :
    (∃ kept kept', Common (fun u v => u == v) a b kept kept' ∧
      (∀ other other', Common (fun u v => u == v) a b other other' → other.length ≤ kept.length) ∧
      cost (between a b) + 2 * kept.length = a.length + b.length) ∧
    ∀ runs, Rebuilds (fun u v => u == v) runs a b → cost (between a b) ≤ cost runs := by
  have hleast : ∀ kept kept', Common (fun u v => u == v) a b kept kept' →
      cost (between a b) + 2 * kept.length ≤ a.length + b.length := by
    intro kept kept' hcommon
    obtain ⟨inner, inner', hinner, hkept⟩ := hcommon.exists_middles
    obtain ⟨runs, haligns, hcost⟩ := hinner.exists_aligns
    have hle := cost_betweenMiddles_le hcomplete haligns
    obtain ⟨ha, hb⟩ := length_middles a b
    rw [cost_between]
    omega
  obtain ⟨kept, kept', hcommon, hcost⟩ := (aligns_between a b).exists_common
  refine ⟨⟨kept, kept', hcommon, ?_, hcost⟩, ?_⟩
  · intro other other' hother
    have hle := hleast other other' hother
    omega
  · intro runs hrebuilds
    obtain ⟨kept, kept', hcommon, hcost⟩ := hrebuilds.aligns.exists_common
    have hle := hleast kept kept' hcommon
    omega

/-- Four letters are kept, and no more can be. -/
theorem between_shortest_letters :
    let a := ['a', 'b', 'c', 'a', 'b', 'b', 'a']
    let b := ['c', 'b', 'a', 'b', 'a', 'c']
    Complete (middles a b).1 (middles a b).2 ∧ cost (between a b) = 5 ∧
      (∀ kept kept', Common (fun u v => u == v) a b kept kept' → kept.length ≤ 4) ∧
      ∀ runs, Rebuilds (fun u v => u == v) runs a b → 5 ≤ cost runs := by
  intro a b
  have hmiddles : middles a b = (a, b) := by decide
  have hcomplete : Complete (middles a b).1 (middles a b).2 := by
    rw [hmiddles]
    exact complete_iff.mpr (.inr (.inr ⟨replaceAll a.length b.length, aligns_replaceAll a b, by decide⟩))
  have hcost : cost (between a b) = 5 := by decide +kernel
  obtain ⟨⟨kept, kept', -, hlongest, hlength⟩, hleast⟩ := between_shortest hcomplete
  rw [hcost] at hlength hleast
  have hkept : kept.length = 4 := by
    simp only [a, b, List.length_cons, List.length_nil] at hlength
    omega
  rw [hkept] at hlongest
  exact ⟨hcomplete, hcost, hlongest, hleast⟩

end JsonEdit.Run
