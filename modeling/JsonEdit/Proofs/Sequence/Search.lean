import JsonEdit.Sequence.Frontier
import JsonEdit.Proofs.Sequence.Alignment
import Mathlib.Order.Basic

/-!
# The search finds a way

The frontier after a round is the one before it with new points on every second diagonal. A point comes
from a neighbouring diagonal, on which the round before has ended, so walking back from a point through
the recorded frontiers leads to the corner `(0, 0)`.

Points may lie beside the grid. The way to such a point has left the grid at a border, and while it went
on beside the grid another way could go on along the border, one step ahead. So the first point that is
neither above nor to the left of the far corner is the far corner itself, and the way back from there
stays within the grid.
-/

namespace JsonEdit.Frontier

variable {α : Type} [BEq α] {a b : Array α} {frontier next : Frontier} {d : Nat} {k : Int}

/-! ### Places of the table -/

theorem get?_set? {x : Nat} (hset : frontier.set? k x = some next) (j : Int) :
    next.get? j = if j = k then some x else frontier.get? j := by
  simp only [set?] at hset
  split at hset
  · rename_i hinside
    cases hset
    simp only [get?]
    by_cases hj : j = k
    · rw [if_pos hj, hj, if_pos hinside.1]
      simp [hinside.2]
    · rw [if_neg hj]
      split
      · rename_i hj'
        exact Array.getElem?_setIfInBounds_ne (by omega)
      · rfl
  · cases hset

theorem eq_zero_of_get?_start {n m x : Nat} (hget : (start n m).get? k = some x) : x = 0 := by
  unfold get? start at hget
  split at hget
  · rw [Array.getElem?_replicate] at hget
    split at hget <;> simp_all
  · cases hget

/-! ### One step of a round -/

def advance? (a b : Array α) (frontier : Frontier) (d k : Int) : Option Nat :=
  (frontier.enter? d k).map fun x => x + commonFrom a b x (x - k).toNat

theorem enter?_congr {g : Frontier} {d : Int} (hleft : frontier.get? (k - 1) = g.get? (k - 1))
    (hright : frontier.get? (k + 1) = g.get? (k + 1)) : frontier.enter? d k = g.enter? d k := by
  simp only [enter?, fromAbove?, hleft, hright]

theorem fromAbove?_eq (d k : Int) :
    frontier.fromAbove? d k =
      if k = -d then some true
      else if k = d then some false
      else (frontier.get? (k - 1)).bind fun left =>
        (frontier.get? (k + 1)).map fun right => decide (left < right) := by
  unfold fromAbove?
  split
  · rfl
  · split
    · rfl
    · cases frontier.get? (k - 1) <;> cases frontier.get? (k + 1) <;> rfl

/-- A diagonal is entered down from its right neighbour or to the right from its left one. -/
theorem enter?_cases {d : Int} {x : Nat} (henter : frontier.enter? d k = some x) :
    (frontier.fromAbove? d k = some true ∧ frontier.get? (k + 1) = some x) ∨
      (frontier.fromAbove? d k = some false ∧
        ∃ left, frontier.get? (k - 1) = some left ∧ x = left + 1) := by
  unfold enter? at henter
  cases habove : frontier.fromAbove? d k with
  | none => simp [habove] at henter
  | some above =>
      cases above with
      | true => exact .inl ⟨rfl, by simpa [habove] using henter⟩
      | false =>
          refine .inr ⟨rfl, ?_⟩
          cases hleft : frontier.get? (k - 1) with
          | none => simp [habove, hleft] at henter
          | some left =>
              refine ⟨left, rfl, ?_⟩
              simpa [habove, hleft, eq_comm] using henter

theorem ne_of_fromAbove? {d : Int} (habove : frontier.fromAbove? d k = some true) :
    k = -d ∨ k ≠ d := by
  rw [fromAbove?_eq] at habove
  by_cases hlow : k = -d
  · exact .inl hlow
  · rw [if_neg hlow] at habove
    refine .inr fun hhigh => ?_
    rw [if_pos hhigh] at habove
    cases habove

theorem ne_of_fromLeft? {d : Int} (hleft : frontier.fromAbove? d k = some false) : k ≠ -d := by
  rintro hlow
  rw [fromAbove?_eq, if_pos hlow] at hleft
  cases hleft

/-- A diagonal is entered no earlier than its right neighbour was left. -/
theorem le_enter?_of_right {d : Int} {x right : Nat} (henter : frontier.enter? d k = some x)
    (hright : frontier.get? (k + 1) = some right) (hk : k ≠ d) : right ≤ x := by
  rcases enter?_cases henter with ⟨-, hx⟩ | ⟨habove, left, hleft, rfl⟩
  · rw [hright] at hx
    cases hx
    exact Nat.le_refl _
  · have hlow := ne_of_fromLeft? habove
    rw [fromAbove?_eq, if_neg hlow, if_neg hk, hleft, hright] at habove
    simp at habove
    omega

/-- A diagonal is entered later than its left neighbour was left. -/
theorem lt_enter?_of_left {d : Int} {x left : Nat} (henter : frontier.enter? d k = some x)
    (hleft : frontier.get? (k - 1) = some left) (hk : k ≠ -d) : left < x := by
  rcases enter?_cases henter with ⟨habove, hx⟩ | ⟨-, left', hleft', rfl⟩
  · have hhigh := (ne_of_fromAbove? habove).resolve_left hk
    rw [fromAbove?_eq, if_neg hk, if_neg hhigh, hleft, hx] at habove
    simpa using habove
  · rw [hleft] at hleft'
    cases hleft'
    exact Nat.lt_succ_self _

/-! ### Along a diagonal -/

theorem commonFrom_spec (a b : Array α) (x y : Nat) :
    List.Forall₂ (fun u v => u == v) ((a.toList.drop x).take (commonFrom a b x y))
        ((b.toList.drop y).take (commonFrom a b x y)) ∧
      (commonFrom a b x y ≠ 0 →
        x + commonFrom a b x y ≤ a.size ∧ y + commonFrom a b x y ≤ b.size) := by
  induction x, y using commonFrom.induct a b with
  | case1 x y hinside hsame ih =>
      rw [commonFrom, dif_pos hinside, if_pos hsame]
      obtain ⟨hforall, hbound⟩ := ih
      constructor
      · rw [List.drop_eq_getElem_cons (l := a.toList) (i := x) (by simpa using hinside.1),
          List.drop_eq_getElem_cons (l := b.toList) (i := y) (by simpa using hinside.2),
          List.take_succ_cons, List.take_succ_cons]
        exact .cons (by simpa using hsame) hforall
      · intro _
        by_cases hzero : commonFrom a b (x + 1) (y + 1) = 0
        · omega
        · have hle := hbound hzero
          omega
  | case2 x y hinside hdiffer =>
      rw [commonFrom, dif_pos hinside, if_neg hdiffer]
      simp
  | case3 x y houtside =>
      rw [commonFrom, dif_neg houtside]
      simp

/-- Beside the grid nothing is kept. -/
theorem commonFrom_eq_zero {x y : Nat} (hbeside : a.size < x + commonFrom a b x y ∨
    b.size < y + commonFrom a b x y) : commonFrom a b x y = 0 := by
  by_contra hne
  have hbound := (commonFrom_spec a b x y).2 hne
  omega

theorem advance?_eq_some_iff {d : Int} {x : Nat} :
    advance? a b frontier d k = some x ↔
      ∃ entered, frontier.enter? d k = some entered ∧
        entered + commonFrom a b entered (entered - k).toNat = x := by
  rw [advance?, Option.map_eq_some_iff]

/-! ### One round -/

def Arrived (a b : Array α) (x : Nat) (k : Int) : Prop := a.size ≤ x ∧ (b.size : Int) ≤ x - k

theorem sweep_succ {d : Int} {count : Nat} {arrived : Bool}
    (hsweep : sweep a b d (count + 1) k frontier = some (next, arrived)) :
    ∃ x middle, advance? a b frontier d k = some x ∧ frontier.set? k x = some middle ∧
      ((Arrived a b x k ∧ arrived = true) ∨
        (¬Arrived a b x k ∧ sweep a b d count (k + 2) middle = some (next, arrived))) := by
  rw [sweep] at hsweep
  obtain ⟨entered, henter, hsweep⟩ := Option.bind_eq_some_iff.mp hsweep
  obtain ⟨middle, hset, hsweep⟩ := Option.bind_eq_some_iff.mp hsweep
  refine ⟨_, middle, advance?_eq_some_iff.mpr ⟨entered, henter, rfl⟩, hset, ?_⟩
  split at hsweep
  · rename_i harrived
    cases hsweep
    exact .inl ⟨by simpa [Arrived] using harrived, rfl⟩
  · rename_i harrived
    exact .inr ⟨by simpa [Arrived] using harrived, hsweep⟩

/-- A new point on a diagonal does not matter for the other diagonals of the round. -/
theorem advance?_set? {middle : Frontier} {d j : Int} {x : Nat}
    (hset : frontier.set? k x = some middle) (hleft : j - 1 ≠ k) (hright : j + 1 ≠ k) :
    advance? a b middle d j = advance? a b frontier d j := by
  rw [advance?, advance?, enter?_congr (g := frontier)]
  · rw [get?_set? hset, if_neg hleft]
  · rw [get?_set? hset, if_neg hright]

theorem sweep_arrived {d : Int} {count : Nat}
    (hsweep : sweep a b d count k frontier = some (next, true)) :
    ∃ i < count, ∃ x, advance? a b frontier d (k + 2 * i) = some x ∧ Arrived a b x (k + 2 * i) := by
  induction count generalizing k frontier with
  | zero => cases hsweep
  | succ count ih =>
      obtain ⟨x, middle, hx, hset, ⟨harrived, -⟩ | ⟨-, hrest⟩⟩ := sweep_succ hsweep
      · exact ⟨0, by omega, x, by simpa using hx, by simpa using harrived⟩
      · obtain ⟨i, hi, x', hx', harrived⟩ := ih hrest
        have hk : k + 2 + 2 * (i : Int) = k + 2 * ((i + 1 : Nat) : Int) := by omega
        rw [advance?_set? hset (by omega) (by omega)] at hx'
        rw [hk] at hx' harrived
        exact ⟨i + 1, by omega, x', hx', harrived⟩

theorem sweep_passed {d : Int} {count : Nat}
    (hsweep : sweep a b d count k frontier = some (next, false)) :
    (∀ i < count, ∃ x, advance? a b frontier d (k + 2 * i) = some x ∧
      next.get? (k + 2 * i) = some x ∧ ¬Arrived a b x (k + 2 * i)) ∧
      ∀ j, (∀ i < count, j ≠ k + 2 * i) → next.get? j = frontier.get? j := by
  induction count generalizing k frontier with
  | zero =>
      cases hsweep
      exact ⟨fun i hi => absurd hi (Nat.not_lt_zero i), fun _ _ => rfl⟩
  | succ count ih =>
      obtain ⟨x, middle, hx, hset, ⟨-, harrived⟩ | ⟨hpassed, hrest⟩⟩ := sweep_succ hsweep
      · cases harrived
      · obtain ⟨hpoints, hothers⟩ := ih hrest
        constructor
        · intro i hi
          cases i with
          | zero =>
              refine ⟨x, by simpa using hx, ?_, by simpa using hpassed⟩
              rw [hothers _ (fun i _ => by omega), get?_set? hset]
              simp
          | succ i =>
              obtain ⟨x', hx', hget, hpassed'⟩ := hpoints i (by omega)
              have hk : k + 2 + 2 * (i : Int) = k + 2 * ((i + 1 : Nat) : Int) := by omega
              rw [advance?_set? hset (by omega) (by omega)] at hx'
              rw [hk] at hx' hget hpassed'
              exact ⟨x', hx', hget, hpassed'⟩
        · intro j hj
          have hjk : j ≠ k := fun heq => hj 0 (by omega) (by omega)
          rw [hothers j fun i hi heq => hj (i + 1) (by omega) (by omega), get?_set? hset, if_neg hjk]

/-! ### The recorded rounds -/

def OnRound (d : Nat) (k : Int) : Prop := ∃ i ≤ d, k = -(d : Int) + 2 * (i : Int)

/-- The frontiers before the rounds so far, the last one first, and the frontier after them. -/
inductive Recorded (a b : Array α) : List Frontier → Frontier → Prop
  | start : Recorded a b [] (.start a.size b.size)
  | round {trace : List Frontier} {frontier next : Frontier} :
    Recorded a b trace frontier →
      sweep a b trace.length (trace.length + 1) (-trace.length) frontier = some (next, false) →
        Recorded a b (frontier :: trace) next

theorem onRound_right (hk : OnRound (d + 1) k) (hne : k = -((d + 1 : Nat) : Int) ∨ k ≠ (d + 1 : Nat)) :
    OnRound d (k + 1) := by
  obtain ⟨i, hi, rfl⟩ := hk
  exact ⟨i, by omega, by omega⟩

theorem onRound_left (hk : OnRound (d + 1) k) (hne : k ≠ -((d + 1 : Nat) : Int)) :
    OnRound d (k - 1) := by
  obtain ⟨i, hi, rfl⟩ := hk
  exact ⟨i - 1, by omega, by omega⟩

theorem Recorded.point {trace : List Frontier} (hrecorded : Recorded a b (frontier :: trace) next)
    (hk : OnRound trace.length k) :
    ∃ x, advance? a b frontier trace.length k = some x ∧ next.get? k = some x ∧
      ¬Arrived a b x k := by
  cases hrecorded with
  | round _ hsweep =>
      obtain ⟨i, hi, rfl⟩ := hk
      exact (sweep_passed hsweep).1 i (by omega)

theorem Recorded.tail {trace : List Frontier} (hrecorded : Recorded a b (frontier :: trace) next) :
    Recorded a b trace frontier := by
  cases hrecorded with
  | round htail _ => exact htail

/-- No diagonal is entered above the grid. -/
theorem Recorded.le_enter? {trace : List Frontier} (hrecorded : Recorded a b trace frontier)
    (hk : OnRound trace.length k) {x : Nat} (henter : frontier.enter? trace.length k = some x) :
    k ≤ x := by
  induction trace generalizing frontier k x with
  | nil =>
      obtain ⟨i, hi, rfl⟩ := hk
      simp only [List.length_nil] at hi ⊢
      omega
  | cons earlier trace ih =>
      have hpast : ∀ j, OnRound trace.length j → ∀ z, frontier.get? j = some z → j ≤ z := by
        intro j hj z hz
        obtain ⟨z', hadvance, hget, -⟩ := hrecorded.point hj
        obtain ⟨entered, henter, hcommon⟩ := advance?_eq_some_iff.mp hadvance
        have hentered := ih hrecorded.tail hj henter
        rw [hz] at hget
        cases hget
        omega
      rcases enter?_cases henter with ⟨habove, hright⟩ | ⟨habove, left, hleft, rfl⟩
      · have hbound := hpast _ (onRound_right hk (ne_of_fromAbove? habove)) x hright
        omega
      · have hbound := hpast _ (onRound_left hk (ne_of_fromLeft? habove)) left hleft
        omega

/-! ### Points beside the grid -/

/-- A point to the right of the grid has one on the lower neighbour diagonal, one round earlier and at
most one column before it. -/
theorem Recorded.overshoot_right {trace : List Frontier} (hrecorded : Recorded a b trace frontier)
    (hk : OnRound trace.length k) {x : Nat} (hx : advance? a b frontier trace.length k = some x)
    (hover : a.size < x) :
    ∃ earlier rest y, trace = earlier :: rest ∧ OnRound rest.length (k - 1) ∧
      frontier.get? (k - 1) = some y ∧ x ≤ y + 1 := by
  induction trace generalizing frontier k x with
  | nil =>
      obtain ⟨entered, henter, hcommon⟩ := advance?_eq_some_iff.mp hx
      have hzero := commonFrom_eq_zero (a := a) (b := b) (x := entered) (y := (entered - k).toNat)
        (.inl (by omega))
      cases hrecorded
      obtain ⟨i, hi, rfl⟩ := hk
      rcases enter?_cases henter with ⟨-, hright⟩ | ⟨habove, -⟩
      · have hentered := eq_zero_of_get?_start hright
        omega
      · exact absurd (by simp only [List.length_nil] at hi ⊢; omega) (ne_of_fromLeft? habove)
  | cons earlier rest ih =>
      obtain ⟨entered, henter, hcommon⟩ := advance?_eq_some_iff.mp hx
      have hzero := commonFrom_eq_zero (a := a) (b := b) (x := entered) (y := (entered - k).toNat)
        (.inl (by omega))
      refine ⟨earlier, rest, ?_⟩
      rcases enter?_cases henter with ⟨habove, hright⟩ | ⟨habove, left, hleft, rfl⟩
      · -- the way came down from a point to the right of the grid, one round before
        have hk' := onRound_right hk (ne_of_fromAbove? habove)
        obtain ⟨x', hadvance, hget, -⟩ := hrecorded.point hk'
        rw [hright] at hget
        cases hget
        obtain ⟨before, rest', y, rfl, hkd, hy, hxy⟩ := ih hrecorded.tail hk' hadvance (by omega)
        obtain ⟨i, hi, hki⟩ := hkd
        have hlow : OnRound (before :: rest').length (k - 1) :=
          ⟨i, by simp only [List.length_cons]; omega, by simp only [List.length_cons]; omega⟩
        obtain ⟨z, hz, hgetz, -⟩ := hrecorded.point hlow
        obtain ⟨entered', henter', hcommon'⟩ := advance?_eq_some_iff.mp hz
        rw [show k + 1 - 1 = k - 1 + 1 by omega] at hy
        have hbound := le_enter?_of_right henter' hy (by simp only [List.length_cons]; omega)
        exact ⟨z, rfl, hlow, hgetz, by omega⟩
      · exact ⟨left, rfl, onRound_left hk (ne_of_fromLeft? habove), hleft, by omega⟩

/-- A point below the grid has one on the upper neighbour diagonal, one round earlier and not before
it. -/
theorem Recorded.overshoot_below {trace : List Frontier} (hrecorded : Recorded a b trace frontier)
    (hk : OnRound trace.length k) {x : Nat} (hx : advance? a b frontier trace.length k = some x)
    (hover : (b.size : Int) < x - k) :
    ∃ earlier rest y, trace = earlier :: rest ∧ OnRound rest.length (k + 1) ∧
      frontier.get? (k + 1) = some y ∧ x ≤ y := by
  induction trace generalizing frontier k x with
  | nil =>
      obtain ⟨entered, henter, hcommon⟩ := advance?_eq_some_iff.mp hx
      have hle := hrecorded.le_enter? hk henter
      have hzero := commonFrom_eq_zero (a := a) (b := b) (x := entered) (y := (entered - k).toNat)
        (.inr (by omega))
      cases hrecorded
      obtain ⟨i, hi, rfl⟩ := hk
      rcases enter?_cases henter with ⟨-, hright⟩ | ⟨habove, -⟩
      · have hentered := eq_zero_of_get?_start hright
        simp only [List.length_nil] at hi hover
        omega
      · exact absurd (by simp only [List.length_nil] at hi ⊢; omega) (ne_of_fromLeft? habove)
  | cons earlier rest ih =>
      obtain ⟨entered, henter, hcommon⟩ := advance?_eq_some_iff.mp hx
      have hle := hrecorded.le_enter? hk henter
      have hzero := commonFrom_eq_zero (a := a) (b := b) (x := entered) (y := (entered - k).toNat)
        (.inr (by omega))
      refine ⟨earlier, rest, ?_⟩
      rcases enter?_cases henter with ⟨habove, hright⟩ | ⟨habove, left, hleft, rfl⟩
      · exact ⟨entered, rfl, onRound_right hk (ne_of_fromAbove? habove), hright, by omega⟩
      · -- the way came from a point below the grid, one round before
        have hk' := onRound_left hk (ne_of_fromLeft? habove)
        obtain ⟨x', hadvance, hget, -⟩ := hrecorded.point hk'
        rw [hleft] at hget
        cases hget
        obtain ⟨before, rest', y, rfl, hkd, hy, hxy⟩ := ih hrecorded.tail hk' hadvance (by omega)
        obtain ⟨i, hi, hki⟩ := hkd
        have hhigh : OnRound (before :: rest').length (k + 1) :=
          ⟨i + 1, by simp only [List.length_cons]; omega, by simp only [List.length_cons]; omega⟩
        obtain ⟨z, hz, hgetz, -⟩ := hrecorded.point hhigh
        obtain ⟨entered', henter', hcommon'⟩ := advance?_eq_some_iff.mp hz
        rw [show k - 1 + 1 = k + 1 - 1 by omega] at hy
        have hbound := lt_enter?_of_left henter' hy (by simp only [List.length_cons]; omega)
        exact ⟨z, rfl, hhigh, hgetz, by omega⟩

/-- **The first arrival is at the far corner.** -/
theorem Recorded.eq_corner {trace : List Frontier} (hrecorded : Recorded a b trace frontier)
    (hk : OnRound trace.length k) {x : Nat} (hx : advance? a b frontier trace.length k = some x)
    (harrived : Arrived a b x k) : x = a.size ∧ k = (a.size : Int) - b.size := by
  obtain ⟨hright, hbelow⟩ := harrived
  have hnotRight : ¬a.size < x := by
    intro hover
    obtain ⟨earlier, rest, y, rfl, hk', hy, hxy⟩ := hrecorded.overshoot_right hk hx hover
    obtain ⟨y', -, hy', hpassed⟩ := hrecorded.point hk'
    rw [hy] at hy'
    cases hy'
    exact hpassed ⟨by omega, by omega⟩
  have hnotBelow : ¬(b.size : Int) < x - k := by
    intro hover
    obtain ⟨earlier, rest, y, rfl, hk', hy, hxy⟩ := hrecorded.overshoot_below hk hx hover
    obtain ⟨y', -, hy', hpassed⟩ := hrecorded.point hk'
    rw [hy] at hy'
    cases hy'
    exact hpassed ⟨by omega, by omega⟩
  omega

/-- A round that arrives does so with the far corner as the point on its diagonal. -/
theorem Recorded.advance?_corner {trace : List Frontier} (hrecorded : Recorded a b trace frontier)
    (hsweep : sweep a b trace.length (trace.length + 1) (-trace.length) frontier = some (next, true)) :
    OnRound trace.length ((a.size : Int) - b.size) ∧
      advance? a b frontier trace.length ((a.size : Int) - b.size) = some a.size := by
  obtain ⟨i, hi, x, hadvance, harrived⟩ := sweep_arrived hsweep
  have hk : OnRound trace.length (-(trace.length : Int) + 2 * (i : Int)) := ⟨i, by omega, rfl⟩
  obtain ⟨rfl, hcorner⟩ := hrecorded.eq_corner hk hadvance harrived
  rw [hcorner] at hk hadvance
  exact ⟨hk, hadvance⟩

/-! ### The way back -/

theorem walkBack_above {x y fromX common : Nat} {runs : List Run} {trace : List Frontier}
    (habove : frontier.fromAbove? trace.length ((x : Int) - y) = some true)
    (hfrom : frontier.get? ((x : Int) - y + 1) = some fromX) (hx : x = fromX + common) :
    walkBack x y runs (frontier :: trace) =
      walkBack fromX (fromX - ((x : Int) - y + 1))
        (if trace.length = 0 then Run.cons (.keep common) runs
          else Run.cons (.insert 1) (Run.cons (.keep common) runs)) trace := by
  have hcommon : min ((x : Int) - fromX) (y - (fromX - ((x : Int) - y + 1))) = common := by omega
  have hback : (x : Int) - common = fromX := by omega
  rw [walkBack, habove]
  simp only [Option.bind_eq_bind, Option.bind_some, if_true, hfrom, hcommon, Int.toNat_natCast, hback]

theorem walkBack_left {x y fromX common : Nat} {runs : List Run} {trace : List Frontier}
    (habove : frontier.fromAbove? trace.length ((x : Int) - y) = some false)
    (hfrom : frontier.get? ((x : Int) - y - 1) = some fromX) (hx : x = fromX + 1 + common) :
    walkBack x y runs (frontier :: trace) =
      walkBack fromX (fromX - ((x : Int) - y - 1))
        (if trace.length = 0 then Run.cons (.keep common) runs
          else Run.cons (.delete 1) (Run.cons (.keep common) runs)) trace := by
  have hcommon : min ((x : Int) - fromX) (y - (fromX - ((x : Int) - y - 1))) = common := by omega
  have hback : ¬(x : Int) - common = fromX := by omega
  rw [walkBack, habove]
  simp only [Option.bind_eq_bind, Option.bind_some, Bool.false_eq_true, if_false, hfrom, hcommon,
    Int.toNat_natCast, hback]

/-- A stretch along a diagonal in front of an alignment. -/
theorem aligns_keep_common {runs : List Run} {x y : Nat}
    (hx : x + commonFrom a b x y ≤ a.size) (hy : y + commonFrom a b x y ≤ b.size)
    (haligns : Run.Aligns (fun u v => u == v) runs (a.toList.drop (x + commonFrom a b x y))
      (b.toList.drop (y + commonFrom a b x y))) :
    Run.Aligns (fun u v => u == v) (Run.cons (.keep (commonFrom a b x y)) runs) (a.toList.drop x)
      (b.toList.drop y) := by
  refine Run.aligns_cons ⟨?_, ?_, (commonFrom_spec a b x y).1, ?_⟩
  · rw [List.length_drop, Array.length_toList]
    omega
  · rw [List.length_drop, Array.length_toList]
    omega
  · rwa [List.drop_drop, List.drop_drop]

/-- A point of the frontier was reached on the round before, and lies on the grid. -/
theorem Recorded.earlier {trace : List Frontier} {before : Frontier}
    (hrecorded : Recorded a b (before :: trace) frontier) {k : Int} (hk : OnRound trace.length k) {x : Nat}
    (hx : frontier.get? k = some x) : advance? a b before trace.length k = some x ∧ k ≤ x := by
  obtain ⟨x', hadvance, hget, -⟩ := hrecorded.point hk
  rw [hx] at hget
  cases hget
  obtain ⟨entered, henter, hcommon⟩ := advance?_eq_some_iff.mp hadvance
  have hle := hrecorded.tail.le_enter? hk henter
  exact ⟨hadvance, by omega⟩

/-- The way back from a point of the first round leads along the main diagonal to the corner. -/
theorem walkBack_start {x y : Nat} (hk : OnRound 0 ((x : Int) - y))
    (hadvance : advance? a b (.start a.size b.size) 0 ((x : Int) - y) = some x) (runs : List Run) :
    walkBack x y runs [.start a.size b.size] = some (Run.cons (.keep x) runs) ∧ y = x ∧
      x = commonFrom a b 0 0 := by
  obtain ⟨entered, henter, hcommon⟩ := advance?_eq_some_iff.mp hadvance
  obtain ⟨i, hi, hxy⟩ := hk
  rcases enter?_cases henter with ⟨habove, hright⟩ | ⟨habove, -⟩
  · have hzero := eq_zero_of_get?_start hright
    subst hzero
    have hentry : ((0 : Nat) - ((x : Int) - y)).toNat = 0 := by omega
    rw [hentry, Nat.zero_add] at hcommon
    have hwalk : walkBack x y runs [.start a.size b.size] = _ :=
      walkBack_above habove hright (Nat.zero_add x).symm
    exact ⟨hwalk.trans rfl, by omega, hcommon.symm⟩
  · exact absurd (by omega) (ne_of_fromLeft? habove)

/-- One round of the way back: a point comes along its diagonal from where the diagonal was entered, and
that is one step below or to the right of a point of the round before. -/
theorem Recorded.walkBack_cons {trace : List Frontier} {earlier : Frontier}
    (hrecorded : Recorded a b (earlier :: trace) frontier) {x y : Nat}
    (hk : OnRound (earlier :: trace).length ((x : Int) - y))
    (hadvance : advance? a b frontier (earlier :: trace).length ((x : Int) - y) = some x)
    (runs : List Run) :
    ∃ step : Run, ∃ fromX fromY enteredX enteredY : Nat,
      (step = .insert 1 ∧ enteredX = fromX ∧ enteredY = fromY + 1 ∨
        step = .delete 1 ∧ enteredX = fromX + 1 ∧ enteredY = fromY) ∧
      x = enteredX + commonFrom a b enteredX enteredY ∧
      y = enteredY + commonFrom a b enteredX enteredY ∧
      OnRound trace.length ((fromX : Int) - fromY) ∧
      advance? a b earlier trace.length ((fromX : Int) - fromY) = some fromX ∧
      walkBack x y runs (frontier :: earlier :: trace) =
        walkBack fromX fromY
          (Run.cons step (Run.cons (.keep (commonFrom a b enteredX enteredY)) runs))
          (earlier :: trace) := by
  obtain ⟨entered, henter, hcommon⟩ := advance?_eq_some_iff.mp hadvance
  have hle := hrecorded.le_enter? hk henter
  obtain ⟨y', hy'⟩ := Int.eq_ofNat_of_zero_le (a := (entered : Int) - ((x : Int) - y)) (by omega)
  rw [hy', Int.toNat_natCast] at hcommon
  rcases enter?_cases henter with ⟨habove, hright⟩ | ⟨habove, left, hleft, rfl⟩
  · have hk' := onRound_right hk (ne_of_fromAbove? habove)
    obtain ⟨hadvance', hle'⟩ := hrecorded.earlier hk' hright
    obtain ⟨fromY, rfl⟩ : ∃ fromY, y' = fromY + 1 := ⟨y' - 1, by omega⟩
    have hfrom : (entered : Int) - ((x : Int) - y + 1) = fromY := by omega
    have hdiagonal : (x : Int) - y + 1 = (entered : Int) - fromY := by omega
    have hwalk : walkBack x y runs (frontier :: earlier :: trace) = _ :=
      walkBack_above habove hright hcommon.symm
    rw [if_neg (by simp), hfrom] at hwalk
    rw [hdiagonal] at hk' hadvance'
    exact ⟨.insert 1, entered, fromY, entered, fromY + 1, .inl ⟨rfl, rfl, rfl⟩, hcommon.symm, by omega,
      hk', hadvance', hwalk⟩
  · have hk' := onRound_left hk (ne_of_fromLeft? habove)
    obtain ⟨hadvance', hle'⟩ := hrecorded.earlier hk' hleft
    have hfrom : (left : Int) - ((x : Int) - y - 1) = y' := by omega
    have hdiagonal : (x : Int) - y - 1 = (left : Int) - y' := by omega
    have hwalk : walkBack x y runs (frontier :: earlier :: trace) = _ :=
      walkBack_left habove hleft hcommon.symm
    rw [if_neg (by simp), hfrom] at hwalk
    rw [hdiagonal] at hk' hadvance'
    exact ⟨.delete 1, left, y', left + 1, y', .inr ⟨rfl, rfl, rfl⟩, hcommon.symm, by omega, hk',
      hadvance', hwalk⟩

/-- **The way back from a point aligns what lies before it.** -/
theorem Recorded.aligns_walkBack {trace : List Frontier} (hrecorded : Recorded a b trace frontier)
    {x y : Nat} (hk : OnRound trace.length ((x : Int) - y))
    (hadvance : advance? a b frontier trace.length ((x : Int) - y) = some x) (hx : x ≤ a.size)
    (hy : y ≤ b.size) {runs result : List Run}
    (haligns : Run.Aligns (fun u v => u == v) runs (a.toList.drop x) (b.toList.drop y))
    (hwalk : walkBack x y runs (frontier :: trace) = some result) :
    Run.Aligns (fun u v => u == v) result a.toList b.toList := by
  induction trace generalizing frontier x y runs with
  | nil =>
      cases hrecorded
      obtain ⟨hback, hxy, hcommon⟩ := walkBack_start hk hadvance runs
      rw [hback] at hwalk
      cases hwalk
      rw [hxy] at haligns hy
      rw [hcommon] at haligns hx hy ⊢
      exact aligns_keep_common (x := 0) (y := 0) (by omega) (by omega) (by simpa using haligns)
  | cons earlier trace ih =>
      obtain ⟨step, fromX, fromY, enteredX, enteredY, hstep, hx', hy', hk', hadvance', hback⟩ :=
        hrecorded.walkBack_cons hk hadvance runs
      rw [hback] at hwalk
      rw [hx'] at haligns hx
      rw [hy'] at haligns hy
      have hkept := aligns_keep_common hx hy haligns
      refine ih hrecorded.tail hk' hadvance' (by omega) (by omega) (Run.aligns_cons ?_) hwalk
      rcases hstep with ⟨rfl, rfl, rfl⟩ | ⟨rfl, rfl, rfl⟩
      · refine ⟨?_, ?_⟩
        · rw [List.length_drop, Array.length_toList]
          omega
        · rwa [List.drop_drop]
      · refine ⟨?_, ?_⟩
        · rw [List.length_drop, Array.length_toList]
          omega
        · rwa [List.drop_drop]

/-- A search that finds runs finds an alignment. -/
theorem Recorded.aligns_search {trace : List Frontier} (hrecorded : Recorded a b trace frontier)
    {rounds : Nat} {result : List Run}
    (hsearch : search a b rounds trace.length trace frontier = some (.found result)) :
    Run.Aligns (fun u v => u == v) result a.toList b.toList := by
  induction rounds generalizing trace frontier with
  | zero => cases hsearch
  | succ rounds ih =>
      rw [search] at hsearch
      split at hsearch
      · cases hsearch
      · obtain ⟨⟨next, arrived⟩, hsweep, hsearch⟩ := Option.bind_eq_some_iff.mp hsearch
        cases arrived with
        | false => exact ih (.round hrecorded hsweep) hsearch
        | true =>
            obtain ⟨runs, hwalk, hresult⟩ := Option.bind_eq_some_iff.mp hsearch
            cases hresult
            obtain ⟨hk, hadvance⟩ := hrecorded.advance?_corner hsweep
            refine hrecorded.aligns_walkBack hk hadvance (Nat.le_refl _) (Nat.le_refl _) ?_ hwalk
            rw [← Array.length_toList, List.drop_length, ← Array.length_toList, List.drop_length]
            exact ⟨rfl, rfl⟩

end JsonEdit.Frontier

namespace JsonEdit.Run

variable {α : Type} [BEq α]

theorem aligns_betweenMiddles (a b : Array α) :
    Aligns (fun u v => u == v) (betweenMiddles a b) a.toList b.toList := by
  have hreplace : Aligns (fun u v : α => u == v) (replaceAll a.size b.size) a.toList b.toList := by
    rw [← Array.length_toList, ← Array.length_toList]
    exact aligns_replaceAll a.toList b.toList
  unfold betweenMiddles
  split
  · exact hreplace
  · split
    · rename_i runs hsearch
      refine aligns_gather (Nat.zero_le _) (Nat.zero_le _) ?_
      exact Frontier.Recorded.aligns_search .start hsearch
    · exact hreplace

theorem commonPrefix_spec (a b : List α) :
    commonPrefix a b ≤ a.length ∧ commonPrefix a b ≤ b.length ∧
      List.Forall₂ (fun u v => u == v) (a.take (commonPrefix a b)) (b.take (commonPrefix a b)) := by
  induction a generalizing b with
  | nil => simp [commonPrefix]
  | cons x xs ih =>
      cases b with
      | nil => simp [commonPrefix]
      | cons y ys =>
          rw [commonPrefix]
          split
          · rename_i hsame
            obtain ⟨hxs, hys, hforall⟩ := ih ys
            refine ⟨Nat.succ_le_succ hxs, Nat.succ_le_succ hys, ?_⟩
            rw [List.take_succ_cons, List.take_succ_cons]
            exact .cons (by simpa using hsame) hforall
          · simp

/-- Two sequences end alike as far as their reversals begin alike. -/
theorem forall₂_drop_of_reverse {a b : List α} {count : Nat}
    (hforall : List.Forall₂ (fun u v => u == v) (a.reverse.take count) (b.reverse.take count)) :
    List.Forall₂ (fun u v => u == v) (a.drop (a.length - count)) (b.drop (b.length - count)) := by
  rw [List.take_reverse, List.take_reverse, List.forall₂_reverse_iff] at hforall
  exact hforall

/-- **The runs between two sequences align them.** -/
theorem aligns_between (a b : List α) : Aligns (fun u v => u == v) (between a b) a b := by
  obtain ⟨ha, hb, hfront⟩ := commonPrefix_spec a b
  unfold between
  refine aligns_normalize ⟨ha, hb, hfront, ?_⟩
  obtain ⟨ha', -, hback⟩ := commonPrefix_spec (a.drop (commonPrefix a b)).reverse
    (b.drop (commonPrefix a b)).reverse
  generalize a.drop (commonPrefix a b) = a' at *
  generalize b.drop (commonPrefix a b) = b' at *
  generalize commonPrefix a'.reverse b'.reverse = back at *
  rw [List.length_reverse] at ha'
  have hmiddle := aligns_betweenMiddles (a'.take (a'.length - back)).toArray
    (b'.take (b'.length - back)).toArray
  have hend := aligns_keep (forall₂_drop_of_reverse hback)
  rw [List.length_drop, Nat.sub_sub_self ha'] at hend
  have hboth := aligns_append hmiddle hend
  rwa [List.take_append_drop, List.take_append_drop] at hboth

end JsonEdit.Run
