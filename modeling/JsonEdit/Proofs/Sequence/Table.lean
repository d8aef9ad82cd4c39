import JsonEdit.Proofs.Sequence.Shortest

/-!
# The search stays within its table and arrives

The table has places for the diagonals from `-(n + m)` to `n + m + 1`. Round `d` goes over diagonals from
`-d` to `d`, and there are no more than `n + m` rounds after the first one. A diagonal at the rim of a round
is entered from inside, so its neighbour beyond the rim is not looked at on the left, and on the right there
is one place more. The way back goes over the same diagonals, one round after the other.

That the rounds are no more than that is due to the arrival: the farthest point of a round is not behind any
way with as many steps, and one way deletes and inserts everything.
-/

namespace JsonEdit.Frontier

variable {α : Type} [BEq α] {a b : Array α} {frontier current : Frontier} {trace : List Frontier}
  {d : Nat} {k x y : Int}

/-! ### Places that are used -/

/-- The table has a place for diagonal `k` and for each neighbour of it that round `d` looks at. -/
structure Covers (frontier : Frontier) (d : Nat) (k : Int) : Prop where
  own : frontier.HasPlace k
  above : k = -d ∨ k ≠ d → frontier.HasPlace (k + 1)
  left : k ≠ -d → frontier.HasPlace (k - 1)

omit [BEq α] in
theorem Sized.covers (hsized : Sized a b frontier) (hd : d ≤ a.size + b.size) (hk : OnRound d k) :
    frontier.Covers d k := by
  obtain ⟨i, hi, rfl⟩ := hk
  constructor
  · apply hsized.hasPlace <;> omega
  · intro _
    apply hsized.hasPlace <;> omega
  · intro hrim
    apply hsized.hasPlace <;> omega

/-! ### On the way forth -/

/-- In round `d` diagonal `k` is due, and the round has brought the table to `current`. -/
inductive Due (a b : Array α) : (d : Nat) → (k : Int) → (current : Frontier) → Prop
  | intro {trace : List Frontier} {frontier current : Frontier} {count : Nat}
      (hrecorded : Recorded a b trace frontier) (hcount : count ≤ trace.length)
      (hsweep : sweep a b trace.length count (-trace.length) frontier = some (current, false)) :
      Due a b trace.length (-trace.length + 2 * count) current

theorem Sized.sweep {next : Frontier} {arrived : Bool} {count : Nat} {d : Int}
    (hsized : Sized a b frontier) (hsweep : Frontier.sweep a b d count k frontier = some (next, arrived)) :
    Sized a b next := by
  induction count generalizing k frontier with
  | zero =>
      cases hsweep
      exact hsized
  | succ count ih =>
      rw [Frontier.sweep] at hsweep
      obtain ⟨entered, -, hsweep⟩ := Option.bind_eq_some_iff.mp hsweep
      obtain ⟨middle, hset, hsweep⟩ := Option.bind_eq_some_iff.mp hsweep
      split at hsweep
      · cases hsweep
        exact hsized.set? hset
      · exact ih (hsized.set? hset) hsweep

/-- The diagonals of a round do not get in each other's way: the one that is due is entered as if the round
had just begun. -/
theorem enter?_of_sweep {count : Nat} {d : Int}
    (hsweep : sweep a b d count k frontier = some (current, false)) :
    current.enter? d (k + 2 * count) = frontier.enter? d (k + 2 * count) := by
  obtain ⟨-, hothers⟩ := sweep_passed hsweep
  apply enter?_congr
  · apply hothers
    intro i hi
    omega
  · apply hothers
    intro i hi
    omega

theorem advance?_of_sweep {count : Nat} {d : Int}
    (hsweep : sweep a b d count k frontier = some (current, false)) :
    advance? a b current d (k + 2 * count) = advance? a b frontier d (k + 2 * count) := by
  rw [advance?, advance?, enter?_of_sweep hsweep]

/-- Where a diagonal is due the table has the places that are looked at. -/
theorem Due.covers (hdue : Due a b d k current) : d ≤ a.size + b.size ∧ current.Covers d k := by
  obtain ⟨hrecorded, hcount, hsweep⟩ := hdue
  refine ⟨hrecorded.length_le, ?_⟩
  exact (hrecorded.sized.sweep hsweep).covers hrecorded.length_le ⟨_, hcount, rfl⟩

/-- No point above the grid is come to, so the items at a point can be looked at. -/
theorem Due.le_enter? (hdue : Due a b d k current) {x : Nat} (henter : current.enter? d k = some x) :
    k ≤ x := by
  obtain ⟨hrecorded, hcount, hsweep⟩ := hdue
  rw [enter?_of_sweep hsweep] at henter
  exact hrecorded.le_enter? ⟨_, hcount, rfl⟩ henter

/-- There is a next point, and if the search arrives there it is the far corner. -/
theorem Due.exists_advance? (hdue : Due a b d k current) :
    ∃ x, advance? a b current d k = some x ∧ (Arrived a b x k → x = a.size ∧ x - k = b.size) := by
  cases hdue with
  | @intro trace frontier current count hrecorded hcount hsweep =>
      obtain ⟨x, hadvance⟩ :
          ∃ x, advance? a b frontier trace.length (-trace.length + 2 * count) = some x :=
        hrecorded.sized.exists_advance? hrecorded.length_le (by omega) (by omega)
      refine ⟨x, (advance?_of_sweep hsweep).trans hadvance, ?_⟩
      intro harrived
      obtain ⟨hx, hk⟩ := hrecorded.eq_corner ⟨count, hcount, rfl⟩ hadvance harrived
      exact ⟨hx, by omega⟩

/-! ### On the way back -/

/-- The way back comes to the point `(x, y)`, and these recorded frontiers are left, the last one first. -/
inductive OnWayBack (a b : Array α) : (x y : Int) → (left : List Frontier) → Prop
  | corner {trace : List Frontier} {frontier next : Frontier} (hrecorded : Recorded a b trace frontier)
      (harrived : sweep a b trace.length (trace.length + 1) (-trace.length) frontier =
        some (next, true)) : OnWayBack a b a.size b.size (frontier :: trace)
  | above {x y : Int} {trace : List Frontier} {frontier : Frontier} {fromX : Nat}
      (hback : OnWayBack a b x y (frontier :: trace))
      (habove : frontier.fromAbove? trace.length (x - y) = some true)
      (hfrom : frontier.get? (x - y + 1) = some fromX) :
      OnWayBack a b fromX (fromX - (x - y + 1)) trace
  | left {x y : Int} {trace : List Frontier} {frontier : Frontier} {fromX : Nat}
      (hback : OnWayBack a b x y (frontier :: trace))
      (habove : frontier.fromAbove? trace.length (x - y) = some false)
      (hfrom : frontier.get? (x - y - 1) = some fromX) :
      OnWayBack a b fromX (fromX - (x - y - 1)) trace

/-- What a recorded table says of a diagonal is the point that the round before came to there. -/
theorem Recorded.point_of_get? {latest : Frontier} {fromX : Nat}
    (hrecorded : Recorded a b (frontier :: trace) latest) (hk : OnRound trace.length k)
    (hfrom : latest.get? k = some fromX) :
    Recorded a b trace frontier ∧ OnRound trace.length ((fromX : Int) - (fromX - k)) ∧
      ∃ reached : Nat, (fromX : Int) = reached ∧
        advance? a b frontier trace.length ((fromX : Int) - (fromX - k)) = some reached := by
  obtain ⟨hadvance, -⟩ := hrecorded.earlier hk hfrom
  have hdiagonal : (fromX : Int) - (fromX - k) = k := by omega
  rw [hdiagonal]
  exact ⟨hrecorded.tail, hk, fromX, rfl, hadvance⟩

/-- A point on the way back is the one that its round came to on its diagonal. -/
theorem OnWayBack.point (hback : OnWayBack a b x y (frontier :: trace)) :
    Recorded a b trace frontier ∧ OnRound trace.length (x - y) ∧
      ∃ reached : Nat, x = reached ∧ advance? a b frontier trace.length (x - y) = some reached := by
  generalize hleft : frontier :: trace = left at hback
  induction hback generalizing frontier trace with
  | corner hrecorded harrived =>
      cases hleft
      obtain ⟨hk, hadvance⟩ := hrecorded.advance?_corner harrived
      exact ⟨hrecorded, hk, _, rfl, hadvance⟩
  | above hback habove hfrom ih =>
      subst hleft
      obtain ⟨hrecorded, hk, -⟩ := ih rfl
      exact hrecorded.point_of_get? (onRound_right hk (ne_of_fromAbove? habove)) hfrom
  | left hback habove hfrom ih =>
      subst hleft
      obtain ⟨hrecorded, hk, -⟩ := ih rfl
      exact hrecorded.point_of_get? (onRound_left hk (ne_of_fromLeft? habove)) hfrom

/-- On the way back the recorded tables have the places that are looked at. -/
theorem OnWayBack.covers (hback : OnWayBack a b x y (frontier :: trace)) :
    frontier.Covers trace.length (x - y) := by
  obtain ⟨hrecorded, hk, -⟩ := hback.point
  exact hrecorded.sized.covers hrecorded.length_le hk

/-- **The search stays within its table and arrives.** Whenever a diagonal is due, the table has the places
that are read and written there, in no later round than the number of all items; the point that is come to
is not above the grid, and if it is an arrival it is the far corner. On the way back each recorded table has
the places that are read. And the search ends in front of a round that would go over its budget, or else
with the way back from the round that has arrived. -/
theorem search_inside_table (a b : Array α) :
    (∀ d k current, Due a b d k current →
      d ≤ a.size + b.size ∧ current.Covers d k ∧ (∀ x, current.enter? d k = some x → k ≤ x) ∧
        ∃ x, advance? a b current d k = some x ∧
          (Arrived a b x k → x = a.size ∧ x - k = b.size)) ∧
    (∀ x y frontier trace, OnWayBack a b x y (frontier :: trace) →
      frontier.Covers trace.length (x - y)) ∧
    Concludes a b (searchAll a b) := by
  refine ⟨?_, ?_, concludes_searchAll a b⟩
  · intro d k current hdue
    obtain ⟨hd, hcovers⟩ := hdue.covers
    exact ⟨hd, hcovers, fun x => hdue.le_enter?, hdue.exists_advance?⟩
  · intro x y frontier trace hback
    exact hback.covers

/-- The second round deletes a letter and keeps the other one, and the third round arrives with an
insertion. -/
theorem search_inside_table_letters :
    let a := #['a', 'b']
    let b := #['b', 'c']
    let second : Frontier := ⟨#[0, 0, 0, 0, 0, 2, 0, 0, 0, 0], 4⟩
    (Due a b 2 0 second ∧ second.Covers 2 0) ∧
      (OnWayBack a b 2 1 [.start 2 2, .start 2 2] ∧ (Frontier.start 2 2).Covers 1 1) ∧
        Concludes a b (searchAll a b) := by
  intro a b second
  have hfirst : Recorded a b [.start 2 2] (.start 2 2) := .round .start (by decide +kernel)
  have hsecond : Recorded a b [.start 2 2, .start 2 2] second := .round hfirst (by decide +kernel)
  have hpassed : sweep a b 2 1 (-2) second = some (second, false) := by decide +kernel
  have hdue : Due a b 2 0 second := .intro hsecond (show 1 ≤ 2 by decide) hpassed
  have harrived : sweep a b 2 3 (-2) second = some (⟨#[0, 0, 0, 0, 2, 2, 0, 0, 0, 0], 4⟩, true) := by
    decide +kernel
  have hcorner : OnWayBack a b 2 2 [second, .start 2 2, .start 2 2] := .corner hsecond harrived
  have hget : second.get? (2 - 2 + 1) = some 2 := by decide +kernel
  have habove : OnWayBack a b 2 1 [.start 2 2, .start 2 2] := hcorner.above (by decide +kernel) hget
  obtain ⟨hforth, hbackward, hend⟩ := search_inside_table a b
  exact ⟨⟨hdue, (hforth _ _ _ hdue).2.1⟩, ⟨habove, hbackward _ _ _ _ habove⟩, hend⟩

end JsonEdit.Frontier
