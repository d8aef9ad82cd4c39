import JsonEdit.Proofs.Json.Walk

/-!
# A walk that counts its places

A walk can keep a state from one place to the next. With the number of places so far as the state, it
need not know beforehand how many places its path leads to, and what happens at a place can depend on the
number of the place.

Such a walk fails at the first place that has a fault. While no answer depends on the number it is the
plain walk, and in the end every place has been counted once.
-/

namespace JsonEdit

namespace Json

/-- The walk to the places of a path, for a change that keeps a state from one place to the next. -/
def updateWith {σ : Type} (change : Path → Json → StateT σ (Except Fault) (Option Json)) (trail : Path) :
    Path → Json → StateT σ (Except Fault) (Option Json)
  | [], tree => change trail tree
  | step :: rest, tree =>
    (tree.places step).foldlM (fun changed place => do
      let path := trail.child place.step
      match ← updateWith change path rest place.value with
      | none => return changed
      | some new => return some (← fill place.slot path new (changed.getD tree))) none

/-- The state is the number of places so far, and the answer depends on the number of the place. -/
def Counts (visit : Path → Json → StateT Nat (Except Fault) (Option Json))
    (answer : Nat → Path → Json → Except Fault (Option Json)) : Prop :=
  ∀ path value hits, (visit path value).run hits = (answer (hits + 1) path value).map (·, hits + 1)

section

variable {visit : Path → Json → StateT Nat (Except Fault) (Option Json)}
  {answer : Nat → Path → Json → Except Fault (Option Json)} {tree : Json}

def countPlace (visit : Path → Json → StateT Nat (Except Fault) (Option Json)) (trail rest : Path)
    (tree : Json) (state : Option Json × Nat) (place : Place) : Except Fault (Option Json × Nat) :=
  match (updateWith visit (trail.child place.step) rest place.value).run state.2 with
  | .error fault => .error fault
  | .ok (none, hits) => .ok (state.1, hits)
  | .ok (some new, hits) =>
    (fill place.slot (trail.child place.step) new (state.1.getD tree)).map (some ·, hits)

theorem run_foldlM {α β σ : Type} (step : α → β → StateT σ (Except Fault) α) (items : List β) (value : α)
    (state : σ) :
    (items.foldlM step value).run state =
      items.foldlM (fun pair item => (step pair.1 item).run pair.2) (value, state) := by
  induction items generalizing value state with
  | nil => rfl
  | cons item rest ih =>
      rw [List.foldlM_cons, List.foldlM_cons, StateT.run_bind]
      exact congrArg _ (funext fun pair => ih pair.1 pair.2)

theorem run_return_some (result : Except Fault Json) (hits : Nat) :
    StateT.run (do return some (← result) : StateT Nat (Except Fault) (Option Json)) hits =
      result.map (some ·, hits) := by
  cases result <;> rfl

theorem run_updateWith_cons (visit : Path → Json → StateT Nat (Except Fault) (Option Json)) (trail : Path)
    (step : Step) (rest : Path) (tree : Json) (hits : Nat) :
    (updateWith visit trail (step :: rest) tree).run hits =
      (tree.places step).foldlM (countPlace visit trail rest tree) (none, hits) := by
  rw [updateWith, run_foldlM]
  refine except_foldlM_congr (fun place _ state => ?_) (none, hits)
  obtain ⟨changed, hits⟩ := state
  rw [countPlace, StateT.run_bind]
  rcases (updateWith visit (trail.child place.step) rest place.value).run hits with
    fault | ⟨answer | new, hits⟩
  · rfl
  · rfl
  · exact run_return_some (fill place.slot (trail.child place.step) new (changed.getD tree)) hits

/-! ### Counting changes nothing else -/

theorem countPlace_of_const {change : Path → Json → Except Fault (Option Json)} {trail rest : Path}
    {place : Place} {hits after : Nat}
    (hbelow : (updateWith visit (trail.child place.step) rest place.value).run hits =
      (updateFrom change (trail.child place.step) rest place.value).map (·, after))
    (changed : Option Json) :
    countPlace visit trail rest tree (changed, hits) place =
      (updatePlace change trail rest tree changed place).map (·, after) := by
  rw [countPlace, hbelow, updatePlace]
  rcases updateFrom change (trail.child place.step) rest place.value with fault | none | new
  · rfl
  · rfl
  · cases hfill : fill place.slot (trail.child place.step) new (changed.getD tree) <;> simp [Except.map, hfill]

/-- **While the answers do not depend on the number, the walk is the plain one**, and each place is
counted once. -/
theorem run_updateWith_of_const {change : Path → Json → Except Fault (Option Json)}
    (hvisit : Counts visit answer) (trail path : Path) (tree : Json) (hits : Nat)
    (hanswer : ∀ n, hits < n → n ≤ hits + (tree.locateFrom trail path).length → answer n = change) :
    (updateWith visit trail path tree).run hits =
      (updateFrom change trail path tree).map (·, hits + (tree.locateFrom trail path).length) := by
  induction path generalizing trail tree hits with
  | nil =>
      rw [updateWith, hvisit, hanswer _ (Nat.lt_succ_self hits) le_rfl]
      rfl
  | cons step rest ih =>
      rw [run_updateWith_cons, updateFrom_cons]
      rw [locateFrom] at hanswer ⊢
      generalize (none : Option Json) = changed
      generalize tree.places step = places at hanswer ⊢
      induction places generalizing changed hits with
      | nil => rfl
      | cons place places ihplaces =>
          rw [List.flatMap_cons, List.length_append, ← Nat.add_assoc] at hanswer ⊢
          have hbelow := ih (trail.child place.step) place.value hits fun n hlt hle =>
            hanswer n hlt (Nat.le_add_right_of_le hle)
          rw [List.foldlM_cons, List.foldlM_cons, countPlace_of_const hbelow]
          cases updatePlace change trail rest tree changed place with
          | error fault => rfl
          | ok next => exact ihplaces _ next fun n hlt hle => hanswer n (by omega) hle

/-! ### The first fault -/

/-- The first fault at places that are counted on from a number. -/
def faultFrom? (answer : Nat → Path → Json → Except Fault (Option Json)) (path : Path) :
    Nat → List (Path × Json) → Option Fault
  | _, [] => none
  | hits, place :: places =>
    (faultAt (answer (hits + 1)) path place).or (faultFrom? answer path (hits + 1) places)

theorem faultFrom?_cons (path : Path) (hits : Nat) (place : Path × Json) (places : List (Path × Json)) :
    faultFrom? answer path hits (place :: places) =
      (faultAt (answer (hits + 1)) path place).or (faultFrom? answer path (hits + 1) places) := rfl

theorem faultFrom?_append (path : Path) (hits : Nat) (first second : List (Path × Json)) :
    faultFrom? answer path hits (first ++ second) =
      (faultFrom? answer path hits first).or (faultFrom? answer path (hits + first.length) second) := by
  induction first generalizing hits with
  | nil => rfl
  | cons place places ih =>
      rw [List.cons_append, faultFrom?_cons, faultFrom?_cons, ih, Option.or_assoc, List.length_cons,
        Nat.add_right_comm, Nat.add_assoc]

/-- The faults below a place are the faults of the place, since the last step is the same. -/
theorem faultFrom?_cons_cons (step next : Step) (rest : Path) (hits : Nat) (places : List (Path × Json)) :
    faultFrom? answer (step :: next :: rest) hits places = faultFrom? answer (next :: rest) hits places := by
  induction places generalizing hits with
  | nil => rfl
  | cons place places ih => rw [faultFrom?_cons, faultFrom?_cons, faultAt_cons_cons, ih]

theorem updateWith_of_names {place : Place} (hplace : place ∈ tree.places .names) (trail : Path)
    (step : Step) (rest : Path) (hits : Nat) :
    (updateWith visit trail (step :: rest) place.value).run hits = .ok (none, hits) := by
  cases tree with
  | object entries =>
      obtain ⟨⟨entry, position⟩, -, rfl⟩ := List.mem_map.mp hplace
      rfl
  | _ => exact absurd hplace List.not_mem_nil

theorem reports_countPlace (hvisit : Counts visit answer) {trail rest : Path} {step : Step} {place : Place}
    (hplace : place ∈ tree.places step) {changed : Option Json} (hchanged : KeepsKind tree changed)
    {hits : Nat}
    (hbelow : Reports (faultFrom? answer rest hits (place.value.locateFrom (trail.child place.step) rest))
      (fun state => state.2 = hits + (place.value.locateFrom (trail.child place.step) rest).length)
      ((updateWith visit (trail.child place.step) rest place.value).run hits)) :
    Reports (faultFrom? answer (step :: rest) hits (place.value.locateFrom (trail.child place.step) rest))
      (fun state => KeepsKind tree state.1 ∧
        state.2 = hits + (place.value.locateFrom (trail.child place.step) rest).length)
      (countPlace visit trail rest tree (changed, hits) place) := by
  have hfill : ∀ new after, Reports
      (if step = .names ∧ new.kind ≠ .string then
        some ⟨.namesMustBeStrings new.kind, trail.child place.step⟩ else none)
      (fun state : Option Json × Nat => KeepsKind tree state.1 ∧ state.2 = after)
      ((fill place.slot (trail.child place.step) new (changed.getD tree)).map (some ·, after)) :=
    fun new after => (reports_fill hplace hchanged (trail.child place.step) new).map
      fun _ hfilled => ⟨hfilled, rfl⟩
  unfold countPlace
  cases rest with
  | nil =>
      rw [updateWith, hvisit, locateFrom, faultFrom?_cons, faultFrom?, Option.or_none, faultAt]
      rcases answer (hits + 1) (trail.child place.step) place.value with fault | none | new
      · rfl
      · exact ⟨rfl, hchanged, rfl⟩
      · simpa [Except.map] using hfill new (hits + 1)
  | cons next rest =>
      rw [faultFrom?_cons_cons]
      rcases hresult : (updateWith visit (trail.child place.step) (next :: rest) place.value).run hits with
        fault | ⟨after, count⟩
      · rw [hresult] at hbelow
        exact hbelow
      · rw [hresult] at hbelow
        obtain ⟨hfault, rfl⟩ := hbelow
        rw [hfault]
        cases after with
        | none => exact ⟨rfl, hchanged, rfl⟩
        | some new =>
            have hstep : step ≠ .names := by
              rintro rfl
              cases (updateWith_of_names hplace _ next rest hits).symm.trans hresult
            simpa [hstep] using hfill new _

theorem reports_foldlM_countPlace {trail rest : Path} {step : Step} {places : List Place}
    (hplaces : ∀ place ∈ places, ∀ changed hits, KeepsKind tree changed →
      Reports (faultFrom? answer (step :: rest) hits (place.value.locateFrom (trail.child place.step) rest))
        (fun state => KeepsKind tree state.1 ∧
          state.2 = hits + (place.value.locateFrom (trail.child place.step) rest).length)
        (countPlace visit trail rest tree (changed, hits) place))
    {changed : Option Json} (hchanged : KeepsKind tree changed) (hits : Nat) :
    Reports
      (faultFrom? answer (step :: rest) hits
        (places.flatMap fun place => place.value.locateFrom (trail.child place.step) rest))
      (fun state => state.2 = hits +
        (places.flatMap fun place => place.value.locateFrom (trail.child place.step) rest).length)
      (places.foldlM (countPlace visit trail rest tree) (changed, hits)) := by
  induction places generalizing changed hits with
  | nil => exact ⟨rfl, rfl⟩
  | cons place places ih =>
      obtain ⟨hplace, hplaces⟩ := List.forall_mem_cons.mp hplaces
      have hfirst := hplace changed hits hchanged
      rw [List.flatMap_cons, faultFrom?_append, List.length_append, ← Nat.add_assoc, List.foldlM_cons]
      rcases hresult : countPlace visit trail rest tree (changed, hits) place with fault | ⟨next, count⟩
      · rw [hresult] at hfirst
        rw [hfirst]
        rfl
      · rw [hresult] at hfirst
        obtain ⟨hfault, hnext, rfl⟩ := hfirst
        rw [hfault]
        exact ih hplaces hnext _

/-- **A counting walk fails at the first place that has a fault**, and counts the places if none has. -/
theorem reports_updateWith (hvisit : Counts visit answer) (trail path : Path) (tree : Json) (hits : Nat) :
    Reports (faultFrom? answer path hits (tree.locateFrom trail path))
      (fun state => state.2 = hits + (tree.locateFrom trail path).length)
      ((updateWith visit trail path tree).run hits) := by
  induction path generalizing trail tree hits with
  | nil =>
      rw [updateWith, hvisit, locateFrom, faultFrom?_cons, faultFrom?, Option.or_none, faultAt]
      rcases answer (hits + 1) trail tree with fault | none | new
      · rfl
      · exact ⟨rfl, rfl⟩
      · exact ⟨rfl, rfl⟩
  | cons step rest ih =>
      rw [run_updateWith_cons, locateFrom]
      have hstart : KeepsKind tree none := rfl
      refine reports_foldlM_countPlace (fun place hplace changed hits hchanged => ?_) hstart hits
      exact reports_countPlace hvisit hplace hchanged (ih (trail.child place.step) place.value hits)

end

end Json

end JsonEdit
