import JsonEdit.Proofs.Json.Precedence

/-!
# What a merge asks its caller

A strategy of the caller is two functions that the merge calls with a path and the values on both sides.
To speak about the calls, the merge is written once more with functions that may keep a state, and with
functions that write down what they are called with it keeps a record.

One induction on the left tree says both that this gives the tree which the merge gives, and that what
every call at a true path preserves is preserved by the whole run. The paths stay true because a value is
merged only under the step that leads to it: the first entry of a key, the element at a position.
-/

namespace JsonEdit

structure MergeCall where
  path : Path
  left : Json
  right : Json

/-- The call is made with what its path leads to in both trees. -/
def MergeCall.IsTrue (tree other : Json) (call : MergeCall) : Prop :=
  tree.valueAt? call.path = some call.left ∧ other.valueAt? call.path = some call.right

namespace MergeCall

variable {tree other : Json}

theorem isTrue_root (tree other : Json) : IsTrue tree other ⟨Path.root, tree, other⟩ := ⟨rfl, rfl⟩

theorem IsTrue.child {call : MergeCall} (htrue : call.IsTrue tree other) {step : Step}
    {left right : Json} (hleft : call.left.child? step = some left)
    (hright : call.right.child? step = some right) :
    IsTrue tree other ⟨call.path.child step, left, right⟩ := by
  obtain ⟨hl, hr⟩ := htrue
  exact ⟨by rw [Json.valueAt?_child, hl, Option.bind_some, hleft],
    by rw [Json.valueAt?_child, hr, Option.bind_some, hright]⟩

/-- The path of a true call leads to one value on either side. -/
theorem IsTrue.get {call : MergeCall} (htrue : call.IsTrue tree other) :
    tree.get call.path = [call.left] ∧ other.get call.path = [call.right] := by
  obtain ⟨hleft, hright⟩ := htrue
  have hsingle := Json.hasWildcards_of_valueAt? hleft
  rw [Json.get_of_single hsingle, Json.get_of_single hsingle, hleft, hright]
  exact ⟨rfl, rfl⟩

end MergeCall

namespace MergeStrategy

/-- An answer about two values that fits the strategy. Where children could be merged it is the answer of
the strategy; elsewhere no answer and the right value come to the same. -/
def Accepts (strategy : MergeStrategy) (path : Path) (left right : Json) (answer : Option Json) : Prop :=
  answer.getD right = (strategy.settled? path left right).getD right ∧
    (left.kind = right.kind → left.isContainer → answer = strategy.settled? path left right)

theorem accepts_settled? (strategy : MergeStrategy) (path : Path) (left right : Json) :
    strategy.Accepts path left right (strategy.settled? path left right) := ⟨rfl, fun _ _ => rfl⟩

/-- To take the right value where children are not merged is what a strategy does that settles on nothing
else. -/
theorem accepts_right {strategy : MergeStrategy} {descend : Path → Json → Json → Bool}
    (hsettled : ∀ path left right, strategy.settled? path left right =
      if descend path left right then none else some right) (path : Path) (left right : Json) :
    strategy.Accepts path left right
      ((custom (fun _ _ right => right) descend).settled? path left right) := by
  rw [Accepts, hsettled, settled?]
  by_cases hpair : left.isContainer && left.kind = right.kind
  · rw [hpair, Bool.true_and]
    exact ⟨rfl, fun _ _ => rfl⟩
  · rw [Bool.not_eq_true] at hpair
    rw [hpair, Bool.false_and, if_neg Bool.false_ne_true]
    refine ⟨?_, fun hkind hcontainer => ?_⟩
    · split <;> rfl
    · rw [hcontainer, decide_eq_true hkind] at hpair
      cases hpair

end MergeStrategy

variable {σ α β : Type}

/-- Started in a state with the property, the action gives the value and ends in such a state. -/
def Returns (p : σ → Prop) (action : StateM σ α) (value : α) : Prop :=
  ∀ state, p state → (action.run state).1 = value ∧ p (action.run state).2

namespace Returns

variable {p : σ → Prop}

theorem pure (value : α) : Returns p (Pure.pure value) value := fun _ hstate => ⟨rfl, hstate⟩

theorem bind {action : StateM σ α} {next : α → StateM σ β} {value : α} {result : β}
    (haction : Returns p action value) (hnext : Returns p (next value) result) :
    Returns p (action >>= next) result := by
  intro state hstate
  obtain ⟨hvalue, hstate⟩ := haction state hstate
  rw [← hvalue] at hnext
  exact hnext _ hstate

theorem map (f : α → β) {action : StateM σ α} {value : α} (haction : Returns p action value) :
    Returns p (f <$> action) (f value) := by
  intro state hstate
  obtain ⟨hvalue, hstate⟩ := haction state hstate
  exact ⟨congrArg f hvalue, hstate⟩

end Returns

namespace MergeCall

def recorded (answer : Path → Json → Json → α) (path : Path) (left right : Json) :
    StateM (List MergeCall) α := do
  modify (· ++ [⟨path, left, right⟩])
  pure (answer path left right)

theorem returns_recorded {tree other : Json} {call : MergeCall} (htrue : call.IsTrue tree other)
    (answer : Path → Json → Json → α) :
    Returns (fun calls => ∀ call ∈ calls, call.IsTrue tree other)
      (recorded answer call.path call.left call.right) (answer call.path call.left call.right) := by
  intro calls hcalls
  have hrun : ((recorded answer call.path call.left call.right).run calls).2 = calls ++ [call] := rfl
  rw [hrun]
  exact ⟨rfl, List.forall_mem_append.mpr ⟨hcalls, List.forall_mem_singleton.mpr htrue⟩⟩

end MergeCall

namespace MergeStrategy

/-- What two functions of a caller settle that may keep a state. Whether to merge children is asked first,
about two containers of one kind. -/
def settledBy (settle : Path → Json → Json → StateM σ Json)
    (descend : Path → Json → Json → StateM σ Bool) (path : Path) (left right : Json) :
    StateM σ (Option Json) := do
  let descends ←
    if left.isContainer && left.kind = right.kind then descend path left right else pure false
  if descends then pure none else some <$> settle path left right

theorem returns_settledBy {p : σ → Prop} {settle : Path → Json → Json → StateM σ Json}
    {descend : Path → Json → Json → StateM σ Bool} {path : Path} {left right value : Json}
    {descends : Bool} (hsettle : Returns p (settle path left right) value)
    (hdescend : Returns p (descend path left right) descends) :
    Returns p (settledBy settle descend path left right)
      (if left.isContainer && left.kind = right.kind && descends then none else some value) := by
  have hsettled : ∀ children : Bool,
      Returns p (if children then pure none else some <$> settle path left right)
        (if children then none else some value)
    | true => .pure none
    | false => hsettle.map some
  unfold settledBy
  by_cases hpair : left.isContainer && left.kind = right.kind
  · simp only [hpair, Bool.true_and, if_true]
    exact hdescend.bind (hsettled descends)
  · rw [Bool.not_eq_true] at hpair
    simp only [hpair, Bool.false_and]
    exact Returns.bind (.pure false) (hsettled false)

end MergeStrategy

namespace Json

mutual

/-- Merges two trees whose path is `path`; `settled?` answers what two values become unless their children
are merged. -/
def mergeAskingFrom (settled? : Path → Json → Json → StateM σ (Option Json)) (path : Path) :
    Json → Json → StateM σ Json
  | .object lefts, .object rights => do
    match ← settled? path (.object lefts) (.object rights) with
    | some settled => pure settled
    | none =>
      let merged ← mergeEntriesAsking settled? path rights [] lefts
      pure (.object (merged ++
        (Entries.firsts rights).filter fun (key, _) => !Entries.has key lefts))
  | .array lefts, .array rights => do
    match ← settled? path (.array lefts) (.array rights) with
    | some settled => pure settled
    | none => Json.array <$> mergeItemsAsking settled? path 0 lefts rights
  | left, right => (·.getD right) <$> settled? path left right

def mergeEntriesAsking (settled? : Path → Json → Json → StateM σ (Option Json)) (path : Path)
    (rights : List (String × Json)) (seen : List String) :
    List (String × Json) → StateM σ (List (String × Json))
  | [] => pure []
  | (key, left) :: rest =>
    let merged : StateM σ Json :=
      match Entries.find? key rights with
      | some right =>
        if seen.contains key then pure left
        else mergeAskingFrom settled? (path.child (.field key)) left right
      | none => pure left
    do
      let value ← merged
      let others ← mergeEntriesAsking settled? path rights (key :: seen) rest
      pure ((key, value) :: others)

def mergeItemsAsking (settled? : Path → Json → Json → StateM σ (Option Json)) (path : Path)
    (position : Nat) : List Json → List Json → StateM σ (List Json)
  | [], rights => pure rights
  | lefts, [] => pure lefts
  | left :: lefts, right :: rights => do
    let merged ← mergeAskingFrom settled? (path.child (.index position)) left right
    let others ← mergeItemsAsking settled? path (position + 1) lefts rights
    pure (merged :: others)

end

section Run

variable {strategy : MergeStrategy} {p : σ → Prop}
  {settled? : Path → Json → Json → StateM σ (Option Json)}

theorem returns_mergeEntriesAsking {path : Path} {rights lefts : Entries Json} {seen : List String}
    (heach : ∀ key left right, key ∉ seen → Entries.find? key lefts = some left →
      Entries.find? key rights = some right →
      Returns p (mergeAskingFrom settled? (path.child (.field key)) left right)
        (mergeFrom strategy (path.child (.field key)) left right)) :
    Returns p (mergeEntriesAsking settled? path rights seen lefts)
      (mergeEntries strategy path rights seen lefts) := by
  induction lefts generalizing seen with
  | nil => exact .pure []
  | cons entry rest ih =>
      obtain ⟨key, left⟩ := entry
      have hrest : Returns p (mergeEntriesAsking settled? path rights (key :: seen) rest)
          (mergeEntries strategy path rights (key :: seen) rest) := by
        refine ih fun other left right hseen hleft hright => ?_
        obtain ⟨hseen, hleft⟩ := find?_of_unseen hseen hleft
        exact heach other left right hseen hleft hright
      rw [mergeEntriesAsking, mergeEntries]
      refine .bind ?_ (hrest.bind (.pure _))
      cases hright : Entries.find? key rights with
      | none => exact .pure left
      | some right =>
          by_cases hseen : key ∈ seen
          · simp only [List.contains_iff_mem.mpr hseen, if_true]
            exact .pure left
          · simp only [mt List.contains_iff_mem.mp hseen]
            exact heach key left right hseen (by rw [Entries.find?_cons, if_pos rfl]) hright

theorem returns_mergeItemsAsking {path : Path} {position : Nat} {lefts rights : List Json}
    (heach : ∀ place left right, lefts[place]? = some left → rights[place]? = some right →
      Returns p (mergeAskingFrom settled? (path.child (.index (position + place))) left right)
        (mergeFrom strategy (path.child (.index (position + place))) left right)) :
    Returns p (mergeItemsAsking settled? path position lefts rights)
      (mergeItems strategy path position lefts rights) := by
  induction lefts generalizing rights position with
  | nil =>
      rw [mergeItemsAsking, mergeItems]
      exact .pure rights
  | cons left lefts ih =>
      cases rights with
      | nil =>
          rw [mergeItemsAsking, mergeItems]
          · exact .pure _
          · exact List.cons_ne_nil left lefts
          · exact List.cons_ne_nil left lefts
      | cons right rights =>
          rw [mergeItemsAsking, mergeItems]
          refine (heach 0 left right rfl rfl).bind (.bind (ih fun place left right hl hr => ?_) (.pure _))
          rw [Nat.add_right_comm, Nat.add_assoc]
          exact heach (place + 1) left right hl hr

theorem mergeAskingFrom_of_apart {path : Path} {left right : Json}
    (hapart : left.kind = right.kind → left.isContainer = false) :
    mergeAskingFrom settled? path left right = (·.getD right) <$> settled? path left right := by
  rw [mergeAskingFrom]
  · rintro lefts rights rfl rfl
    cases hapart rfl
  · rintro lefts rights rfl rfl
    cases hapart rfl

/-- If what is asked at true paths is answered as the strategy settles it, the run gives what the merge
gives, and keeps the property that the answers keep. -/
theorem returns_mergeAskingFrom {tree other : Json}
    (hask : ∀ call : MergeCall, call.IsTrue tree other → ∃ answer,
      Returns p (settled? call.path call.left call.right) answer ∧
        strategy.Accepts call.path call.left call.right answer)
    {path : Path} {left right : Json} (htrue : MergeCall.IsTrue tree other ⟨path, left, right⟩) :
    Returns p (mergeAskingFrom settled? path left right) (mergeFrom strategy path left right) := by
  induction left using induct_child? generalizing path right with
  | htree left ih =>
      obtain ⟨answer, hanswer, hvalue, hsettled⟩ := hask _ htrue
      rcases apart_or_alike left right with hapart | ⟨hkind, hcontainer⟩
      · rw [mergeAskingFrom_of_apart hapart, mergeFrom_of_apart hapart, ← hvalue]
        exact hanswer.map _
      · obtain rfl := hsettled hkind hcontainer
        -- a child on the left is merged under the step that leads to it on both sides
        have hchild : ∀ step child child', left.child? step = some child →
            right.child? step = some child' →
            Returns p (mergeAskingFrom settled? (path.child step) child child')
              (mergeFrom strategy (path.child step) child child') :=
          fun step child child' hl hr => ih step child hl (htrue.child hl hr)
        obtain ⟨lefts, rights, rfl, rfl⟩ | ⟨lefts, rights, rfl, rfl⟩ := exists_pair hkind hcontainer
        · rw [mergeAskingFrom, mergeFrom]
          refine hanswer.bind ?_
          cases strategy.settled? path (.object lefts) (.object rights) with
          | some settled => exact .pure settled
          | none =>
              refine (returns_mergeEntriesAsking fun key child child' _ hl hr => ?_).bind (.pure _)
              exact hchild (.field key) child child' hl hr
        · rw [mergeAskingFrom, mergeFrom]
          refine hanswer.bind ?_
          cases strategy.settled? path (.array lefts) (.array rights) with
          | some settled => exact .pure settled
          | none =>
              refine (returns_mergeItemsAsking fun place child child' hl hr => ?_).map _
              rw [Nat.zero_add]
              exact hchild (.index place) child child' hl hr

end Run

/-- Two strategies that settle alike what they are asked in a merge give the same tree. -/
theorem merge_congr {strategy strategy' : MergeStrategy} {left right : Json}
    (haccepts : ∀ call : MergeCall, call.IsTrue left right →
      strategy.Accepts call.path call.left call.right
        (strategy'.settled? call.path call.left call.right)) :
    merge strategy left right = merge strategy' left right := by
  let answers : Path → Json → Json → StateM Unit (Option Json) :=
    fun path left right => pure (strategy'.settled? path left right)
  have hroot := MergeCall.isTrue_root left right
  have hreturns : Returns (fun _ => True) (mergeAskingFrom answers Path.root left right)
      (merge strategy left right) :=
    returns_mergeAskingFrom (fun call htrue => ⟨_, .pure _, haccepts call htrue⟩) hroot
  have hreturns' : Returns (fun _ => True) (mergeAskingFrom answers Path.root left right)
      (merge strategy' left right) :=
    returns_mergeAskingFrom (fun call _ => ⟨_, .pure _, strategy'.accepts_settled? _ _ _⟩) hroot
  exact (hreturns () trivial).1.symm.trans (hreturns' () trivial).1

/-! ### The record of the calls -/

def mergeRecorded (settle : Path → Json → Json → Json) (descend : Path → Json → Json → Bool)
    (left right : Json) : Json × List MergeCall :=
  let answers := MergeStrategy.settledBy (MergeCall.recorded settle) (MergeCall.recorded descend)
  (mergeAskingFrom answers Path.root left right).run []

/-- The recorded merge is the merge with the answers of the caller, and what it records is true. -/
theorem returns_mergeRecorded (settle : Path → Json → Json → Json)
    (descend : Path → Json → Json → Bool) (left right : Json) :
    (mergeRecorded settle descend left right).1 = merge (.custom settle descend) left right ∧
      ∀ call ∈ (mergeRecorded settle descend left right).2, call.IsTrue left right := by
  have hanswers : ∀ call : MergeCall, call.IsTrue left right →
      Returns (fun calls => ∀ call ∈ calls, call.IsTrue left right)
        (MergeStrategy.settledBy (MergeCall.recorded settle) (MergeCall.recorded descend) call.path
          call.left call.right)
        ((MergeStrategy.custom settle descend).settled? call.path call.left call.right) :=
    fun call htrue => MergeStrategy.returns_settledBy (MergeCall.returns_recorded htrue settle)
      (MergeCall.returns_recorded htrue descend)
  have hreturns := returns_mergeAskingFrom
    (fun call htrue => ⟨_, hanswers call htrue, MergeStrategy.accepts_settled? _ _ _ _⟩)
    (MergeCall.isTrue_root left right)
  exact hreturns [] (List.forall_mem_nil _)

/-- **A caller can do what the library does, and is told the truth.** With a function that takes the right
value, children are merged everywhere as in a deep merge, and at the root only as in a shallow one. Whatever
the functions of a caller are, each of them is called with a path and the values that the path leads to in
both trees. -/
theorem merge_custom_told (left right : Json) :
    merge (.custom (fun _ _ right => right) fun _ _ _ => true) left right = merge .deep left right ∧
    merge (.custom (fun _ _ right => right) fun path _ _ => path.isRoot) left right =
      merge .shallow left right ∧
    ∀ settle descend,
      (mergeRecorded settle descend left right).1 = merge (.custom settle descend) left right ∧
      ∀ call ∈ (mergeRecorded settle descend left right).2,
        left.get call.path = [call.left] ∧ right.get call.path = [call.right] := by
  refine ⟨?_, ?_, fun settle descend => ?_⟩
  · exact (merge_congr fun call _ => MergeStrategy.accepts_right (fun _ _ _ => rfl) _ _ _).symm
  · exact (merge_congr fun call _ => MergeStrategy.accepts_right (fun _ _ _ => rfl) _ _ _).symm
  · obtain ⟨hmerged, hcalls⟩ := returns_mergeRecorded settle descend left right
    exact ⟨hmerged, fun call hcall => (hcalls call hcall).get⟩

/-- Only the first entry of a repeated key is merged, and only the element that the other array has too. -/
theorem merge_custom_told_nested :
    let left : Json := .object [("k", .array [.null, .bool true]), ("k", .null)]
    let right : Json := .object [("k", .array [.string "x"])]
    let calls := (mergeRecorded (fun _ left _ => left) (fun _ _ _ => true) left right).2
    ⟨[.field "k", .index 0], .null, .string "x"⟩ ∈ calls ∧ calls.length = 3 ∧
      left.get [.field "k", .index 0] = [.null] ∧ right.get [.field "k", .index 0] = [.string "x"] := by
  intro left right calls
  have hmem : ⟨[.field "k", .index 0], .null, .string "x"⟩ ∈ calls := .tail _ (.tail _ (.head _))
  have htold := (merge_custom_told left right).2.2 (fun _ left _ => left) fun _ _ _ => true
  exact ⟨hmem, rfl, htold.2 _ hmem⟩

end Json

end JsonEdit
