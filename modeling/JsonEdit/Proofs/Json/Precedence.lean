import JsonEdit.Proofs.Json.Congruence
import JsonEdit.Proofs.Json.Focus
import JsonEdit.Proofs.Json.Merge

/-!
# Which side a merged value comes from

A deep merge of two values is the right one, unless both are objects or both are arrays. Then a step
leads to the merge of what it leads to on either side, and where one side has nothing to what the
other side has. Both facts about a whole merge follow from this by induction: along a path, that a leaf
is the one of the right side unless the path leads nowhere there; and on the tree, that a side which was
merged once has nothing left to add.
-/

namespace JsonEdit.Json

variable {strategy : MergeStrategy}

/-! ### Children of a merged container -/

/-- Either nothing below two values can be merged, or they are two containers of one kind. -/
theorem apart_or_alike (left right : Json) :
    (left.kind = right.kind → left.isContainer = false) ∨
      left.kind = right.kind ∧ left.isContainer := by
  by_cases hkind : left.kind = right.kind
  · cases left.isContainer with
    | false => exact .inl fun _ => rfl
    | true => exact .inr ⟨hkind, rfl⟩
  · exact .inl fun hsame => absurd hsame hkind

theorem exists_pair {left right : Json} (hkind : left.kind = right.kind)
    (hcontainer : left.isContainer) :
    (∃ lefts rights, left = object lefts ∧ right = object rights) ∨
      ∃ lefts rights, left = array lefts ∧ right = array rights := by
  cases left with
  | object lefts =>
      obtain ⟨rights, rfl⟩ := exists_entries hkind.symm
      exact .inl ⟨lefts, rights, rfl, rfl⟩
  | array lefts =>
      obtain ⟨rights, rfl⟩ := exists_items hkind.symm
      exact .inr ⟨lefts, rights, rfl, rfl⟩
  | _ => cases hcontainer

theorem getElem?_mergeItems (path : Path) (position : Nat) (lefts rights : List Json) (place : Nat) :
    (mergeItems strategy path position lefts rights)[place]? =
      Option.merge (mergeFrom strategy (path.child (.index (position + place)))) lefts[place]?
        rights[place]? := by
  induction lefts generalizing rights position place with
  | nil =>
      rw [mergeItems, List.getElem?_nil]
      cases rights[place]? <;> rfl
  | cons left lefts ih =>
      cases rights with
      | nil =>
          rw [mergeItems, List.getElem?_nil]
          · cases (left :: lefts)[place]? <;> rfl
          · exact List.cons_ne_nil left lefts
      | cons right rights =>
          rw [mergeItems]
          cases place with
          | zero => rfl
          | succ place =>
              simp only [List.getElem?_cons_succ]
              rw [ih, Nat.add_right_comm, Nat.add_assoc]

/-- A step into a merged container leads to the merge of the children on both sides, or to the only one
there is. -/
theorem child?_mergeFrom {path : Path} {left right : Json}
    (hsettled : strategy.settled? path left right = none) (hkind : left.kind = right.kind)
    (hcontainer : left.isContainer) (step : Step) :
    (mergeFrom strategy path left right).child? step =
      Option.merge (mergeFrom strategy (path.child step.concrete)) (left.child? step)
        (right.child? step) := by
  obtain ⟨lefts, rights, rfl, rfl⟩ | ⟨lefts, rights, rfl, rfl⟩ := exists_pair hkind hcontainer
  · rw [mergeFrom, hsettled]
    cases step with
    | field key | key key =>
        refine (find?_merged path lefts rights key).trans ?_
        simp only [child?, Step.entryKey?, Option.bind_some, Step.concrete]
        cases Entries.find? key lefts <;> cases Entries.find? key rights <;> rfl
    | _ => rfl
  · rw [mergeFrom, hsettled]
    cases step with
    | index place =>
        refine (getElem?_mergeItems path 0 lefts rights place).trans ?_
        rw [Nat.zero_add]
        rfl
    | _ => rfl

theorem kind_mergeFrom {path : Path} {left right : Json}
    (hsettled : strategy.settled? path left right = none) :
    (mergeFrom strategy path left right).kind = right.kind := by
  rcases apart_or_alike left right with hapart | ⟨hkind, hcontainer⟩
  · rw [mergeFrom_of_apart hapart, hsettled, Option.getD_none]
  · obtain ⟨lefts, rights, rfl, rfl⟩ | ⟨lefts, rights, rfl, rfl⟩ := exists_pair hkind hcontainer
    · rw [mergeFrom, hsettled]
      rfl
    · rw [mergeFrom, hsettled]
      rfl

/-! ### Along a path -/

section Deep

variable {left right leaf : Json} {path : Path}

/-- A deep merge takes the right value, or it merges the children of two containers of one kind. -/
theorem mergeFrom_deep (trail : Path) (left right : Json) :
    mergeFrom .deep trail left right = right ∨
      right.isContainer ∧ ∀ step, (mergeFrom .deep trail left right).child? step =
        Option.merge (mergeFrom .deep (trail.child step.concrete)) (left.child? step)
          (right.child? step) := by
  rcases apart_or_alike left right with hapart | ⟨hkind, hcontainer⟩
  · exact .inl (mergeFrom_of_apart hapart)
  · exact .inr ⟨isContainer_congr hkind ▸ hcontainer, child?_mergeFrom rfl hkind hcontainer⟩

/-- A leaf of the merge is the one of the right side, or that of the left side where the right side has
nothing. -/
theorem valueAt?_of_mergeFrom_deep (hleaf : leaf.isContainer = false) {trail : Path}
    (hvalue : (mergeFrom .deep trail left right).valueAt? path = some leaf) :
    right.valueAt? path = some leaf ∨
      right.valueAt? path = none ∧ left.valueAt? path = some leaf := by
  induction path generalizing left right trail with
  | nil =>
      have hmerged : mergeFrom .deep trail left right = leaf := Option.some.inj hvalue
      rcases mergeFrom_deep trail left right with hright | ⟨hcontainer, -⟩
      · exact .inl (congrArg some (hright.symm.trans hmerged))
      · have hkind : (mergeFrom .deep trail left right).kind = right.kind := kind_mergeFrom rfl
        rw [← isContainer_congr hkind, hmerged, hleaf] at hcontainer
        cases hcontainer
  | cons step path ih =>
      rcases mergeFrom_deep trail left right with hright | ⟨-, hchild⟩
      · exact .inl (hright ▸ hvalue)
      · rw [valueAt?, hchild] at hvalue
        rw [valueAt?, valueAt?]
        cases hl : left.child? step with
        | none =>
            rw [hl, Option.merge_none_left] at hvalue
            exact .inl hvalue
        | some child =>
            cases hr : right.child? step with
            | none =>
                rw [hl, hr, Option.merge_none_right] at hvalue
                exact .inr ⟨rfl, hvalue⟩
            | some child' =>
                rw [hl, hr] at hvalue
                exact ih hvalue

/-- Every leaf of the right side is in the merge. -/
theorem valueAt?_mergeFrom_deep (hleaf : leaf.isContainer = false) (trail : Path)
    (hvalue : right.valueAt? path = some leaf) :
    (mergeFrom .deep trail left right).valueAt? path = some leaf := by
  induction path generalizing left right trail with
  | nil =>
      obtain rfl : right = leaf := Option.some.inj hvalue
      rcases mergeFrom_deep trail left right with hright | ⟨hcontainer, -⟩
      · exact congrArg some hright
      · rw [hleaf] at hcontainer
        cases hcontainer
  | cons step path ih =>
      rcases mergeFrom_deep trail left right with hright | ⟨-, hchild⟩
      · rw [hright, hvalue]
      · obtain ⟨child, hr, hbelow⟩ := Option.bind_eq_some_iff.mp hvalue
        rw [valueAt?, hchild, hr]
        cases left.child? step with
        | none => exact hbelow
        | some child' => exact ih _ hbelow

theorem isContainer_of_child? {tree child : Json} {step : Step} (hchild : tree.child? step = some child) :
    tree.isContainer := by
  cases tree with
  | array items => rfl
  | object entries => rfl
  | _ => cases hchild

/-- A leaf that only the left side has is in the merge if and only if nothing above it is replaced: the
right side has nothing there, or a container of the same kind. -/
theorem valueAt?_mergeFrom_deep_iff (trail : Path) (hleft : left.valueAt? path = some leaf)
    (hright : right.valueAt? path = none) :
    (mergeFrom .deep trail left right).valueAt? path = some leaf ↔
      ∀ n < path.length, ∀ value, left.valueAt? (path.take n) = some value →
        ∀ other, right.valueAt? (path.take n) = some other → value.kind = other.kind := by
  induction path generalizing left right trail with
  | nil => cases hright
  | cons step path ih =>
      obtain ⟨child, hl, hbelow⟩ := Option.bind_eq_some_iff.mp hleft
      have hcontainer := isContainer_of_child? hl
      rw [List.length_cons, Nat.forall_lt_succ_left]
      simp only [List.take_zero, List.take_succ_cons, valueAt?, hl, Option.bind_some, Option.some_inj,
        forall_eq']
      rcases apart_or_alike left right with hapart | ⟨hkind, -⟩
      · rw [mergeFrom_of_apart hapart]
        refine iff_of_false (fun hmerged => ?_) fun habove => ?_
        · cases hright.symm.trans hmerged
        · cases hcontainer.symm.trans (hapart habove.1)
      · rw [child?_mergeFrom rfl hkind hcontainer, hl, and_iff_right hkind]
        cases hr : right.child? step with
        | none =>
            refine iff_of_true hbelow fun n _ value _ other hother => ?_
            cases hother
        | some child' =>
            rw [valueAt?, hr] at hright
            exact ih _ hbelow hright

end Deep

/-! ### Nothing left to add -/

/-- Induction from what single steps lead to. -/
theorem induct_child? {motive : Json → Prop}
    (htree : ∀ tree, (∀ step child, tree.child? step = some child → motive child) → motive tree)
    (tree : Json) : motive tree := by
  induction tree using Json.induct with
  | array items ih =>
      refine htree _ fun step child hchild => ?_
      obtain ⟨position, -, hitem⟩ := Option.bind_eq_some_iff.mp hchild
      exact ih child (List.mem_of_getElem? hitem)
  | object entries ih =>
      refine htree _ fun step child hchild => ?_
      obtain ⟨key, -, hfound⟩ := Option.bind_eq_some_iff.mp hchild
      exact ih _ (Entries.mem_of_find? hfound)
  | _ => exact htree _ fun step child hchild => by cases hchild

/-- What an unseen key finds behind an entry it finds with that entry too. -/
theorem find?_of_unseen {key other : String} {value found : Json} {rest : Entries Json}
    {seen : List String} (hseen : other ∉ key :: seen) (hfound : Entries.find? other rest = some found) :
    other ∉ seen ∧ Entries.find? other ((key, value) :: rest) = some found := by
  obtain ⟨hne, hseen⟩ := List.ne_and_not_mem_of_not_mem_cons hseen
  rw [Entries.find?_cons, if_neg (Ne.symm hne)]
  exact ⟨hseen, hfound⟩

theorem mergeEntries_eq_self {path : Path} {rights entries : Entries Json} {seen : List String}
    (hsame : ∀ key left right, key ∉ seen → Entries.find? key entries = some left →
      Entries.find? key rights = some right →
      mergeFrom strategy (path.child (.field key)) left right = left) :
    mergeEntries strategy path rights seen entries = entries := by
  induction entries generalizing seen with
  | nil => rfl
  | cons entry rest ih =>
      obtain ⟨key, left⟩ := entry
      have hrest : mergeEntries strategy path rights (key :: seen) rest = rest := by
        refine ih fun other left right hseen hleft hright => ?_
        obtain ⟨hseen, hleft⟩ := find?_of_unseen hseen hleft
        exact hsame other left right hseen hleft hright
      rw [mergeEntries, hrest]
      refine congrArg (fun value => (key, value) :: rest) ?_
      cases hright : Entries.find? key rights with
      | none => rfl
      | some right =>
          by_cases hseen : key ∈ seen
          · exact if_pos (List.contains_iff_mem.mpr hseen)
          · refine (if_neg (mt List.contains_iff_mem.mp hseen)).trans ?_
            exact hsame key left right hseen (by rw [Entries.find?_cons, if_pos rfl]) hright

/-- A container is left as it is where each child of the other one is merged into a child that is left
as it is. -/
theorem mergeFrom_eq_self {path : Path} {tree part : Json}
    (hsettled : strategy.settled? path tree part = none) (hkind : tree.kind = part.kind)
    (hcontainer : part.isContainer)
    (hchildren : ∀ step child, part.child? step = some child →
      ∃ value, tree.child? step = some value ∧
        ∀ path, mergeFrom strategy path value child = value) :
    mergeFrom strategy path tree part = tree := by
  obtain ⟨entries, others, rfl, rfl⟩ | ⟨items, others, rfl, rfl⟩ :=
    exists_pair hkind ((isContainer_congr hkind).trans hcontainer)
  · have hfound : ∀ key child, Entries.find? key others = some child →
        ∃ value, Entries.find? key entries = some value ∧
          ∀ path, mergeFrom strategy path value child = value :=
      fun key => hchildren (.field key)
    have hmerged : mergeEntries strategy path others [] entries = entries := by
      refine mergeEntries_eq_self fun key left right _ hleft hright => ?_
      obtain ⟨value, hvalue, hself⟩ := hfound key right hright
      obtain rfl : value = left := Option.some.inj (hvalue.symm.trans hleft)
      exact hself _
    have hadded : (Entries.firsts others).filter (fun entry => !Entries.has entry.1 entries) = [] := by
      refine List.filter_eq_nil_iff.mpr fun entry hentry => ?_
      have hmem := Entries.mem_of_mem_firsts hentry
      obtain ⟨child, hchild⟩ := Option.ne_none_iff_exists'.mp
        fun hnone => Entries.find?_eq_none_iff.mp hnone entry hmem rfl
      obtain ⟨value, hvalue, -⟩ := hfound entry.1 child hchild
      simp [Entries.has_iff.mpr ⟨value, hvalue⟩]
    rw [mergeFrom, hsettled, hmerged]
    exact congrArg Json.object ((congrArg (entries ++ ·) hadded).trans (List.append_nil entries))
  · rw [mergeFrom, hsettled]
    refine congrArg Json.array (List.ext_getElem? fun place => ?_)
    rw [getElem?_mergeItems]
    cases hother : others[place]? with
    | none => exact Option.merge_none_right
    | some child =>
        obtain ⟨value, hvalue, hself⟩ := hchildren (.index place) child hother
        have hitem : items[place]? = some value := hvalue
        rw [hitem]
        exact congrArg some (hself _)

/-- A tree that is merged with itself stays as it is. -/
theorem mergeFrom_deep_self (tree : Json) (path : Path) : mergeFrom .deep path tree tree = tree := by
  induction tree using induct_child? generalizing path with
  | htree tree ih =>
      rcases mergeFrom_deep path tree tree with htree | ⟨hcontainer, -⟩
      · exact htree
      · exact mergeFrom_eq_self rfl rfl hcontainer fun step child hchild =>
          ⟨child, hchild, ih step child hchild⟩

/-- What was merged once adds nothing. -/
theorem mergeFrom_deep_again (left right : Json) (path trail : Path) :
    mergeFrom .deep path (mergeFrom .deep trail left right) right = mergeFrom .deep trail left right := by
  induction right using induct_child? generalizing left path trail with
  | htree right ih =>
      rcases mergeFrom_deep trail left right with hright | ⟨hcontainer, hchild⟩
      · rw [hright, mergeFrom_deep_self]
      · refine mergeFrom_eq_self rfl (kind_mergeFrom rfl) hcontainer fun step child hr => ?_
        rw [hchild, hr]
        cases left.child? step with
        | none => exact ⟨child, rfl, mergeFrom_deep_self child⟩
        | some other => exact ⟨_, rfl, fun path => ih step child hr other path _⟩

/-- **The right side of a merge wins.** Along a path of fields and positions, a leaf of the merge is the
leaf of the right side there, or that of the left side if the right side has nothing there. Every leaf of
the right side is in the merge. A leaf that only the left side has is in the merge if and only if, above
it, whatever the right side has is of the kind of what the left side has. Merging the right side once more
changes nothing, and neither does merging a tree with itself. -/
theorem merge_deep_wins (left right : Json) :
    (∀ path : Path, path.Concrete → ∀ leaf : Json, leaf.isContainer = false →
      ((merge .deep left right).get path = [leaf] →
        right.get path = [leaf] ∨ right.get path = [] ∧ left.get path = [leaf]) ∧
      (right.get path = [leaf] → (merge .deep left right).get path = [leaf]) ∧
      (left.get path = [leaf] → right.get path = [] →
        ((merge .deep left right).get path = [leaf] ↔
          ∀ n < path.length, ∀ value ∈ left.get (path.take n), ∀ other ∈ right.get (path.take n),
            value.kind = other.kind))) ∧
    merge .deep (merge .deep left right) right = merge .deep left right ∧
    merge .deep left left = left := by
  refine ⟨fun path hconcrete leaf hleaf => ?_, mergeFrom_deep_again left right _ _,
    mergeFrom_deep_self left _⟩
  have hget := get_of_single hconcrete.hasWildcards
  have habove : ∀ n (tree : Json), tree.get (path.take n) = (tree.valueAt? (path.take n)).toList :=
    fun n => get_of_single (Path.Concrete.hasWildcards fun step hstep =>
      hconcrete step (List.mem_of_mem_take hstep))
  simp only [hget, habove, Option.toList_eq_singleton_iff, Option.toList_eq_nil_iff, Option.mem_toList]
  exact ⟨valueAt?_of_mergeFrom_deep hleaf, valueAt?_mergeFrom_deep hleaf Path.root,
    valueAt?_mergeFrom_deep_iff Path.root⟩

/-- The element behind the end of the right array comes from the left one, beside a repeated key. The leaf
below an object whose place an array takes is gone. -/
theorem merge_deep_wins_nested :
    let left : Json := .object [("a", .object [("x", .null)]), ("k", .array [.null, .bool true]), ("k", .null)]
    let right : Json := .object [("k", .array [.string "x"]), ("a", .array [.null])]
    ((merge .deep left right).get [.field "k", .index 1] = [.bool true] ∧
      left.get [.field "k", .index 1] = [.bool true]) ∧
    (merge .deep left right).get [.field "a", .field "x"] ≠ [.null] ∧
      left.get [.field "a", .field "x"] = [.null] := by
  intro left right
  have hkept := (merge_deep_wins left right).1 [.field "k", .index 1] (by decide) (.bool true) rfl
  have hlost := (merge_deep_wins left right).1 [.field "a", .field "x"] (by decide) .null rfl
  have hmerged : (merge .deep left right).get [.field "k", .index 1] = [.bool true] :=
    (hkept.2.2 rfl rfl).mpr (by decide)
  have hnone : right.get [.field "k", .index 1] ≠ [.bool true] := (List.cons_ne_nil _ _).symm
  refine ⟨⟨hmerged, ((hkept.1 hmerged).resolve_left hnone).2⟩, fun hfound => ?_, rfl⟩
  have habove := (hlost.2.2 rfl rfl).mp hfound 1 (by decide)
  cases habove (.object [("x", .null)]) (List.mem_singleton_self _) (.array [.null]) (List.mem_singleton_self _)

end JsonEdit.Json
