import JsonEdit.Proofs.Json.DocumentOrder

/-!
# Deleting at many places, one place at a time

To delete along a path is to take children out of the containers that its parent path leads to. Below the
first step this is done at each child, like any other edit. At the last step all children that are meant go
at once. One at a time they go from last to first, so that no element that is still to be deleted has
moved.
-/

namespace JsonEdit

def Step.selects : Step → Step → Bool
  | .field name, .field other | .key name, .field other => other = name
  | .keys texts, .field other => texts.contains other
  | .values, .field _ => true
  | .index position, .index other => other = position
  | .indices positions, .index other => positions.contains other
  | .elements, .index _ => true
  | _, _ => false

namespace Json

/-! ### The children of a step -/

section Steps

variable {items : List Json} {entries : Entries Json} {other : Step}

theorem mem_children_array :
    other ∈ (array items).children.map Prod.fst ↔
      ∃ position, other = .index position ∧ position < items.length := by
  rw [map_fst_children_array, List.mem_map]
  refine exists_congr fun position => ?_
  rw [List.mem_range, and_comm, eq_comm]

theorem mem_children_object :
    other ∈ (object entries).children.map Prod.fst ↔
      ∃ key, other = .field key ∧ key ∈ entries.map Prod.fst := by
  rw [map_fst_children_object, List.mem_map]
  refine exists_congr fun key => ?_
  rw [and_comm, eq_comm]

theorem mem_map_elementPlace? {positions : List Nat} :
    other ∈ (positions.filterMap (elementPlace? items)).map Place.step ↔
      ∃ position, other = .index position ∧ position < items.length ∧ position ∈ positions := by
  rw [List.mem_map]
  constructor
  · rintro ⟨place, hplace, rfl⟩
    obtain ⟨position, hposition, hplace⟩ := List.mem_filterMap.mp hplace
    obtain ⟨item, hitem, rfl⟩ := Option.map_eq_some_iff.mp hplace
    exact ⟨position, rfl, (List.getElem?_eq_some_iff.mp hitem).1, hposition⟩
  · rintro ⟨position, rfl, hlt, hposition⟩
    refine ⟨⟨.element position, .index position, items[position]⟩, List.mem_filterMap.mpr ?_, rfl⟩
    exact ⟨position, hposition, Option.map_eq_some_iff.mpr ⟨_, List.getElem?_eq_getElem hlt, rfl⟩⟩

theorem mem_map_valuePlaces (chosen : Nat → String → Bool) :
    other ∈ (valuePlaces chosen entries).map Place.step ↔
      ∃ key, other = .field key ∧ ∃ position value, entries[position]? = some (key, value) ∧
        chosen position key := by
  rw [valuePlaces, List.mem_map]
  constructor
  · rintro ⟨place, hplace, rfl⟩
    obtain ⟨⟨⟨key, value⟩, position⟩, hentry, hplace⟩ := List.mem_filterMap.mp hplace
    obtain ⟨hchosen, hplace⟩ := Option.ite_none_right_eq_some.mp hplace
    cases hplace
    exact ⟨key, rfl, position, value, List.mem_zipIdx_iff_getElem?.mp hentry, hchosen⟩
  · rintro ⟨key, rfl, position, value, hentry, hchosen⟩
    refine ⟨⟨.value position, .field key, value⟩, List.mem_filterMap.mpr ?_, rfl⟩
    exact ⟨((key, value), position), List.mem_zipIdx_iff_getElem?.mpr hentry, if_pos hchosen⟩

/-- Every key has a first entry. -/
theorem mem_map_firstPlaces (select : String → Bool) :
    other ∈ (valuePlaces (fun position key => select key && isFirstEntry entries position key)
        entries).map Place.step ↔
      ∃ key, other = .field key ∧ key ∈ entries.map Prod.fst ∧ select key := by
  rw [mem_map_valuePlaces]
  refine exists_congr fun key => and_congr_right fun _ => ?_
  constructor
  · rintro ⟨position, value, hentry, hchosen⟩
    rw [Bool.and_eq_true] at hchosen
    exact ⟨List.mem_map_of_mem (List.mem_of_getElem? hentry), hchosen.1⟩
  · rintro ⟨hkey, hselect⟩
    obtain ⟨entry, hentry, rfl⟩ := List.mem_map.mp hkey
    obtain ⟨position, hposition⟩ : ∃ position,
        position = entries.findIdx fun candidate => candidate.1 = entry.1 := ⟨_, rfl⟩
    have hlt : position < entries.length := by
      rw [hposition]
      exact List.findIdx_lt_length_of_exists ⟨entry, hentry, decide_eq_true rfl⟩
    have hfirst : entries[position].1 = entry.1 := by
      subst hposition
      exact of_decide_eq_true (List.findIdx_getElem (w := hlt))
    refine ⟨position, entries[position].2, ?_, ?_⟩
    · rw [List.getElem?_eq_getElem hlt]
      exact congrArg some (Prod.ext hfirst rfl)
    · rw [hselect, isFirstEntry, Bool.true_and, ← hposition, beq_self_eq_true]

theorem mem_steps_array {step : Step} :
    other ∈ (array items).steps step ↔
      other ∈ (array items).children.map Prod.fst ∧ step.selects other := by
  have hselected : ∀ {select : Nat → Prop},
      (∀ position, step.selects (.index position) ↔ select position) →
      ((other ∈ (array items).children.map Prod.fst ∧ step.selects other) ↔
        ∃ position, other = .index position ∧ position < items.length ∧ select position) := by
    intro select hselect
    rw [mem_children_array]
    constructor
    · rintro ⟨⟨position, rfl, hlt⟩, hselects⟩
      exact ⟨position, rfl, hlt, (hselect position).mp hselects⟩
    · rintro ⟨position, rfl, hlt, hselects⟩
      exact ⟨⟨position, rfl, hlt⟩, (hselect position).mpr hselects⟩
  cases step with
  | index position =>
      rw [mem_steps_of_isConcrete rfl, hselected fun _ => decide_eq_true_iff]
      constructor
      · rintro ⟨rfl, item, hitem⟩
        exact ⟨position, rfl, (List.getElem?_eq_some_iff.mp hitem).1, rfl⟩
      · rintro ⟨position, rfl, hlt, rfl⟩
        exact ⟨rfl, _, List.getElem?_eq_getElem hlt⟩
  | indices positions =>
      rw [hselected fun _ => List.contains_iff_mem]
      exact mem_map_elementPlace?
  | elements =>
      have hall : (array items).steps .elements = (array items).children.map Prod.fst := by
        rw [steps, places, children, List.map_map, List.map_map]
        rfl
      rw [hall]
      refine (and_iff_left_of_imp fun hmem => ?_).symm
      obtain ⟨position, rfl, -⟩ := mem_children_array.mp hmem
      rfl
  | _ =>
      refine iff_of_false List.not_mem_nil ?_
      rintro ⟨hmem, hselects⟩
      obtain ⟨position, rfl, -⟩ := mem_children_array.mp hmem
      cases hselects

theorem mem_steps_object {step : Step} (hstep : step ≠ .names) :
    other ∈ (object entries).steps step ↔
      other ∈ (object entries).children.map Prod.fst ∧ step.selects other := by
  have hselected : ∀ select : String → Bool, (∀ key, step.selects (.field key) = select key) →
      ((other ∈ (object entries).children.map Prod.fst ∧ step.selects other) ↔
        ∃ key, other = .field key ∧ key ∈ entries.map Prod.fst ∧ select key) := by
    intro select hselect
    rw [mem_children_object]
    constructor
    · rintro ⟨⟨key, rfl, hkey⟩, hselects⟩
      exact ⟨key, rfl, hkey, (hselect key).symm.trans hselects⟩
    · rintro ⟨key, rfl, hkey, hselects⟩
      exact ⟨⟨key, rfl, hkey⟩, (hselect key).trans hselects⟩
  cases step with
  | field name | key name =>
      rw [hselected (fun key => key = name) fun _ => rfl]
      exact mem_map_firstPlaces fun key => key = name
  | keys texts =>
      rw [hselected texts.contains fun _ => rfl]
      exact mem_map_firstPlaces texts.contains
  | values =>
      rw [hselected (fun _ => true) fun _ => rfl]
      refine (mem_map_valuePlaces fun _ _ => true).trans (exists_congr fun key => and_congr_right fun _ => ?_)
      constructor
      · rintro ⟨position, value, hentry, -⟩
        exact ⟨List.mem_map_of_mem (List.mem_of_getElem? hentry), rfl⟩
      · rintro ⟨hkey, -⟩
        obtain ⟨entry, hentry, rfl⟩ := List.mem_map.mp hkey
        obtain ⟨position, hposition⟩ := List.mem_iff_getElem?.mp hentry
        exact ⟨position, entry.2, hposition, rfl⟩
  | names => exact absurd rfl hstep
  | _ =>
      refine iff_of_false List.not_mem_nil ?_
      rintro ⟨hmem, hselects⟩
      obtain ⟨key, rfl, -⟩ := mem_children_object.mp hmem
      cases hselects

end Steps

/-- **A step leads to the children that it selects.** -/
theorem mem_steps_iff {step other : Step} (hstep : step ≠ .names) (tree : Json) :
    other ∈ tree.steps step ↔ other ∈ tree.children.map Prod.fst ∧ step.selects other := by
  cases tree with
  | array items => exact mem_steps_array
  | object entries => exact mem_steps_object hstep
  | _ => exact iff_of_false List.not_mem_nil fun hmem => List.not_mem_nil hmem.1

/-! ### All at once and one at a time -/

def without (chosen : Step → Bool) : Json → Json
  | .array items =>
    .array ((items.zipIdx.filter fun item => !chosen (.index item.2)).map Prod.fst)
  | .object entries => .object (entries.filter fun entry => !chosen (.field entry.1))
  | leaf => leaf

section Without

variable {items : List Json} {entries : Entries Json}

/-- Behind the first element every position is one less. -/
theorem foldr_eraseIdx_succ (positions : List Nat) (item : Json) (items : List Json) :
    (positions.map Nat.succ).foldr (fun position items => items.eraseIdx position) (item :: items) =
      item :: positions.foldr (fun position items => items.eraseIdx position) items := by
  induction positions with
  | nil => rfl
  | cons position positions ih => rw [List.map_cons, List.foldr_cons, ih, List.eraseIdx_cons_succ]; rfl

/-- Elements that go from last to first leave the others where they were. -/
theorem foldr_eraseIdx (chosen : Nat → Bool) (items : List Json) :
    ((List.range items.length).filter chosen).foldr (fun position items => items.eraseIdx position)
        items =
      (items.zipIdx.filter fun item => !chosen item.2).map Prod.fst := by
  induction items generalizing chosen with
  | nil => rfl
  | cons item items ih =>
      have hrest := ih (chosen ∘ Nat.succ)
      have hlater : ((items.zipIdx 1).filter fun item => !chosen item.2).map Prod.fst =
          (items.zipIdx.filter fun item => !(chosen ∘ Nat.succ) item.2).map Prod.fst := by
        rw [List.zipIdx_succ, List.filter_map, List.map_map]
        rfl
      rw [List.length_cons, List.range_succ_eq_map, List.zipIdx_cons, List.filter_cons, List.filter_cons,
        List.filter_map]
      cases hchosen : chosen 0 with
      | true =>
          simp only [if_true, List.foldr_cons, foldr_eraseIdx_succ, List.eraseIdx_cons_zero, hrest, hlater,
            Bool.not_true, Bool.false_eq_true, if_false]
      | false =>
          simp only [Bool.false_eq_true, if_false, foldr_eraseIdx_succ, hrest, hlater, Bool.not_false,
            if_true, List.map_cons]

theorem foldr_erase (keys : List String) (entries : Entries Json) :
    keys.foldr (fun key entries => Entries.erase key entries) entries =
      entries.filter fun entry => !keys.contains entry.1 := by
  induction keys with
  | nil => simp
  | cons key keys ih =>
      rw [List.foldr_cons, ih, Entries.erase, List.filter_filter]
      refine List.filter_congr fun entry _ => ?_
      simp [Bool.not_or]

theorem getD_deleteChildren_index (position : Nat) (items : List Json) :
    (deleteChildren (.index position) (.array items)).getD (.array items) =
      .array (items.eraseIdx position) := by
  rw [deleteChildren]
  split
  · rfl
  · rename_i hpast
    rw [List.eraseIdx_of_length_le (Nat.not_lt.mp hpast)]
    rfl

theorem getD_deleteChildren_field (key : String) (entries : Entries Json) :
    (deleteChildren (.field key) (.object entries)).getD (.object entries) =
      .object (Entries.erase key entries) := by
  rw [deleteChildren]
  split
  · rfl
  · rename_i hhas
    have hfresh := Entries.find?_eq_none_iff.mp (Entries.has_eq_false_iff.mp (by simpa using hhas))
    have hkept : Entries.erase key entries = entries := by
      refine List.filter_eq_self.mpr fun entry hentry => ?_
      exact decide_eq_true (hfresh entry hentry)
    rw [hkept]
    rfl

/-- From last to first. -/
theorem foldr_deleteChildren (chosen : Step → Bool) (tree : Json) :
    ((tree.children.map Prod.fst).filter chosen).foldr
        (fun step container => (deleteChildren step container).getD container) tree =
      tree.without chosen := by
  cases tree with
  | array items =>
      rw [map_fst_children_array, List.filter_map, List.foldr_map, without,
        ← foldr_eraseIdx fun position => chosen (.index position)]
      exact List.foldr_hom Json.array getD_deleteChildren_index
  | object entries =>
      have hkept : ((entries.map Prod.fst).filter (chosen ∘ Step.field)).foldr
          (fun key entries => Entries.erase key entries) entries =
          entries.filter fun entry => !chosen (.field entry.1) := by
        rw [foldr_erase]
        refine List.filter_congr fun entry hentry => congrArg not ?_
        rw [Bool.eq_iff_iff, List.contains_iff_mem, List.mem_filter]
        exact and_iff_right (List.mem_map_of_mem hentry)
      rw [map_fst_children_object, List.filter_map, List.foldr_map, without, ← hkept]
      exact List.foldr_hom Json.object getD_deleteChildren_field
  | _ => rfl

/-- If nothing is taken out, what is kept is what was there. -/
theorem getD_ite_length {α : Type} {kept all : List α} (hkept : kept.Sublist all) (make : List α → Json) :
    (if kept.length < all.length then some (make kept) else none).getD (make all) = make kept := by
  split
  · rfl
  · rename_i hlength
    rw [hkept.eq_of_length_le (Nat.not_lt.mp hlength)]
    rfl

theorem without_none (tree : Json) : tree.without (fun _ => false) = tree := by
  rw [← foldr_deleteChildren, List.filter_false, List.foldr_nil]

theorem getD_deleteChildren_array (step : Step) (items : List Json) :
    (deleteChildren step (.array items)).getD (.array items) = (Json.array items).without step.selects := by
  cases step with
  | index position =>
      have hsingle : (List.range items.length).filter (fun other => other = position) =
          if position < items.length then [position] else [] := by
        rw [List.filter_eq, List.nodup_range.count]
        simp only [List.mem_range]
        split <;> rfl
      rw [getD_deleteChildren_index, without]
      refine congrArg Json.array (Eq.trans ?_ (foldr_eraseIdx (fun other => other = position) items))
      rw [hsingle]
      split
      · rfl
      · rename_i hpast
        exact List.eraseIdx_of_length_le (Nat.not_lt.mp hpast)
  | indices positions =>
      have hkept := getD_ite_length
        (List.filter_sublist (p := fun item : Json × Nat => !positions.contains item.2)
          (l := items.zipIdx)) fun items => .array (items.map Prod.fst)
      rwa [List.zipIdx_map_fst, List.length_zipIdx] at hkept
  | elements => simp [deleteChildren, without, Step.selects]
  | _ => exact (without_none _).symm

theorem getD_deleteChildren_object {step : Step} (hstep : step ≠ .names) (entries : Entries Json) :
    (deleteChildren step (.object entries)).getD (.object entries) =
      (Json.object entries).without step.selects := by
  have herase : ∀ name, (Json.object entries).without (Step.selects (.field name)) =
      .object (Entries.erase name entries) := by
    intro name
    refine congrArg Json.object (List.filter_congr fun entry _ => ?_)
    exact decide_not.symm
  cases step with
  | field name => rw [getD_deleteChildren_field, herase]
  | key name => exact (getD_deleteChildren_field name entries).trans (herase name).symm
  | keys texts =>
      exact getD_ite_length (List.filter_sublist (p := fun entry : String × Json =>
        !texts.contains entry.1) (l := entries)) Json.object
  | values => simp [deleteChildren, without, Step.selects]
  | names => exact absurd rfl hstep
  | _ => exact (without_none _).symm

/-- All at once. -/
theorem getD_deleteChildren {step : Step} (hstep : step ≠ .names) (tree : Json) :
    (deleteChildren step tree).getD tree = tree.without step.selects := by
  cases tree with
  | array items => exact getD_deleteChildren_array step items
  | object entries => exact getD_deleteChildren_object hstep entries
  | _ => rfl

end Without

/-! ### Along a path -/

/-- The tree without the places of a path; `trail` is the path of the tree. -/
def eraseFrom (trail path : Path) (tree : Json) : Json :=
  match path.splitLast? with
  | none => tree
  | some (parent, step) => alterFrom (fun _ container => deleteChildren step container) trail parent tree

/-- To delete along a path is to leave out its places. -/
theorem delete_eq_eraseFrom (tree : Json) (path : Path) : tree.delete path = eraseFrom Path.root path tree := by
  unfold delete tryDelete eraseFrom
  cases path.splitLast? with
  | none => rfl
  | some split =>
      dsimp only [alterFrom, update]
      rcases updateFrom (fun _ container => .ok (deleteChildren split.2 container)) Path.root split.1 tree
        with fault | after | after <;> rfl

theorem eraseFrom_append (trail parent : Path) (step : Step) (tree : Json) :
    eraseFrom trail (parent ++ [step]) tree =
      alterFrom (fun _ container => deleteChildren step container) trail parent tree := by
  rw [eraseFrom, Path.splitLast?_eq_some_iff.mpr rfl]

theorem eraseFrom_single (trail : Path) (step : Step) (tree : Json) :
    eraseFrom trail [step] tree = (deleteChildren step tree).getD tree := by
  rw [← List.nil_append [step], eraseFrom_append, alterFrom, updateFrom]
  cases deleteChildren step tree <;> rfl

theorem descends_eraseFrom {rest : Path} (hrest : rest ≠ []) (hnames : Step.names ∉ rest) :
    Descends eraseFrom rest := by
  intro trail step tree hstep hdistinct
  obtain ⟨parent, last, rfl⟩ := (List.eq_nil_or_concat' rest).resolve_left hrest
  have hparent : Step.names ∉ parent := fun hmem => hnames (List.mem_append_left _ hmem)
  have hmaps : MapsChildren _ tree
      (alterFrom (fun _ container => deleteChildren last container) trail (step :: parent) tree) :=
    descends_alterFrom hparent trail step tree hstep hdistinct
  rw [← List.cons_append, eraseFrom_append]
  refine hmaps.congr fun other child _ _ => ?_
  rw [eraseFrom_append]

/-- Of the places that one step leads to, the order of the document is the order of the children. -/
theorem inDocumentOrder_single {step : Step} (hstep : step ≠ .names) {tree : Json} (hkeyed : tree.Keyed)
    {paths : List Path} (hpaths : ∀ place, place ∈ paths ↔ place ∈ tree.reached [step]) :
    tree.inDocumentOrder paths =
      ((tree.children.map Prod.fst).filter step.selects).map fun other => [other] := by
  have hdistinct := hkeyed.distinctKeys
  have hroot : paths.contains [] = false := by
    rw [← Bool.not_eq_true, List.contains_iff_mem, hpaths]
    exact fun hmem => absurd (length_of_mem_reached hmem) (Nat.succ_ne_zero 0).symm
  have hchild : ∀ child ∈ tree.children,
      (child.2.nodePaths.map (List.cons child.1)).filter paths.contains =
        if step.selects child.1 then [[child.1]] else [] := by
    intro child hmem
    have hfirst : child.1 ∈ tree.children.map Prod.fst := List.mem_map_of_mem hmem
    obtain ⟨-, hfound⟩ := (mem_children_iff hdistinct).mp hmem
    -- of the places below the child it is the child itself, or none
    have hchosen : ∀ below, (paths.contains ∘ List.cons child.1) below =
        (step.selects child.1 && decide (below = [])) := by
      intro below
      rw [Function.comp_apply, Bool.eq_iff_iff, List.contains_iff_mem, hpaths,
        mem_reached_child hstep hdistinct hfound, mem_steps_iff hstep, and_iff_right hfirst,
        reached_nil, List.mem_singleton, Bool.and_eq_true, decide_eq_true_iff]
    have hself : child.2.nodePaths.filter (fun below => decide (below = [])) = [[]] := by
      rw [List.filter_eq, (nodup_nodePaths (hkeyed.child? hfound)).count, if_pos (nil_mem_nodePaths _)]
      rfl
    rw [List.filter_map, funext hchosen]
    cases step.selects child.1 with
    | true => simp only [Bool.true_and, hself, if_true, List.map_singleton]
    | false => simp only [Bool.false_and, List.filter_false, List.map_nil, Bool.false_eq_true, if_false]
  rw [inDocumentOrder, nodePaths_eq, List.filter_cons_of_neg (by rw [hroot]; exact Bool.false_ne_true),
    List.filter_flatMap, List.flatMap_congr hchild]
  generalize tree.children = items
  induction items with
  | nil => rfl
  | cons item items ih =>
      rw [List.flatMap_cons, ih, List.map_cons, List.filter_cons]
      split <;> rfl

/-- **To delete along a path is to delete its places one at a time**, from last to first in the order of
the document. -/
theorem eraseFrom_eq_foldl {path : Path} (hpath : path ≠ []) (hnames : Step.names ∉ path) {tree : Json}
    (hkeyed : tree.Keyed) {paths : List Path}
    (hpaths : ∀ place, place ∈ paths ↔ place ∈ tree.reached path) (trail : Path) :
    eraseFrom trail path tree =
      (tree.inDocumentOrder paths).reverse.foldl (fun tree place => eraseFrom trail place tree) tree := by
  induction path generalizing trail tree paths with
  | nil => exact absurd rfl hpath
  | cons step rest ih =>
      obtain ⟨hstep, hlater⟩ := not_or.mp (mt List.mem_cons.mpr hnames)
      have hdistinct := hkeyed.distinctKeys
      by_cases hrest : rest = []
      · subst hrest
        rw [inDocumentOrder_single (Ne.symm hstep) hkeyed hpaths, List.foldl_reverse, List.foldr_map,
          eraseFrom_single, getD_deleteChildren (Ne.symm hstep), ← foldr_deleteChildren]
        simp only [eraseFrom_single]
      · have hordered : ∀ place, place ∈ (tree.inDocumentOrder paths).reverse ↔
            place ∈ tree.reached (step :: rest) := by
          intro place
          rw [List.mem_reverse, mem_inDocumentOrder, hpaths]
          exact and_iff_right_of_imp mem_nodePaths_of_mem_reached
        refine eq_foldl_of_descends hnames hdistinct (descends_eraseFrom hrest hlater) ?_ hordered ?_
        · intro below hconcrete hlength
          refine descends_eraseFrom ?_ hconcrete.names_notMem
          rintro rfl
          exact hrest (List.length_eq_zero_iff.mp hlength.symm)
        · intro other child hconcrete hchild hother
          -- from last to first in the tree is from last to first in each child
          have hbelow : Path.below other (tree.inDocumentOrder paths).reverse =
              (child.inDocumentOrder (Path.below other paths)).reverse := by
            rw [← below_inDocumentOrder hdistinct hconcrete hchild]
            exact List.filterMap_reverse
          rw [hbelow]
          refine ih hrest hlater (hkeyed.child? hchild) ?_ (trail.child other)
          exact mem_below_reached (Ne.symm hstep) hdistinct hchild hother hpaths

end Json

end JsonEdit
