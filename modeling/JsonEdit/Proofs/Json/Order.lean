import JsonEdit.Proofs.Json.Equality

/-!
# The order of trees is a total order

Comparing two trees is comparing their canonical forms. So trees that compare as equal can stand for one
another in any comparison, and of the laws of an order only two are left to show by induction over the
first tree: the order turns around with its sides, and "less than" is transitive. Kinds decide between
trees of different kinds; lists of trees are compared from the left.

The fingerprint is taken of the data that the comparison looks at. To rearrange the entries of an object
without repeated keys changes none of the data.
-/

namespace JsonEdit

/-! ### Comparing in two parts, and from the left -/

/-- The part that is compared first decides, unless it is equal on both sides. -/
theorem then_lt_trans {first second both first' second' both' : Ordering}
    (hlt : first = .lt → second = .lt → both = .lt) (hright : second = .eq → both = first)
    (hleft : first = .eq → both = second) (hrest : first' = .lt → second' = .lt → both' = .lt)
    (hfirst : first.then first' = .lt) (hsecond : second.then second' = .lt) :
    both.then both' = .lt := by
  rw [Ordering.then_eq_lt] at hfirst hsecond ⊢
  rcases hfirst with hfirst | ⟨hfirst, hfirst'⟩
  · rcases hsecond with hsecond | ⟨hsecond, -⟩
    · exact .inl (hlt hfirst hsecond)
    · exact .inl ((hright hsecond).trans hfirst)
  · rcases hsecond with hsecond | ⟨hsecond, hsecond'⟩
    · exact .inl ((hleft hfirst).trans hsecond)
    · exact .inr ⟨(hleft hfirst).trans hsecond, hrest hfirst' hsecond'⟩

section Lists

variable {α : Type} {cmp : α → α → Ordering} {firsts seconds thirds : List α}

theorem compareEach_map (cmp : α → α → Ordering) (items others : List α) :
    compareEach (items.map cmp) others = List.compareLex cmp items others := by
  induction items generalizing others with
  | nil => cases others <;> rfl
  | cons item items ih =>
      cases others with
      | nil => rfl
      | cons other others => rw [List.map_cons, compareEach, ih, List.compareLex_cons_cons]

theorem compareLex_swap
    (hswap : ∀ first ∈ firsts, ∀ second, cmp second first = (cmp first second).swap) :
    List.compareLex cmp seconds firsts = (List.compareLex cmp firsts seconds).swap := by
  induction firsts generalizing seconds with
  | nil => cases seconds <;> rfl
  | cons first firsts ih =>
      cases seconds with
      | nil => rfl
      | cons second seconds =>
          rw [List.compareLex_cons_cons, List.compareLex_cons_cons, Ordering.swap_then,
            hswap first (by simp), ih fun item hitem => hswap item (List.mem_cons_of_mem _ hitem)]

theorem compareLex_lt_trans
    (hright : ∀ first second third, cmp second third = .eq → cmp first third = cmp first second)
    (hleft : ∀ first second third, cmp first second = .eq → cmp first third = cmp second third)
    (hlt : ∀ first ∈ firsts, ∀ second third,
      cmp first second = .lt → cmp second third = .lt → cmp first third = .lt)
    (hfirst : List.compareLex cmp firsts seconds = .lt)
    (hsecond : List.compareLex cmp seconds thirds = .lt) :
    List.compareLex cmp firsts thirds = .lt := by
  induction firsts generalizing seconds thirds with
  | nil =>
      cases thirds with
      | nil => cases seconds <;> cases hsecond
      | cons third thirds => rfl
  | cons first firsts ih =>
      cases seconds with
      | nil => cases hfirst
      | cons second seconds =>
          cases thirds with
          | nil => cases hsecond
          | cons third thirds =>
              rw [List.compareLex_cons_cons] at hfirst hsecond ⊢
              exact then_lt_trans (hlt first (by simp) second third) (hright first second third)
                (hleft first second third)
                (ih fun item hitem => hlt item (List.mem_cons_of_mem _ hitem)) hfirst hsecond

end Lists

namespace Json

/-! ### Comparing by canonical forms -/

theorem compare_bool (left right : Bool) : (bool left).compare (bool right) = Ord.compare left right := rfl

theorem compare_number (left right : Number) :
    (number left).compare (number right) = Ord.compare left right := rfl

theorem compare_string (left right : String) :
    (string left).compare (string right) = Ord.compare left right := rfl

theorem itemComparisons_eq_map (items : List Json) :
    itemComparisons items = items.map Json.compare := by
  induction items with
  | nil => rfl
  | cons item rest ih => exact congrArg (Json.compare item :: ·) ih

theorem entryComparisons_eq_map (entries : Entries Json) :
    entryComparisons entries = entries.map fun entry => (entry.1, Json.compare entry.2) := by
  induction entries with
  | nil => rfl
  | cons entry rest ih => rw [entryComparisons, ih, List.map_cons]

theorem compare_array (items others : List Json) :
    (array items).compare (array others) = List.compareLex Json.compare items others := by
  rw [← compareEach_map, ← itemComparisons_eq_map]
  rfl

theorem compare_object (entries others : Entries Json) :
    (object entries).compare (object others) =
      (Ord.compare (keys entries) (keys others)).then
        (List.compareLex Json.compare (values entries) (values others)) := by
  rw [Json.compare, entryComparisons_eq_map, Entries.counted_map, List.map_map, List.map_map,
    ← compareEach_map, values, List.map_map]
  rfl

theorem compareLex_eq_compareAll {items others : List Json}
    (heach : ∀ item ∈ items, ∀ other, item.compare other = item.canonical.compare other.canonical) :
    List.compareLex Json.compare items others =
      Canonical.compareAll (items.map canonical) (others.map canonical) := by
  induction items generalizing others with
  | nil => cases others <;> rfl
  | cons item items ih =>
      cases others with
      | nil => rfl
      | cons other others =>
          rw [List.compareLex_cons_cons, heach item (by simp),
            ih fun item hitem => heach item (List.mem_cons_of_mem _ hitem), List.map_cons,
            List.map_cons, Canonical.compareAll]

theorem compare_of_kind_ne {left right : Json} (hkind : left.kind ≠ right.kind) :
    left.compare right = Ord.compare left.kind right.kind := by
  cases left <;> cases right <;> first | exact absurd rfl hkind | rfl

/-- **Trees are compared by their canonical forms.** -/
theorem compare_eq_compare_canonical (left right : Json) :
    left.compare right = left.canonical.compare right.canonical := by
  induction left using Json.induct generalizing right with
  | null =>
      cases right with
      | null => rfl
      | _ => rw [compare_of_kind_ne, compare_canonical_of_kind_ne] <;> simp [kind]
  | bool value =>
      cases right with
      | bool other => rfl
      | _ => rw [compare_of_kind_ne, compare_canonical_of_kind_ne] <;> simp [kind]
  | number value =>
      cases right with
      | number other =>
          rw [compare_number, Number.compare_eq_compare_scientific]
          rfl
      | _ => rw [compare_of_kind_ne, compare_canonical_of_kind_ne] <;> simp [kind]
  | string value =>
      cases right with
      | string other => rfl
      | _ => rw [compare_of_kind_ne, compare_canonical_of_kind_ne] <;> simp [kind]
  | array items ih =>
      cases right with
      | array others =>
          rw [compare_array, canonical_array, canonical_array, Canonical.compare,
            compareLex_eq_compareAll ih]
      | _ => rw [compare_of_kind_ne, compare_canonical_of_kind_ne] <;> simp [kind]
  | object entries ih =>
      cases right with
      | object others =>
          rw [compare_object, canonical_object_eq, canonical_object_eq, Canonical.compare,
            compareLex_eq_compareAll]
          intro value hvalue
          obtain ⟨entry, hentry, rfl⟩ := mem_of_mem_values hvalue
          exact ih entry hentry
      | _ => rw [compare_of_kind_ne, compare_canonical_of_kind_ne] <;> simp [kind]

/-- Trees compare as equal exactly when they are equal. -/
theorem compare_eq_iff {left right : Json} : left.compare right = .eq ↔ left == right := by
  rw [compare_eq_compare_canonical, compare_canonical_eq_iff, beq_iff]

theorem compare_congr_left (left left' right : Json) (hequal : left.compare left' = .eq) :
    left.compare right = left'.compare right := by
  rw [compare_eq_compare_canonical, beq_iff.mp (compare_eq_iff.mp hequal),
    ← compare_eq_compare_canonical]

theorem compare_congr_right (left right right' : Json) (hequal : right.compare right' = .eq) :
    left.compare right' = left.compare right := by
  rw [compare_eq_compare_canonical, ← beq_iff.mp (compare_eq_iff.mp hequal),
    ← compare_eq_compare_canonical]

/-! ### Laws of the order -/

theorem compare_kind (left right : Kind) :
    Ord.compare left right = Ord.compare left.ctorIdx right.ctorIdx := by
  cases left <;> cases right <;> rfl

instance : Std.TransOrd Kind where
  eq_swap {left right} := by
    rw [compare_kind, compare_kind]
    exact Std.OrientedCmp.eq_swap
  isLE_trans {first second third} := by
    rw [compare_kind, compare_kind, compare_kind]
    exact Std.TransCmp.isLE_trans

theorem compare_swap_of_kind_ne {left right : Json} (hkind : left.kind ≠ right.kind) :
    right.compare left = (left.compare right).swap := by
  rw [compare_of_kind_ne hkind, compare_of_kind_ne hkind.symm]
  exact Std.OrientedCmp.eq_swap

theorem compare_swap (left right : Json) : right.compare left = (left.compare right).swap := by
  induction left using Json.induct generalizing right with
  | null =>
      cases right with
      | null => rfl
      | _ => exact compare_swap_of_kind_ne (by simp [kind])
  | bool value =>
      cases right with
      | bool other =>
          rw [compare_bool, compare_bool]
          exact Std.OrientedCmp.eq_swap
      | _ => exact compare_swap_of_kind_ne (by simp [kind])
  | number value =>
      cases right with
      | number other =>
          rw [compare_number, compare_number]
          exact Std.OrientedCmp.eq_swap
      | _ => exact compare_swap_of_kind_ne (by simp [kind])
  | string value =>
      cases right with
      | string other =>
          rw [compare_string, compare_string]
          exact Std.OrientedCmp.eq_swap
      | _ => exact compare_swap_of_kind_ne (by simp [kind])
  | array items ih =>
      cases right with
      | array others =>
          rw [compare_array, compare_array]
          exact compareLex_swap ih
      | _ => exact compare_swap_of_kind_ne (by simp [kind])
  | object entries ih =>
      cases right with
      | object others =>
          rw [compare_object, compare_object, Ordering.swap_then, ← compareLex_swap,
            Std.OrientedOrd.eq_swap]
          intro value hvalue
          obtain ⟨entry, hentry, rfl⟩ := mem_of_mem_values hvalue
          exact ih entry hentry
      | _ => exact compare_swap_of_kind_ne (by simp [kind])

theorem isLE_compare_kind {left right : Json} (hlt : left.compare right = .lt) :
    (Ord.compare left.kind right.kind).isLE := by
  by_cases hkind : left.kind = right.kind
  · rw [hkind, Std.compare_self]
    rfl
  · rw [← compare_of_kind_ne hkind, hlt]
    rfl

/-- Where there is more than one kind the kinds decide, so only trees of one kind are left to compare. -/
theorem compare_lt_trans_of_kind {first second third : Json}
    (hsame : first.kind = second.kind → second.kind = third.kind → first.compare second = .lt →
      second.compare third = .lt → first.compare third = .lt)
    (hfirst : first.compare second = .lt) (hsecond : second.compare third = .lt) :
    first.compare third = .lt := by
  by_cases hkinds : first.kind = second.kind ∧ second.kind = third.kind
  · exact hsame hkinds.1 hkinds.2 hfirst hsecond
  · have hlt : Ord.compare first.kind third.kind = .lt := by
      by_cases hkind : first.kind = second.kind
      · rw [compare_of_kind_ne fun heq => hkinds ⟨hkind, heq⟩] at hsecond
        exact Std.TransCmp.lt_of_isLE_of_lt (isLE_compare_kind hfirst) hsecond
      · rw [compare_of_kind_ne hkind] at hfirst
        exact Std.TransCmp.lt_of_lt_of_isLE hfirst (isLE_compare_kind hsecond)
    rw [compare_of_kind_ne, hlt]
    intro heq
    rw [heq, Std.compare_self] at hlt
    cases hlt

theorem compare_lt_trans {first second third : Json} (hfirst : first.compare second = .lt)
    (hsecond : second.compare third = .lt) : first.compare third = .lt := by
  induction first using Json.induct generalizing second third with
  | null =>
      refine compare_lt_trans_of_kind (fun hkind _ hfirst _ => ?_) hfirst hsecond
      match second, hkind with
      | .null, _ => cases hfirst
  | bool first =>
      refine compare_lt_trans_of_kind (fun hkind hkind' hfirst hsecond => ?_) hfirst hsecond
      match second, third, hkind, hkind' with
      | .bool second, .bool third, _, _ =>
          rw [compare_bool] at hfirst hsecond ⊢
          exact Std.TransCmp.lt_trans hfirst hsecond
  | number first =>
      refine compare_lt_trans_of_kind (fun hkind hkind' hfirst hsecond => ?_) hfirst hsecond
      match second, third, hkind, hkind' with
      | .number second, .number third, _, _ =>
          rw [compare_number] at hfirst hsecond ⊢
          exact Std.TransCmp.lt_trans hfirst hsecond
  | string first =>
      refine compare_lt_trans_of_kind (fun hkind hkind' hfirst hsecond => ?_) hfirst hsecond
      match second, third, hkind, hkind' with
      | .string second, .string third, _, _ =>
          rw [compare_string] at hfirst hsecond ⊢
          exact Std.TransCmp.lt_trans hfirst hsecond
  | array firsts ih =>
      refine compare_lt_trans_of_kind (fun hkind hkind' hfirst hsecond => ?_) hfirst hsecond
      match second, third, hkind, hkind' with
      | .array seconds, .array thirds, _, _ =>
          rw [compare_array] at hfirst hsecond ⊢
          exact compareLex_lt_trans compare_congr_right compare_congr_left
            (fun item hitem _ _ => ih item hitem) hfirst hsecond
  | object firsts ih =>
      refine compare_lt_trans_of_kind (fun hkind hkind' hfirst hsecond => ?_) hfirst hsecond
      match second, third, hkind, hkind' with
      | .object seconds, .object thirds, _, _ =>
          have hvalues : ∀ value ∈ values firsts, ∀ second third : Json, value.compare second = .lt →
              second.compare third = .lt → value.compare third = .lt := by
            intro value hvalue second third
            obtain ⟨entry, hentry, rfl⟩ := mem_of_mem_values hvalue
            exact ih entry hentry
          rw [compare_object] at hfirst hsecond ⊢
          refine then_lt_trans Std.TransCmp.lt_trans (fun heq => ?_) (fun heq => ?_)
            (compareLex_lt_trans compare_congr_right compare_congr_left hvalues) hfirst hsecond
          · rw [Std.compare_eq_iff_eq.mp heq]
          · rw [Std.compare_eq_iff_eq.mp heq]

instance : Std.TransOrd Json where
  eq_swap {left right} := compare_swap right left
  isLE_trans {first second third} hfirst hsecond := by
    change (first.compare second).isLE at hfirst
    change (second.compare third).isLE at hsecond
    change (first.compare third).isLE
    cases hcompare : first.compare second with
    | lt =>
        cases hcompare' : second.compare third with
        | lt => rw [compare_lt_trans hcompare hcompare']; rfl
        | eq => rw [compare_congr_right first second third hcompare', hcompare]; rfl
        | gt => rw [hcompare'] at hsecond; cases hsecond
    | eq => rwa [compare_congr_left first second third hcompare]
    | gt => rw [hcompare] at hfirst; cases hfirst

/-! ### The fingerprint -/

theorem itemFingerprints_eq_map (items : List Json) :
    itemFingerprints items = items.map fingerprint := by
  induction items with
  | nil => rfl
  | cons item rest ih => exact congrArg (item.fingerprint :: ·) ih

theorem entryFingerprints_eq_map (entries : Entries Json) :
    entryFingerprints entries = entries.map fun entry => (entry.1, entry.2.fingerprint) := by
  induction entries with
  | nil => rfl
  | cons entry rest ih => rw [entryFingerprints, ih, List.map_cons]

theorem fingerprint_array (items : List Json) :
    (array items).fingerprint =
      .kind Kind.array.ctorIdx :: .length items.length :: (items.map fingerprint).flatten := by
  rw [← itemFingerprints_eq_map]
  rfl

theorem fingerprint_object (entries : Entries Json) :
    (object entries).fingerprint =
      .kind Kind.object.ctorIdx :: .length (keys entries).length ::
        ((keys entries).zip ((values entries).map fingerprint)).flatMap
          fun (key, value) => .text key :: value := by
  rw [fingerprint, entryFingerprints_eq_map, Entries.counted_map, keys, values, List.map_map,
    List.length_map, List.length_map, List.zip_map']
  rfl

/-- What has the same results under one function has them under any that looks at less. -/
theorem map_eq_map_of_forall {α β γ : Type} {f : α → β} {g : α → γ} {items others : List α}
    (heach : ∀ item ∈ items, ∀ other, f item = f other → g item = g other)
    (hmap : items.map f = others.map f) : items.map g = others.map g := by
  induction items generalizing others with
  | nil => cases others <;> simp_all
  | cons item items ih =>
      cases others with
      | nil => cases hmap
      | cons other others =>
          rw [List.map_cons, List.map_cons, List.cons.injEq] at hmap
          rw [List.map_cons, List.map_cons, heach item (by simp) other hmap.1,
            ih (fun item hitem => heach item (List.mem_cons_of_mem _ hitem)) hmap.2]

/-- **Equal trees have one fingerprint.** -/
theorem fingerprint_eq_of_beq {left right : Json} (hequal : left == right) :
    left.fingerprint = right.fingerprint := by
  have heach (item : Json) (ih : ∀ {other : Json}, item == other → item.fingerprint = other.fingerprint)
      (other : Json) (heq : item.canonical = other.canonical) : item.fingerprint = other.fingerprint :=
    ih (beq_iff.mpr heq)
  induction left using Json.induct generalizing right with
  | null =>
      cases right with
      | null => rfl
      | _ => cases kind_eq_of_beq hequal
  | bool value =>
      cases right with
      | bool other =>
          rw [beq_iff, canonical, canonical, Canonical.bool.injEq] at hequal
          rw [hequal]
      | _ => cases kind_eq_of_beq hequal
  | number value =>
      cases right with
      | number other =>
          rw [number_beq_iff, Number.beq_iff] at hequal
          exact congrArg (fun form => .kind Kind.number.ctorIdx :: form.fingerprint) hequal
      | _ => cases kind_eq_of_beq hequal
  | string value =>
      cases right with
      | string other => rw [string_beq_iff.mp hequal]
      | _ => cases kind_eq_of_beq hequal
  | array items ih =>
      cases right with
      | array others =>
          rw [array_beq_iff] at hequal
          have hlength : items.length = others.length := by simpa using congrArg List.length hequal
          rw [fingerprint_array, fingerprint_array, hlength,
            map_eq_map_of_forall (fun item hitem => heach item (ih item hitem)) hequal]
      | _ => cases kind_eq_of_beq hequal
  | object entries ih =>
      cases right with
      | object others =>
          rw [beq_iff, canonical_object_eq, canonical_object_eq, Canonical.object.injEq] at hequal
          obtain ⟨hkeys, hvalues⟩ := hequal
          rw [fingerprint_object, fingerprint_object, hkeys, map_eq_map_of_forall _ hvalues]
          intro value hvalue
          obtain ⟨entry, hentry, rfl⟩ := mem_of_mem_values hvalue
          exact heach entry.2 (ih entry hentry)
      | _ => cases kind_eq_of_beq hequal

/-! ### The order of entries -/

/-- The second tree is the first one with the entries of some objects in another order. Only objects
without repeated keys are rearranged, and the order of entries is all that changes. -/
inductive Rearranged : Json → Json → Prop
  | refl (tree : Json) : Rearranged tree tree
  | permute {entries others : Entries Json} (hdistinct : entries.Distinct) (hperm : entries.Perm others) :
      Rearranged (.object entries) (.object others)
  | element {item other : Json} (before after : List Json) (hitem : Rearranged item other) :
      Rearranged (.array (before ++ item :: after)) (.array (before ++ other :: after))
  | entry {value other : Json} (before : Entries Json) (key : String) (after : Entries Json)
      (hvalue : Rearranged value other) :
      Rearranged (.object (before ++ (key, value) :: after)) (.object (before ++ (key, other) :: after))
  | trans {first second third : Json} (hfirst : Rearranged first second)
      (hsecond : Rearranged second third) : Rearranged first third

/-- Rearranged trees have the same data. -/
theorem Rearranged.canonical_eq {tree other : Json} (hrearranged : Rearranged tree other) :
    tree.canonical = other.canonical := by
  induction hrearranged with
  | refl tree => rfl
  | permute hdistinct hperm =>
      rw [canonical_object, canonical_object, Canonical.ofEntries_inj, Entries.counted_eq_iff]
      intro key
      rw [Entries.find?_map, Entries.find?_map, hdistinct.find?_eq_of_perm hperm]
  | element before after _ ih =>
      rw [canonical_array, canonical_array, List.map_append, List.map_append, List.map_cons,
        List.map_cons, ih]
  | entry before key after _ ih =>
      rw [canonical_object, canonical_object, List.map_append, List.map_append, List.map_cons,
        List.map_cons, ih]
  | trans _ _ ihfirst ihsecond => exact ihfirst.trans ihsecond

/-- A rearranged tree takes the place of the tree in every comparison. -/
theorem Rearranged.compare_eq {left left' right right' : Json} (hleft : Rearranged left left')
    (hright : Rearranged right right') : compare left' right' = compare left right := by
  change left'.compare right' = left.compare right
  rw [compare_eq_compare_canonical, compare_eq_compare_canonical, hleft.canonical_eq,
    hright.canonical_eq]

/-- **The order of trees** is total and agrees with equality, and equal trees have one fingerprint. The
order of the entries of objects makes no difference to any of these. -/
theorem compare_total (first second third : Json) :
    compare second first = (compare first second).swap ∧
      (∀ order, compare first second = order → compare second third = order →
        compare first third = order) ∧
      ((compare first second).isLE → (compare second third).isLE → (compare first third).isLE) ∧
      (first == second ↔ compare first second = .eq) ∧
      (first == second → first.fingerprint = second.fingerprint) ∧
      ∀ first' second', Rearranged first first' → Rearranged second second' →
        compare first' second' = compare first second ∧ (first' == second') = (first == second) ∧
          first'.fingerprint = first.fingerprint := by
  refine ⟨Std.OrientedOrd.eq_swap, ?_, Std.TransOrd.isLE_trans, compare_eq_iff.symm,
    fingerprint_eq_of_beq, ?_⟩
  · rintro (_ | _ | _) hfirst hsecond
    · exact Std.TransCmp.lt_trans hfirst hsecond
    · exact Std.TransCmp.eq_trans hfirst hsecond
    · exact Std.TransCmp.gt_trans hfirst hsecond
  · intro first' second' hfirst hsecond
    refine ⟨hfirst.compare_eq hsecond, ?_, fingerprint_eq_of_beq (beq_iff.mpr hfirst.canonical_eq.symm)⟩
    rw [Bool.eq_iff_iff, beq_iff, beq_iff, hfirst.canonical_eq, hsecond.canonical_eq]

/-- Two trees with a repeated key, numbers without a decimal and a large exponent. One of them has the
entries of an inner object in another order. -/
theorem compare_total_nested :
    let long : Json := .number { whole := 1, fraction := List.replicate 30 0 }
    let one : Json := .number { whole := 1 }
    let large : Json := .number { whole := 1, exponent := some ⟨false, none, List.replicate 20 9, by simp⟩ }
    let inner : Json := .object [("x", one), ("y", large)]
    let first : Json := .object [("a", long), ("b", .array [inner]), ("a", .null)]
    let rearranged : Json :=
      .object [("a", long), ("b", .array [.object [("y", large), ("x", one)]]), ("a", .null)]
    let second : Json := .object [("b", .array [inner]), ("a", one)]
    let third : Json := .object [("b", .array [inner]), ("a", large)]
    compare first second = .eq ∧ compare second third = .lt ∧ Rearranged first rearranged ∧
      (compare first third).isLE ∧ first.fingerprint = second.fingerprint ∧
        compare rearranged second = .eq := by
  intro long one large inner first rearranged second third
  have hlong : long.canonical = one.canonical := beq_iff.mp (by decide +kernel)
  have hlarge : one.canonical.compare large.canonical = .lt := by decide +kernel
  have hfirst : compare first second = .eq := by
    refine (compare_eq_compare_canonical first second).trans ((compare_canonical_eq_iff _ _).mpr ?_)
    simp [first, second, canonical_object_eq, keys, values, Entries.counted, Entries.sorted,
      List.mergeSort, Entries.keyLe, Entries.dropRepeats, Entries.dropRepeats.after, hlong]
  have hsecond : compare second third = .lt := by
    refine (compare_eq_compare_canonical second third).trans ?_
    simp [second, third, canonical_object_eq, keys, values, Entries.counted, Entries.sorted,
      List.mergeSort, Entries.keyLe, Entries.dropRepeats, Entries.dropRepeats.after, Canonical.compare,
      Canonical.compareAll, hlarge]
  have hrearranged : Rearranged first rearranged :=
    .entry [("a", long)] "b" [("a", .null)]
      (.element [] [] (.permute (by simp [Entries.Distinct]) (.swap ("y", large) ("x", one) [])))
  obtain ⟨-, -, htrans, hequal, hfingerprint, hrearrange⟩ := compare_total first second third
  refine ⟨hfirst, hsecond, hrearranged, htrans (by rw [hfirst]; rfl) (by rw [hsecond]; rfl),
    hfingerprint (hequal.mpr hfirst), ?_⟩
  rw [(hrearrange rearranged second hrearranged (.refl second)).1, hfirst]

end Json

end JsonEdit
