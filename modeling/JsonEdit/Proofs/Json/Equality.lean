import JsonEdit.Json.Order
import JsonEdit.Proofs.Json.Entries
import JsonEdit.Proofs.Number.Order

/-!
# Equal trees have one canonical form

Trees are equal exactly when their canonical forms are the same, and comparing the forms says "equal" in
just this case. So equality of trees is an equivalence, arrays are equal element by element, and objects
are equal when every key finds equal values in both.
-/

namespace JsonEdit

namespace Json

/-- Induction over trees: arrays from their elements and objects from the values of their entries. -/
@[elab_as_elim]
theorem induct {motive : Json → Prop} (null : motive .null) (bool : ∀ value, motive (.bool value))
    (number : ∀ value, motive (.number value)) (string : ∀ value, motive (.string value))
    (array : ∀ items, (∀ item ∈ items, motive item) → motive (.array items))
    (object : ∀ entries, (∀ entry ∈ entries, motive entry.2) → motive (.object entries))
    (tree : Json) : motive tree :=
  Json.rec (motive_1 := motive) (motive_2 := fun items => ∀ item ∈ items, motive item)
    (motive_3 := fun entries => ∀ entry ∈ entries, motive entry.2)
    (motive_4 := fun entry => motive entry.2) null bool number string (fun items ih => array items ih)
    (fun entries ih => object entries ih) (by simp)
    (fun _ _ hhead htail => List.forall_mem_cons.mpr ⟨hhead, htail⟩) (by simp)
    (fun _ _ hhead htail => List.forall_mem_cons.mpr ⟨hhead, htail⟩) (fun _ _ hvalue => hvalue) tree

theorem canonicalItems_eq_map (items : List Json) : canonicalItems items = items.map canonical := by
  induction items with
  | nil => rfl
  | cons item rest ih => rw [canonicalItems, ih, List.map_cons]

theorem canonicalEntries_eq_map (entries : Entries Json) :
    canonicalEntries entries = entries.map fun entry => (entry.1, entry.2.canonical) := by
  induction entries with
  | nil => rfl
  | cons entry rest ih => rw [canonicalEntries, ih, List.map_cons]

@[simp]
theorem canonical_array (items : List Json) :
    (array items).canonical = .array (items.map canonical) := by
  rw [canonical, canonicalItems_eq_map]

theorem canonical_object (entries : Entries Json) :
    (object entries).canonical =
      .ofEntries (entries.map fun entry => (entry.1, entry.2.canonical)) := by
  rw [canonical, canonicalEntries_eq_map]

/-- The keys of an object that count, in order. -/
def keys (entries : Entries Json) : List String := entries.counted.map (·.1)

def values (entries : Entries Json) : List Json := entries.counted.map (·.2)

theorem mem_of_mem_values {entries : Entries Json} {value : Json} (hmem : value ∈ values entries) :
    ∃ entry ∈ entries, entry.2 = value := by
  obtain ⟨entry, hentry, rfl⟩ := List.mem_map.mp hmem
  exact ⟨entry, Entries.mem_of_mem_counted hentry, rfl⟩

theorem canonical_object_eq (entries : Entries Json) :
    (object entries).canonical = .object (keys entries) ((values entries).map canonical) := by
  rw [canonical_object, Canonical.ofEntries, Entries.counted_map, List.map_map, List.map_map, keys,
    values, List.map_map]
  rfl

end Json

namespace Canonical

theorem compareAll_eq_iff {lefts rights : List Canonical}
    (heach : ∀ left ∈ lefts, ∀ right ∈ rights, compare left right = .eq ↔ left = right) :
    compareAll lefts rights = .eq ↔ lefts = rights := by
  induction lefts generalizing rights with
  | nil => cases rights <;> simp [compareAll]
  | cons left lefts ih =>
      cases rights with
      | nil => simp [compareAll]
      | cons right rights =>
          rw [compareAll, Ordering.then_eq_eq, heach left (by simp) right (by simp),
            ih fun l hl r hr => heach l (by simp [hl]) r (by simp [hr]), List.cons.injEq]

theorem ofEntries_inj {first second : Entries Canonical} :
    ofEntries first = ofEntries second ↔ first.counted = second.counted := by
  rw [ofEntries, ofEntries, object.injEq]
  constructor
  · rintro ⟨hkeys, hvalues⟩
    calc
      first.counted = (first.counted.map Prod.fst).zip (first.counted.map Prod.snd) :=
        List.zip_of_prod rfl rfl
      _ = (second.counted.map Prod.fst).zip (second.counted.map Prod.snd) := by
        rw [hkeys, hvalues]
      _ = second.counted := (List.zip_of_prod rfl rfl).symm
  · intro heq
    rw [heq]
    exact ⟨rfl, rfl⟩

end Canonical

namespace Json

theorem kind_canonical (tree : Json) : tree.canonical.kind = tree.kind := by
  cases tree <;> rfl

theorem compare_kind_eq_iff {left right : Kind} : compare left right = .eq ↔ left = right := by
  cases left <;> cases right <;> decide

/-- Forms of different kinds are compared by their kinds. -/
theorem compare_canonical_of_kind_ne {left right : Json} (hkind : left.kind ≠ right.kind) :
    left.canonical.compare right.canonical = Ord.compare left.kind right.kind := by
  rw [← kind_canonical, ← kind_canonical] at hkind ⊢
  generalize left.canonical = form at hkind ⊢
  generalize right.canonical = form' at hkind ⊢
  cases form <;> cases form' <;> first | rfl | exact absurd rfl hkind

theorem compare_eq_iff_of_kind_ne {left right : Json} (hkind : left.kind ≠ right.kind) :
    left.canonical.compare right.canonical = .eq ↔ left.canonical = right.canonical := by
  rw [compare_canonical_of_kind_ne hkind, compare_kind_eq_iff]
  refine ⟨fun heq => absurd heq hkind, fun heq => absurd ?_ hkind⟩
  rw [← kind_canonical, heq, kind_canonical]

theorem compare_canonical_eq_iff (left right : Json) :
    left.canonical.compare right.canonical = .eq ↔ left.canonical = right.canonical := by
  induction left using Json.induct generalizing right with
  | null =>
      cases right with
      | null => exact iff_of_true rfl rfl
      | _ => exact compare_eq_iff_of_kind_ne (by simp [kind])
  | bool value =>
      cases right with
      | bool other => simp [canonical, Canonical.compare]
      | _ => exact compare_eq_iff_of_kind_ne (by simp [kind])
  | number value =>
      cases right with
      | number other =>
          rw [canonical, canonical, Canonical.compare, Canonical.number.injEq]
          exact Scientific.compare_eq_iff value.proper_scientific other.proper_scientific
      | _ => exact compare_eq_iff_of_kind_ne (by simp [kind])
  | string value =>
      cases right with
      | string other => simp [canonical, Canonical.compare]
      | _ => exact compare_eq_iff_of_kind_ne (by simp [kind])
  | array items ih =>
      cases right with
      | array others =>
          rw [canonical_array, canonical_array, Canonical.compare, Canonical.array.injEq]
          refine Canonical.compareAll_eq_iff fun form hform form' hform' => ?_
          obtain ⟨item, hitem, rfl⟩ := List.mem_map.mp hform
          obtain ⟨other, -, rfl⟩ := List.mem_map.mp hform'
          exact ih item hitem other
      | _ => exact compare_eq_iff_of_kind_ne (by simp [kind])
  | object entries ih =>
      cases right with
      | object others =>
          rw [canonical_object_eq, canonical_object_eq, Canonical.compare, Ordering.then_eq_eq,
            Std.compare_eq_iff_eq, Canonical.object.injEq]
          refine and_congr_right fun _ => Canonical.compareAll_eq_iff fun form hform form' hform' => ?_
          obtain ⟨value, hvalue, rfl⟩ := List.mem_map.mp hform
          obtain ⟨other, -, rfl⟩ := List.mem_map.mp hform'
          obtain ⟨entry, hentry, rfl⟩ := mem_of_mem_values hvalue
          exact ih entry hentry other
      | _ => exact compare_eq_iff_of_kind_ne (by simp [kind])

/-! ### Equality -/

theorem itemTests_eq_map (items : List Json) : itemTests items = items.map same := by
  induction items with
  | nil => rfl
  | cons item rest ih => rw [itemTests, ih, List.map_cons]

theorem entryTests_eq_map (entries : Entries Json) :
    entryTests entries = entries.map fun entry => (entry.1, same entry.2) := by
  induction entries with
  | nil => rfl
  | cons entry rest ih => rw [entryTests, ih, List.map_cons]

/-- Tests whether two functions have the same results, item by item. -/
theorem passEach_iff {α β γ : Type} {test : α → β → Bool} {f : α → γ} {g : β → γ} {items : List α}
    {others : List β} (heach : ∀ item ∈ items, ∀ other, test item other ↔ f item = g other) :
    passEach (items.map test) others ↔ items.map f = others.map g := by
  induction items generalizing others with
  | nil => cases others <;> simp [passEach]
  | cons item items ih =>
      cases others with
      | nil => simp [passEach]
      | cons other others =>
          rw [List.map_cons, passEach, Bool.and_eq_true, heach item (by simp),
            ih fun item hitem => heach item (List.mem_cons_of_mem _ hitem), List.map_cons,
            List.map_cons, List.cons.injEq]

theorem same_iff (left right : Json) : same left right ↔ left.canonical = right.canonical := by
  induction left using Json.induct generalizing right with
  | null => cases right <;> simp [same, canonical, Canonical.ofEntries]
  | bool value => cases right <;> simp [same, canonical, Canonical.ofEntries]
  | number value => cases right <;> simp [same, canonical, Canonical.ofEntries, Number.beq_iff]
  | string value => cases right <;> simp [same, canonical, Canonical.ofEntries]
  | array items ih =>
      cases right with
      | array others =>
          rw [same, itemTests_eq_map, passEach_iff ih, canonical_array, canonical_array,
            Canonical.array.injEq]
      | _ => simp [same, canonical, Canonical.ofEntries]
  | object entries ih =>
      cases right with
      | object others =>
          have heach : ∀ entry ∈ Entries.counted entries, ∀ other : String × Json,
              (entry.1 == other.1 && same entry.2 other.2) = true ↔
                (entry.1, entry.2.canonical) = (other.1, other.2.canonical) := by
            intro entry hentry other
            rw [Bool.and_eq_true, beq_iff_eq, ih entry (Entries.mem_of_mem_counted hentry),
              Prod.mk.injEq]
          rw [same, entryTests_eq_map, Entries.counted_map, List.map_map, canonical_object,
            canonical_object, Canonical.ofEntries_inj, Entries.counted_map, Entries.counted_map]
          exact passEach_iff heach
      | _ => simp [same, canonical, Canonical.ofEntries]

/-- **Equality is sameness of canonical forms.** -/
theorem beq_iff {left right : Json} : left == right ↔ left.canonical = right.canonical :=
  same_iff left right

theorem canonical_beq (left right : Json) : (left.canonical == right.canonical) = (left == right) := by
  rw [Bool.eq_iff_iff, beq_iff, ← compare_canonical_eq_iff]
  exact beq_iff_eq (a := left.canonical.compare right.canonical)

instance : EquivBEq Json where
  rfl := beq_iff.mpr rfl
  symm := fun h => beq_iff.mpr (beq_iff.mp h).symm
  trans := fun h h' => beq_iff.mpr ((beq_iff.mp h).trans (beq_iff.mp h'))

/-! ### Equality by kinds -/

theorem kind_eq_of_beq {left right : Json} (heq : left == right) : left.kind = right.kind := by
  rw [← kind_canonical left, ← kind_canonical right, beq_iff.mp heq]

theorem number_beq_iff {left right : Number} : number left == number right ↔ left == right := by
  rw [beq_iff, Number.beq_iff, canonical, canonical, Canonical.number.injEq]

theorem string_beq_iff {left right : String} : string left == string right ↔ left = right := by
  rw [beq_iff, canonical, canonical, Canonical.string.injEq]

theorem array_beq_iff {items others : List Json} :
    array items == array others ↔ items.map canonical = others.map canonical := by
  rw [beq_iff, canonical_array, canonical_array, Canonical.array.injEq]

/-- Objects are equal when every key finds equal values in both. -/
theorem object_beq_iff {entries others : Entries Json} :
    object entries == object others ↔
      ∀ key, (entries.find? key).map canonical = (others.find? key).map canonical := by
  rw [beq_iff, canonical_object, canonical_object, Canonical.ofEntries_inj, Entries.counted_eq_iff]
  simp only [Entries.find?_map]

end Json

end JsonEdit
