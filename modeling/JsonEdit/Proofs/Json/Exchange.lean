import JsonEdit.Json.Dynamic
import JsonEdit.Json.Interchange
import JsonEdit.Proofs.Json.Text
import JsonEdit.Proofs.Number.Alike

/-!
# Trees in other models and back

A tree is translated to dynamic values, or to the interchange model, part by part, and from there back to
a tree. Both models keep the first occurrence of a repeated key only, and both may write a number in
another way. Neither loses anything that equality looks at: what is found at a key is an equal value, and
the number has the same value.

The text of every number in a tree is a number again. So of the two readers of the interchange model the
one that reports faults has none to report, and the one that puts null for a text that is not a number
never does that.
-/

namespace JsonEdit

namespace Entries

variable {α β : Type}

theorem erase_map (f : α → β) (key : String) (entries : Entries α) :
    erase key (entries.map fun entry => (entry.1, f entry.2)) =
      (entries.erase key).map fun entry => (entry.1, f entry.2) :=
  List.filter_map

theorem firsts_map (f : α → β) (entries : Entries α) :
    firsts (entries.map fun entry => (entry.1, f entry.2)) =
      entries.firsts.map fun entry => (entry.1, f entry.2) := by
  induction entries with
  | nil => rfl
  | cons entry rest ih => rw [List.map_cons, firsts, ih, erase_map, firsts, List.map_cons]

end Entries

/-! ### Translations -/

/-- What becomes of a tree on the way to another model and back. -/
structure Json.Translates (back : Json → Json) : Prop where
  leaf {tree : Json} (hleaf : tree.isContainer = false) : back tree == tree
  array (items : List Json) : back (.array items) = .array (items.map back)
  object (entries : Entries Json) :
    back (.object entries) = .object (entries.firsts.map fun entry => (entry.1, back entry.2))

/-- **A translation gives back an equal tree.** -/
theorem Json.Translates.beq {back : Json → Json} (htranslates : Translates back) (tree : Json) :
    back tree == tree := by
  induction tree using Json.induct with
  | array items ih =>
      rw [htranslates.array, array_beq_iff, List.map_map]
      exact List.map_congr_left fun item hitem => beq_iff.mp (ih item hitem)
  | object entries ih =>
      rw [htranslates.object, object_beq_iff]
      intro key
      rw [Entries.find?_map, Entries.find?_firsts, Option.map_map]
      refine Option.map_congr fun value hvalue => ?_
      exact beq_iff.mp (ih _ (Entries.mem_of_find? hvalue))
  | _ => exact htranslates.leaf rfl

/-! ### Dynamic values -/

namespace Dynamic

theorem exists_toJson_ofNumber (number : Number) :
    ∃ back, (ofNumber number).toJson = .number back ∧ number.Alike back := by
  unfold ofNumber
  split
  · exact ⟨_, rfl, Number.alike_ofInt ‹_›⟩
  · split
    · exact ⟨_, rfl, Number.alike_ofInt ‹_›⟩
    · exact ⟨number, rfl, .refl number⟩

theorem toJson_ofJson_array (items : List Json) :
    (ofJson (.array items)).toJson = .array (items.map fun item => (ofJson item).toJson) := by
  rw [ofJson, toJson, Json.array.injEq]
  induction items with
  | nil => rfl
  | cons item rest ih => rw [ofJsonItems, toJsonItems, ih, List.map_cons]

theorem ofJsonEntries_eq_map (entries : Entries Json) :
    ofJsonEntries entries = entries.map fun entry => (entry.1, ofJson entry.2) := by
  induction entries with
  | nil => rfl
  | cons entry rest ih => rw [ofJsonEntries, ih, List.map_cons]

theorem toJsonFields_eq_map (fields : Entries Dynamic) :
    toJsonFields fields = fields.map fun field => (field.1, field.2.toJson) := by
  induction fields with
  | nil => rfl
  | cons field rest ih => rw [toJsonFields, ih, List.map_cons]

theorem toJson_ofJson_object (entries : Entries Json) :
    (ofJson (.object entries)).toJson =
      .object (entries.firsts.map fun entry => (entry.1, (ofJson entry.2).toJson)) := by
  rw [ofJson, toJson, ofJsonEntries_eq_map, Entries.firsts_map, toJsonFields_eq_map, List.map_map]
  rfl

theorem translates : Json.Translates fun tree => (ofJson tree).toJson where
  leaf {tree} hleaf := by
    cases tree with
    | number value =>
        obtain ⟨back, hback, halike⟩ := exists_toJson_ofNumber value
        rw [ofJson, hback, BEq.comm, Json.number_beq_iff]
        exact halike.1
    | array | object => cases hleaf
    | _ => exact BEq.rfl
  array := toJson_ofJson_array
  object := toJson_ofJson_object

end Dynamic

/-! ### The interchange model -/

namespace Interchange

theorem toInterchangeItems_eq_map (items : List Json) :
    Json.toInterchangeItems items = items.map Json.toInterchange := by
  induction items with
  | nil => rfl
  | cons item rest ih => rw [Json.toInterchangeItems, ih, List.map_cons]

theorem toInterchangeEntries_eq_map (entries : Entries Json) :
    Json.toInterchangeEntries entries = entries.map fun entry => (entry.1, entry.2.toInterchange) := by
  induction entries with
  | nil => rfl
  | cons entry rest ih => rw [Json.toInterchangeEntries, ih, List.map_cons]

theorem toJsonOrNullItems_eq_map (items : List Interchange) :
    toJsonOrNullItems items = items.map toJsonOrNull := by
  induction items with
  | nil => rfl
  | cons item rest ih => rw [toJsonOrNullItems, ih, List.map_cons]

theorem toJsonOrNullEntries_eq_map (entries : Entries Interchange) :
    toJsonOrNullEntries entries = entries.map fun entry => (entry.1, entry.2.toJsonOrNull) := by
  induction entries with
  | nil => rfl
  | cons entry rest ih => rw [toJsonOrNullEntries, ih, List.map_cons]

theorem toInterchange_object (entries : Entries Json) :
    (Json.object entries).toInterchange =
      .object (entries.firsts.map fun entry => (entry.1, entry.2.toInterchange)) := by
  rw [Json.toInterchange, toInterchangeEntries_eq_map, Entries.firsts_map]

theorem toJsonOrNull_toInterchange_number (value : Number) :
    (Json.number value).toInterchange.toJsonOrNull = .number value.normal := by
  rw [Json.toInterchange, toJsonOrNull, Number.parse?_eq_some_iff.mpr rfl, Option.map_some,
    Option.getD_some]

theorem translates : Json.Translates fun tree => tree.toInterchange.toJsonOrNull where
  leaf {tree} hleaf := by
    cases tree with
    | number value =>
        rw [toJsonOrNull_toInterchange_number, Json.number_beq_iff, Number.beq_iff]
        exact Number.scientific_normal value
    | array | object => cases hleaf
    | _ => exact BEq.rfl
  array items := by
    rw [Json.toInterchange, toJsonOrNull, toInterchangeItems_eq_map, toJsonOrNullItems_eq_map,
      List.map_map]
    rfl
  object entries := by
    rw [toInterchange_object, toJsonOrNull, toJsonOrNullEntries_eq_map, List.map_map]
    rfl

theorem toJsonItems_eq_ok {items : List Interchange}
    (hitems : ∀ item ∈ items, item.toJson = .ok item.toJsonOrNull) (position : Nat) :
    toJsonItems position items = .ok (toJsonOrNullItems items) := by
  induction items generalizing position with
  | nil => rfl
  | cons item rest ih =>
      obtain ⟨hitem, hrest⟩ := List.forall_mem_cons.mp hitems
      rw [toJsonItems, hitem, ih hrest, toJsonOrNullItems]
      rfl

theorem toJsonEntries_eq_ok {entries : Entries Interchange}
    (hentries : ∀ entry ∈ entries, entry.2.toJson = .ok entry.2.toJsonOrNull) :
    toJsonEntries entries = .ok (toJsonOrNullEntries entries) := by
  induction entries with
  | nil => rfl
  | cons entry rest ih =>
      obtain ⟨hentry, hrest⟩ := List.forall_mem_cons.mp hentries
      rw [toJsonEntries, hentry, ih hrest, toJsonOrNullEntries]
      rfl

/-- Both readers agree on what was a tree. -/
theorem toJson_toInterchange (tree : Json) :
    tree.toInterchange.toJson = .ok tree.toInterchange.toJsonOrNull := by
  induction tree using Json.induct with
  | number value =>
      rw [toJsonOrNull_toInterchange_number, Json.toInterchange, toJson, Number.ofText,
        Number.parse?_eq_some_iff.mpr rfl]
      rfl
  | array items ih =>
      rw [Json.toInterchange, toJson, toInterchangeItems_eq_map, toJsonItems_eq_ok]
      · rfl
      · exact List.forall_mem_map.mpr ih
  | object entries ih =>
      rw [toInterchange_object, toJson, toJsonEntries_eq_ok]
      · rfl
      · exact List.forall_mem_map.mpr fun entry hentry => ih entry (Entries.mem_of_mem_firsts hentry)
  | _ => rfl

end Interchange

/-- **Other models keep the value of a tree.** It comes back from its dynamic form, and from its
interchange form, as a tree that is equal to it. Both readers of the interchange form give the same tree,
and no fault is reported. -/
theorem Json.exchange_roundTrip (tree : Json) :
    (Dynamic.ofJson tree).toJson == tree ∧
      ∃ back : Json, tree.toInterchange.toJson = .ok back ∧ back == tree ∧
        tree.toInterchange.toJsonOrNull = back :=
  ⟨Dynamic.translates.beq tree, tree.toInterchange.toJsonOrNull,
    Interchange.toJson_toInterchange tree, Interchange.translates.beq tree, rfl⟩

/-- The number becomes an integer, and of the two entries with one key the first one stays. -/
example :
    let tree : Json := .object [("a", .number { whole := 42, fraction := [0] }), ("a", .null)]
    (Dynamic.ofJson tree).toJson = .object [("a", .number (.ofInt 42))] := rfl

end JsonEdit
