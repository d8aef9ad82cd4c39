import JsonEdit.Patch.Document
import JsonEdit.Proofs.Json.Entries
import JsonEdit.Proofs.Json.Schema

/-!
# The document of a patch is read back

A patch is recovered from its document, with all that it carries as it was. Two things have to be as the
document can hold them: positions and lengths are integers of 64 bits, and a path has to be determined
by its text.
-/

namespace JsonEdit

/-! ### Fields of a description -/

theorem Number.integerOf?_usize {n : Nat} (hn : n < 2 ^ 64) :
    ∃ fits, (Number.ofInt n).integerOf? .usize = some ⟨n, fits⟩ := by
  have hgreatest : IntegerKind.usize.greatest = 2 ^ 64 - 1 := by decide
  have hfits : IntegerKind.usize.holds n := by
    rw [IntegerKind.holds, hgreatest, IntegerKind.least, if_neg (by decide), Bool.and_eq_true,
      decide_eq_true_eq, decide_eq_true_eq]
    omega
  have hbound : (n : Int).natAbs < pow2 96 := by
    rw [Int.natAbs_natCast, pow2_eq]
    omega
  exact ⟨hfits, integerOf?_ofInt hbound hfits⟩

namespace Json

variable {op name text : String} {fields : Entries Json} {value : Json}

theorem describedText_op (op : String) (fields : Entries Json) :
    (described op fields).describedText "op" = .ok op := by
  rfl

/-- The fields behind the name of what is described. -/
theorem describedField_eq (op : String) (hname : name ≠ "op") (hfind : fields.find? name = some value) :
    ∃ smaller, (described op fields).describedField name = .ok ⟨value, smaller⟩ := by
  have hfound : Entries.find? name (("op", .string op) :: fields) = some value := by
    rw [Entries.find?_cons, if_neg (Ne.symm hname), hfind]
  have hsmaller : sizeOf value < sizeOf (described op fields) := by
    have hlt := Entries.sizeOf_lt_of_find? hfound
    rw [described, object.sizeOf_spec]
    omega
  refine ⟨hsmaller, ?_⟩
  unfold described describedField
  simp only
  split
  · rename_i found hsome
    cases hfound.symm.trans hsome
    rfl
  · rename_i hnone
    cases hfound.symm.trans hnone

theorem describedValue_eq (schema : Schema) {decoded : schema.Value} (hname : name ≠ "op")
    (hfind : fields.find? name = some value) (hdecode : schema.decode value = .ok decoded) :
    (described op fields).describedValue schema name = .ok decoded := by
  obtain ⟨smaller, hfield⟩ := describedField_eq op hname hfind
  unfold describedValue
  rw [hfield]
  change (schema.decode value).mapError _ = _
  rw [hdecode]
  rfl

theorem describedText_eq (hname : name ≠ "op") (hfind : fields.find? name = some (.string text)) :
    (described op fields).describedText name = .ok text :=
  describedValue_eq .string hname hfind rfl

theorem describedCount_eq {n : Nat} (hname : name ≠ "op") (hfind : fields.find? name = some (.ofNat n))
    (hn : n < 2 ^ 64) : (described op fields).describedCount name = .ok n := by
  obtain ⟨fits, hinteger⟩ := Number.integerOf?_usize hn
  have hdecode : (Schema.integer .usize).decode (.ofNat n) = .ok ⟨n, fits⟩ := by
    unfold Schema.decode
    simp only [Json.ofNat, Schema.numberIn, Except.bind, hinteger]
  rw [describedCount, describedValue_eq (.integer .usize) hname hfind hdecode]
  rfl

theorem decodeItems_ok (position : Nat) (items : List Json) :
    Schema.decodeItems Except.ok position items = .ok items := by
  have hall : ∀ item ∈ items, (Except.ok (id item) : Except Fault Json) = .ok item := fun _ _ => rfl
  have hitems := Schema.decodeItems_map hall position
  rwa [List.map_id] at hitems

theorem describedTrees_eq {items : List Json} (hname : name ≠ "op")
    (hfind : fields.find? name = some (.array items)) :
    (described op fields).describedTrees name = .ok items :=
  describedValue_eq (.list .json) hname hfind (decodeItems_ok 0 items)

theorem describedEdits_eq (op : String) {items : List Json}
    (hfind : fields.find? "edits" = some (.array items)) :
    ∃ smaller, (described op fields).describedEdits = .ok ⟨items, smaller⟩ := by
  obtain ⟨smaller, hfield⟩ := describedField_eq op (show "edits" ≠ "op" by decide) hfind
  have hlt : sizeOf items < sizeOf (described op fields) := by
    rw [array.sizeOf_spec] at smaller
    omega
  refine ⟨hlt, ?_⟩
  rw [describedEdits, hfield]
  rfl

end Json

namespace StringEdit

/-- The positions and lengths of the edit are integers of 64 bits. -/
def Storable : StringEdit → Prop
  | .insert position _ => position < 2 ^ 64
  | .delete position length | .modify position length _ => position < 2 ^ 64 ∧ length < 2 ^ 64
  | .append _ => True

/-- An edit of a string is read back from its document. -/
theorem ofJson_toJson {edit : StringEdit} (hstorable : edit.Storable) :
    ofJson edit.toJson = .ok edit := by
  unfold ofJson toJson
  rw [Json.describedText_op]
  cases edit with
  | insert position text =>
      simp only [name, bind, Except.bind]
      rw [Json.describedCount_eq (by decide) rfl hstorable, Json.describedText_eq (by decide) rfl]
      rfl
  | delete position length =>
      simp only [name, bind, Except.bind]
      rw [Json.describedCount_eq (by decide) rfl hstorable.1,
        Json.describedCount_eq (by decide) rfl hstorable.2]
      rfl
  | append text =>
      simp only [name, bind, Except.bind]
      rw [Json.describedText_eq (by decide) rfl]
      rfl
  | modify position length text =>
      simp only [name, bind, Except.bind]
      rw [Json.describedCount_eq (by decide) rfl hstorable.1,
        Json.describedCount_eq (by decide) rfl hstorable.2, Json.describedText_eq (by decide) rfl]
      rfl

theorem decodeItems_map_toJson {edits : List StringEdit} (hedits : ∀ edit ∈ edits, edit.Storable)
    (position : Nat) :
    Schema.decodeItems ofJson position (edits.map toJson) = .ok edits :=
  Schema.decodeItems_map (fun edit hedit => ofJson_toJson (hedits edit hedit)) position

end StringEdit

namespace Operation

/-! ### Operations -/

mutual

def Storable : Operation → Prop
  | .set _ | .addNumber _ => True
  | .editString edits => ∀ edit ∈ edits, edit.Storable
  | .editArray edits => StorableArrayEdits edits
  | .editObject edits => StorableObjectEdits edits
  | .nested patch => StorablePatch patch

def StorableArrayEdits : List (SequenceEdit Json Operation) → Prop
  | [] => True
  | .insert position _ :: rest => position < 2 ^ 64 ∧ StorableArrayEdits rest
  | .append _ :: rest => StorableArrayEdits rest
  | .delete position length :: rest =>
    position < 2 ^ 64 ∧ length < 2 ^ 64 ∧ StorableArrayEdits rest
  | .modify position operation :: rest =>
    position < 2 ^ 64 ∧ Storable operation ∧ StorableArrayEdits rest

def StorableObjectEdits : List (MapEdit String Json Operation) → Prop
  | [] => True
  | .add _ _ :: rest | .remove _ :: rest => StorableObjectEdits rest
  | .modify _ operation :: rest => Storable operation ∧ StorableObjectEdits rest

def StorablePatch : List (Path × Operation) → Prop
  | [] => True
  | (path, operation) :: rest =>
    (path.isRoot ∨ Path.ofText path.text = .ok path) ∧ Storable operation ∧ StorablePatch rest

end

/-- The content of an operation is found behind its path. -/
theorem find?_behind {place : Entries Json} (hplace : place = [] ∨ ∃ text, place = [("path", text)])
    {name : String} (hname : name ≠ "path") (value : Json) :
    Entries.find? name (place ++ [(name, value)]) = some value := by
  rcases hplace with rfl | ⟨text, rfl⟩
  · rw [List.nil_append, Entries.find?_cons, if_pos rfl]
  · rw [List.singleton_append, Entries.find?_cons, if_neg (Ne.symm hname), Entries.find?_cons,
      if_pos rfl]

/-- The path of a described operation; the root has no field for it. -/
theorem describedPath_eq {path : Path} (operation : Operation)
    (hpath : path.isRoot ∨ Path.ofText path.text = .ok path) :
    (described operation.name
      ((if path.isRoot then [] else [("path", .string path.text)]) ++ fields operation)).describedPath =
      .ok path := by
  by_cases hroot : path.isRoot
  · rw [if_pos hroot, List.nil_append]
    rw [Path.isRoot, List.isEmpty_iff] at hroot
    subst hroot
    cases operation <;> rfl
  · have hfield : (described operation.name ([("path", .string path.text)] ++
        fields operation)).field? "path" = some (.string path.text) := rfl
    rw [if_neg hroot, Json.describedPath, hfield]
    simp only [Schema.decode, Except.bind, hpath.resolve_left hroot]
    rfl

mutual

theorem ofJson_described {place : Entries Json}
    (hplace : place = [] ∨ ∃ text, place = [("path", text)]) :
    (operation : Operation) → operation.Storable →
      ofJson (described operation.name (place ++ fields operation)) = .ok operation
  | .set value, _ => by
      rw [fields]
      obtain ⟨smaller, hvalue⟩ := Json.describedField_eq _ (by decide)
        (find?_behind hplace (show "value" ≠ "path" by decide) value)
      rw [ofJson, Json.describedText_op]
      simp only [name, bind, Except.bind]
      rw [hvalue]
      rfl
  | .addNumber amount, _ => by
      rw [fields, ofJson, Json.describedText_op]
      simp only [name, bind, Except.bind]
      rw [Json.describedValue_eq .number (by decide) (find?_behind hplace (by decide) _) rfl]
      rfl
  | .editString edits, hstorable => by
      rw [fields]
      obtain ⟨smaller, hedits⟩ := Json.describedEdits_eq _
        (find?_behind hplace (by decide) (.array (edits.map StringEdit.toJson)))
      rw [ofJson, Json.describedText_op]
      simp only [name, bind, Except.bind]
      rw [hedits]
      simp only [StringEdit.decodeItems_map_toJson hstorable]
      rfl
  | .editArray edits, hstorable => by
      rw [fields]
      obtain ⟨smaller, hedits⟩ := Json.describedEdits_eq _
        (find?_behind hplace (by decide) (.array (arrayEditsToJson edits)))
      rw [ofJson, Json.describedText_op]
      simp only [name, bind, Except.bind]
      rw [hedits]
      simp only [arrayEditsOfJson_toJson 0 edits hstorable]
      rfl
  | .editObject edits, hstorable => by
      rw [fields]
      obtain ⟨smaller, hedits⟩ := Json.describedEdits_eq _
        (find?_behind hplace (by decide) (.array (objectEditsToJson edits)))
      rw [ofJson, Json.describedText_op]
      simp only [name, bind, Except.bind]
      rw [hedits]
      simp only [objectEditsOfJson_toJson 0 edits hstorable]
      rfl
  | .nested patch, hstorable => by
      rw [fields]
      obtain ⟨smaller, hpatch⟩ := Json.describedField_eq _ (by decide)
        (find?_behind hplace (show "patch" ≠ "path" by decide) (.array (patchToJson patch)))
      rw [ofJson, Json.describedText_op]
      simp only [name, bind, Except.bind]
      rw [hpatch]
      simp only [patchOfJson, stepsOfJson_toJson 0 patch hstorable]
      rfl

theorem arrayEditsOfJson_toJson (start : Nat) :
    (edits : List (SequenceEdit Json Operation)) → StorableArrayEdits edits →
      arrayEditsOfJson start (arrayEditsToJson edits) = .ok edits
  | [], _ => by rw [arrayEditsToJson, arrayEditsOfJson]
  | .insert position values :: rest, hstorable => by
      have hedit : arrayEditOfJson
          (described "insert" [("index", .ofNat position), ("values", .array values)]) =
          .ok (.insert position values) := by
        rw [arrayEditOfJson, Json.describedText_op]
        simp only [bind, Except.bind]
        rw [Json.describedCount_eq (by decide) rfl hstorable.1, Json.describedTrees_eq (by decide) rfl]
        rfl
      rw [arrayEditsToJson, arrayEditsOfJson, hedit,
        arrayEditsOfJson_toJson (start + 1) rest hstorable.2]
      rfl
  | .append values :: rest, hstorable => by
      have hedit : arrayEditOfJson (described "append" [("values", .array values)]) =
          .ok (.append values) := by
        rw [arrayEditOfJson, Json.describedText_op]
        simp only [bind, Except.bind]
        rw [Json.describedTrees_eq (by decide) rfl]
        rfl
      rw [arrayEditsToJson, arrayEditsOfJson, hedit,
        arrayEditsOfJson_toJson (start + 1) rest hstorable]
      rfl
  | .delete position length :: rest, hstorable => by
      have hedit : arrayEditOfJson
          (described "delete" [("index", .ofNat position), ("length", .ofNat length)]) =
          .ok (.delete position length) := by
        rw [arrayEditOfJson, Json.describedText_op]
        simp only [bind, Except.bind]
        rw [Json.describedCount_eq (by decide) rfl hstorable.1,
          Json.describedCount_eq (by decide) rfl hstorable.2.1]
        rfl
      rw [arrayEditsToJson, arrayEditsOfJson, hedit,
        arrayEditsOfJson_toJson (start + 1) rest hstorable.2.2]
      rfl
  | .modify position operation :: rest, hstorable => by
      have hedit : arrayEditOfJson
          (described "modify" [("index", .ofNat position),
            ("change", described operation.name (fields operation))]) =
          .ok (.modify position operation) := by
        have hchange : ofJson (described operation.name (fields operation)) = .ok operation :=
          ofJson_described (.inl rfl) operation hstorable.2.1
        have hfind : Entries.find? "change" [("index", .ofNat position),
            ("change", described operation.name (fields operation))] = some _ := rfl
        obtain ⟨smaller, hfield⟩ := Json.describedField_eq "modify" (by decide) hfind
        rw [arrayEditOfJson, Json.describedText_op]
        simp only [bind, Except.bind]
        rw [Json.describedCount_eq (by decide) rfl hstorable.1, hfield]
        simp only [hchange]
        rfl
      rw [arrayEditsToJson, arrayEditsOfJson, hedit,
        arrayEditsOfJson_toJson (start + 1) rest hstorable.2.2]
      rfl

theorem objectEditsOfJson_toJson (start : Nat) :
    (edits : List (MapEdit String Json Operation)) → StorableObjectEdits edits →
      objectEditsOfJson start (objectEditsToJson edits) = .ok edits
  | [], _ => by rw [objectEditsToJson, objectEditsOfJson]
  | .add key value :: rest, hstorable => by
      have hedit : objectEditOfJson (described "add" [("key", .string key), ("value", value)]) =
          .ok (.add key value) := by
        have hfind : Entries.find? "value" [("key", .string key), ("value", value)] = some value := rfl
        obtain ⟨smaller, hfield⟩ := Json.describedField_eq "add" (by decide) hfind
        rw [objectEditOfJson, Json.describedText_op]
        simp only [bind, Except.bind]
        rw [Json.describedText_eq (by decide) rfl, hfield]
        rfl
      rw [objectEditsToJson, objectEditsOfJson, hedit,
        objectEditsOfJson_toJson (start + 1) rest hstorable]
      rfl
  | .remove key :: rest, hstorable => by
      have hedit : objectEditOfJson (described "remove" [("key", .string key)]) =
          .ok (.remove key) := by
        rw [objectEditOfJson, Json.describedText_op]
        simp only [bind, Except.bind]
        rw [Json.describedText_eq (by decide) rfl]
        rfl
      rw [objectEditsToJson, objectEditsOfJson, hedit,
        objectEditsOfJson_toJson (start + 1) rest hstorable]
      rfl
  | .modify key operation :: rest, hstorable => by
      have hedit : objectEditOfJson
          (described "modify" [("key", .string key),
            ("change", described operation.name (fields operation))]) =
          .ok (.modify key operation) := by
        have hchange : ofJson (described operation.name (fields operation)) = .ok operation :=
          ofJson_described (.inl rfl) operation hstorable.1
        have hfind : Entries.find? "change" [("key", .string key),
            ("change", described operation.name (fields operation))] = some _ := rfl
        obtain ⟨smaller, hfield⟩ := Json.describedField_eq "modify" (by decide) hfind
        rw [objectEditOfJson, Json.describedText_op]
        simp only [bind, Except.bind]
        rw [Json.describedText_eq (by decide) rfl, hfield]
        simp only [hchange]
        rfl
      rw [objectEditsToJson, objectEditsOfJson, hedit,
        objectEditsOfJson_toJson (start + 1) rest hstorable.2]
      rfl

theorem stepsOfJson_toJson (start : Nat) :
    (patch : List (Path × Operation)) → StorablePatch patch →
      stepsOfJson start (patchToJson patch) = .ok patch
  | [], _ => by rw [patchToJson, stepsOfJson]
  | (path, operation) :: rest, hstorable => by
      obtain ⟨hpath, hoperation, hrest⟩ := hstorable
      have hplace : (if path.isRoot then [] else [("path", Json.string path.text)]) = [] ∨
          ∃ text, (if path.isRoot then [] else [("path", Json.string path.text)]) =
            [("path", text)] := by
        by_cases hroot : path.isRoot
        · exact .inl (if_pos hroot)
        · exact .inr ⟨_, if_neg hroot⟩
      rw [patchToJson, stepsOfJson, describedPath_eq operation hpath,
        ofJson_described hplace operation hoperation, stepsOfJson_toJson (start + 1) rest hrest]
      rfl

end

end Operation

/-- **A patch is recovered from its document.** -/
theorem Patch.ofJson_toJson {patch : Patch} (hstorable : Operation.StorablePatch patch) :
    Patch.ofJson patch.toJson = .ok patch := by
  rw [Patch.ofJson, Patch.toJson, Operation.patchOfJson, Operation.stepsOfJson_toJson 0 patch hstorable]

end JsonEdit
