import JsonEdit.Patch.Document
import JsonEdit.Proofs.Json.Focus
import JsonEdit.Proofs.Outcome

/-!
# What is wrong with the document of a patch

A document that is no patch is refused with a reason and a path. The path leads to exactly one value of the
document, and the reason is true of this value: it is of another kind than was expected, it lacks a field,
or it is a text or a number that does not say what it should.

Every reader is judged by the value that it is given. A fault from inside a child gets the step to the child
in front, and where a key repeats the readers look at its first entry, like the path does.
-/

namespace JsonEdit

def UnknownName (what name : String) : Prop :=
  match what with
  | "operation" => ∀ operation : Operation, operation.name ≠ name
  | "string edit" => ∀ edit : StringEdit, edit.name ≠ name
  | "array edit" => ∀ edit : SequenceEdit Json Operation, edit.name ≠ name
  | "object edit" => ∀ edit : MapEdit String Json Operation, edit.name ≠ name
  | _ => False

/-- What the reason for a refusal says of the value that it is about. -/
def Reason.IsTrueOf : Reason → Json → Prop
  | .patchNotArray found, value | .editsNotArray found, value => value.kind = found ∧ found ≠ .array
  | .operationNotObject found, value => value.kind = found ∧ found ≠ .object
  | .missingField name, value => value.kind = .object ∧ value.field? name = none
  | .expectedKind expected found, value => value.kind = found ∧ found ≠ expected
  | .doesNotFit number type, value =>
    value = .number number ∧ type = IntegerKind.usize.name ∧ number.integerOf? .usize = none
  | .invalidPath error, value => ∃ text, value = .string text ∧ Path.parse text = .error error
  | .unknownName what name, value => value = .string name ∧ UnknownName what name
  | _, _ => False

/-- If the computation fails, then because of one value in the tree, which is found at the path of the
fault and of which the reason is true. -/
def Blames {α : Type} (tree : Json) : Except Fault α → Prop
  | .ok _ => True
  | .error fault =>
    fault.path.Concrete ∧ ∃ value, tree.valueAt? fault.path = some value ∧ fault.reason.IsTrueOf value

namespace Blames

variable {α β : Type} {tree child : Json} {result : Except Fault α}

theorem root {reason : Reason} (htrue : reason.IsTrueOf tree) :
    Blames tree (.error ⟨reason, []⟩ : Except Fault α) :=
  ⟨List.forall_mem_nil _, tree, rfl, htrue⟩

theorem bind {next : α → Except Fault β} (hresult : Blames tree result)
    (hnext : ∀ value, result = .ok value → Blames tree (next value)) : Blames tree (result >>= next) := by
  cases result with
  | error fault => exact hresult
  | ok value => exact hnext value rfl

theorem map (hresult : Blames tree result) (f : α → β) : Blames tree (result.map f) := by
  cases result with
  | error fault => exact hresult
  | ok value => trivial

/-- What is wrong in a child is wrong in the container, one step further away. -/
theorem within {step : Step} (hresult : Blames child result) (hconcrete : step.isConcrete)
    (hchild : tree.child? step = some child) : Blames tree (result.mapError (Fault.within step)) := by
  cases result with
  | ok value => trivial
  | error fault =>
      obtain ⟨hpath, value, hvalue, htrue⟩ := hresult
      refine ⟨Path.concrete_cons.mpr ⟨hconcrete, hpath⟩, value, ?_, htrue⟩
      change (tree.child? step).bind (Json.valueAt? · fault.path) = some value
      rw [hchild, Option.bind_some, hvalue]

theorem atChild {step : Step} {reason : Reason} (htrue : reason.IsTrueOf child)
    (hconcrete : step.isConcrete) (hchild : tree.child? step = some child) :
    Blames tree (.error ⟨reason, [step]⟩ : Except Fault α) :=
  within (root htrue : Blames child (.error ⟨reason, []⟩ : Except Fault α)) hconcrete hchild

/-- A list is read element by element, from a position on. -/
theorem decodeItems {decode : Json → Except Fault α} (before items : List Json)
    (hdecode : ∀ item ∈ items, Blames item (decode item)) :
    Blames (.array (before ++ items)) (Schema.decodeItems decode before.length items) := by
  induction items generalizing before with
  | nil => trivial
  | cons item rest ih =>
      obtain ⟨hitem, hrest⟩ := List.forall_mem_cons.mp hdecode
      have hothers := ih (before ++ [item]) hrest
      rw [List.append_assoc, List.singleton_append, List.length_append, List.length_singleton] at hothers
      have hchild : (Json.array (before ++ item :: rest)).child? (.index before.length) = some item := by
        simp [Json.child?, Step.position?]
      have hfirst := hitem.within rfl hchild
      rw [Schema.decodeItems]
      cases hdecoded : decode item with
      | error fault =>
          rw [hdecoded] at hfirst
          exact hfirst
      | ok value => exact hothers.map _

end Blames

namespace Json

/-! ### Fields of a description -/

variable {tree : Json}

theorem child?_of_describedField {name : String} {field : { value : Json // sizeOf value < sizeOf tree }}
    (hfield : tree.describedField name = .ok field) : tree.child? (.field name) = some field.val := by
  unfold describedField at hfield
  split at hfield
  · split at hfield
    · rename_i hfound
      cases hfield
      exact hfound
    · cases hfield
  · cases hfield

theorem blames_describedField (name : String) (tree : Json) : Blames tree (tree.describedField name) := by
  unfold describedField
  split
  · split
    · trivial
    · rename_i hnone
      exact .root ⟨rfl, hnone⟩
  · rename_i hobject
    refine .root ⟨rfl, fun hkind => ?_⟩
    cases tree with
    | object entries => exact hobject entries rfl
    | _ => cases hkind

theorem blames_describedValue (schema : Schema) (hdecode : ∀ value, Blames value (schema.decode value))
    (name : String) (tree : Json) : Blames tree (tree.describedValue schema name) := by
  refine (blames_describedField name tree).bind fun field hfield => ?_
  exact (hdecode field.val).within rfl (child?_of_describedField hfield)

theorem blames_decode_string (tree : Json) : Blames tree (Schema.string.decode tree) := by
  cases tree with
  | string value => trivial
  | _ => exact .root ⟨rfl, Kind.noConfusion⟩

theorem blames_numberIn (tree : Json) : Blames tree (Schema.numberIn tree) := by
  cases tree with
  | number value => trivial
  | _ => exact .root ⟨rfl, Kind.noConfusion⟩

theorem blames_decode_usize (tree : Json) : Blames tree ((Schema.integer .usize).decode tree) := by
  refine (blames_numberIn tree).bind fun number hnumber => ?_
  have htree : tree = .number number := by
    cases tree <;> cases hnumber
    rfl
  split
  · trivial
  · rename_i hinteger
    exact .root ⟨htree, rfl, hinteger⟩

theorem blames_decode_trees (tree : Json) : Blames tree ((Schema.list .json).decode tree) := by
  cases tree with
  | array items => exact .decodeItems [] items fun _ _ => trivial
  | _ => exact .root ⟨rfl, Kind.noConfusion⟩

theorem blames_describedText (name : String) (tree : Json) : Blames tree (tree.describedText name) :=
  blames_describedValue .string blames_decode_string name tree

theorem blames_describedCount (name : String) (tree : Json) : Blames tree (tree.describedCount name) :=
  (blames_describedValue (.integer .usize) blames_decode_usize name tree).map _

theorem blames_describedTrees (name : String) (tree : Json) : Blames tree (tree.describedTrees name) :=
  blames_describedValue (.list .json) blames_decode_trees name tree

theorem child?_of_describedText {name text : String} (htext : tree.describedText name = .ok text) :
    tree.child? (.field name) = some (.string text) := by
  obtain ⟨field, hfield, hdecode⟩ := except_bind_eq_ok htext
  rw [child?_of_describedField hfield]
  cases hvalue : field.val with
  | string value =>
      rw [hvalue] at hdecode
      cases hdecode
      rfl
  | _ =>
      rw [hvalue] at hdecode
      cases hdecode

theorem blames_unknownName {α : Type} {what name : String} (htext : tree.describedText "op" = .ok name)
    (hname : UnknownName what name) : Blames tree (unknownName what name : Except Fault α) :=
  .atChild ⟨rfl, hname⟩ rfl (child?_of_describedText htext)

theorem blames_describedEdits (tree : Json) : Blames tree tree.describedEdits := by
  refine (blames_describedField "edits" tree).bind fun field hfield => ?_
  obtain ⟨value, hsmaller⟩ := field
  have hchild := child?_of_describedField hfield
  cases value with
  | array edits => trivial
  | _ => exact .atChild ⟨rfl, Kind.noConfusion⟩ rfl hchild

theorem child?_of_describedEdits {edits : { edits : List Json // sizeOf edits < sizeOf tree }}
    (hedits : tree.describedEdits = .ok edits) : tree.child? (.field "edits") = some (.array edits.val) := by
  obtain ⟨⟨value, hsmaller⟩, hfield, hvalue⟩ := except_bind_eq_ok hedits
  rw [child?_of_describedField hfield]
  cases value with
  | array items =>
      cases hvalue
      rfl
  | _ => cases hvalue

theorem blames_listedEdits {α : Type} {decode : Json → Except Fault α}
    {edits : { edits : List Json // sizeOf edits < sizeOf tree }} (hedits : tree.describedEdits = .ok edits)
    (hdecode : ∀ edit ∈ edits.val, Blames edit (decode edit)) :
    Blames tree ((Schema.decodeItems decode 0 edits.val).mapError (Fault.within (.field "edits"))) :=
  (Blames.decodeItems [] edits.val hdecode).within rfl (child?_of_describedEdits hedits)

theorem blames_describedPath (tree : Json) : Blames tree tree.describedPath := by
  unfold describedPath
  cases hfield : tree.field? "path" with
  | none => trivial
  | some value =>
      have hvalue : Blames value ((Schema.string.decode value).bind Path.ofText) := by
        refine (blames_decode_string value).bind fun text htext => ?_
        cases value <;> cases htext
        rw [Path.ofText]
        cases hparse : Path.parse _ with
        | ok path => trivial
        | error error => exact .root ⟨_, rfl, hparse⟩
      have hchild : tree.child? (.field "path") = some value := by
        cases tree <;> exact hfield
      exact hvalue.within rfl hchild

end Json

open Json

theorem StringEdit.blames_ofJson (tree : Json) : Blames tree (StringEdit.ofJson tree) := by
  rw [StringEdit.ofJson]
  refine (blames_describedText "op" tree).bind fun name hname => ?_
  split
  · exact (blames_describedCount _ _).bind fun _ _ => (blames_describedText _ _).bind fun _ _ => trivial
  · exact (blames_describedCount _ _).bind fun _ _ => (blames_describedCount _ _).bind fun _ _ => trivial
  · exact (blames_describedText _ _).bind fun _ _ => trivial
  · exact (blames_describedCount _ _).bind fun _ _ => (blames_describedCount _ _).bind fun _ _ =>
      (blames_describedText _ _).bind fun _ _ => trivial
  · refine blames_unknownName hname fun edit hedit => ?_
    subst hedit
    cases edit <;> contradiction

namespace Operation

/-! ### Lists of edits and of entries -/

/-- A list that is read element by element. -/
theorem eq_decodeItems {α : Type} {decode : Json → Except Fault α}
    {decodeAll : Nat → List Json → Except Fault (List α)} (hnil : ∀ position, decodeAll position [] = .ok [])
    (hcons : ∀ position tree rest, decodeAll position (tree :: rest) =
      ((decode tree).mapError (Fault.within (.index position))).bind fun value =>
        (decodeAll (position + 1) rest).map (value :: ·))
    (position : Nat) (trees : List Json) :
    decodeAll position trees = Schema.decodeItems decode position trees := by
  induction trees generalizing position with
  | nil => exact hnil position
  | cons tree rest ih =>
      rw [hcons, Schema.decodeItems, ih]
      cases decode tree <;> rfl

theorem arrayEditsOfJson_eq (position : Nat) (trees : List Json) :
    arrayEditsOfJson position trees = Schema.decodeItems arrayEditOfJson position trees := by
  refine eq_decodeItems (fun _ => ?_) (fun _ _ _ => ?_) position trees <;> rw [arrayEditsOfJson]
  rfl

theorem objectEditsOfJson_eq (position : Nat) (trees : List Json) :
    objectEditsOfJson position trees = Schema.decodeItems objectEditOfJson position trees := by
  refine eq_decodeItems (fun _ => ?_) (fun _ _ _ => ?_) position trees <;> rw [objectEditsOfJson]
  rfl

def stepOfJson (tree : Json) : Except Fault (Path × Operation) :=
  tree.describedPath.bind fun path => (ofJson tree).map fun operation => (path, operation)

theorem stepsOfJson_eq (position : Nat) (trees : List Json) :
    stepsOfJson position trees = Schema.decodeItems stepOfJson position trees := by
  refine eq_decodeItems (fun _ => ?_) (fun _ tree _ => ?_) position trees <;> rw [stepsOfJson]
  rw [stepOfJson]
  cases tree.describedPath with
  | error fault => rfl
  | ok path => cases ofJson tree <;> rfl

/-! ### Operations

The readers of operations, edits and patches call each other for what lies inside the tree. -/

mutual

theorem blames_ofJson (tree : Json) : Blames tree (ofJson tree) := by
  rw [ofJson]
  refine (blames_describedText "op" tree).bind fun name hname => ?_
  split
  · exact (blames_describedField _ _).bind fun _ _ => trivial
  · exact (blames_describedValue Schema.number blames_numberIn _ _).bind fun _ _ => trivial
  · refine (blames_describedEdits tree).bind fun edits hedits => ?_
    have hlisted := blames_listedEdits hedits fun edit _ => StringEdit.blames_ofJson edit
    exact hlisted.bind fun _ _ => trivial
  · refine (blames_describedEdits tree).bind fun edits hedits => ?_
    have hlisted := blames_listedEdits hedits fun edit hedit =>
      have hsmaller := (List.sizeOf_lt_of_mem hedit).trans edits.property
      blames_arrayEditOfJson edit
    rw [← arrayEditsOfJson_eq] at hlisted
    exact hlisted.bind fun _ _ => trivial
  · refine (blames_describedEdits tree).bind fun edits hedits => ?_
    have hlisted := blames_listedEdits hedits fun edit hedit =>
      have hsmaller := (List.sizeOf_lt_of_mem hedit).trans edits.property
      blames_objectEditOfJson edit
    rw [← objectEditsOfJson_eq] at hlisted
    exact hlisted.bind fun _ _ => trivial
  · refine (blames_describedField "patch" tree).bind fun patch hpatch => ?_
    have hsteps := blames_patchOfJson patch.val
    exact (hsteps.within rfl (child?_of_describedField hpatch)).bind fun _ _ => trivial
  · refine blames_unknownName hname fun operation hoperation => ?_
    subst hoperation
    cases operation <;> contradiction
  termination_by sizeOf tree

theorem blames_arrayEditOfJson (tree : Json) : Blames tree (arrayEditOfJson tree) := by
  rw [arrayEditOfJson]
  refine (blames_describedText "op" tree).bind fun name hname => ?_
  split
  · exact (blames_describedCount _ _).bind fun _ _ => (blames_describedTrees _ _).bind fun _ _ => trivial
  · exact (blames_describedTrees _ _).bind fun _ _ => trivial
  · exact (blames_describedCount _ _).bind fun _ _ => (blames_describedCount _ _).bind fun _ _ => trivial
  · refine (blames_describedCount _ _).bind fun _ _ => ?_
    refine (blames_describedField _ _).bind fun change hchange => ?_
    have hoperation := blames_ofJson change.val
    exact (hoperation.within rfl (child?_of_describedField hchange)).bind fun _ _ => trivial
  · refine blames_unknownName hname fun edit hedit => ?_
    subst hedit
    cases edit <;> contradiction
  termination_by sizeOf tree

theorem blames_objectEditOfJson (tree : Json) : Blames tree (objectEditOfJson tree) := by
  rw [objectEditOfJson]
  refine (blames_describedText "op" tree).bind fun name hname => ?_
  split
  · exact (blames_describedText _ _).bind fun _ _ => (blames_describedField _ _).bind fun _ _ => trivial
  · exact (blames_describedText _ _).bind fun _ _ => trivial
  · refine (blames_describedText _ _).bind fun _ _ => ?_
    refine (blames_describedField _ _).bind fun change hchange => ?_
    have hoperation := blames_ofJson change.val
    exact (hoperation.within rfl (child?_of_describedField hchange)).bind fun _ _ => trivial
  · refine blames_unknownName hname fun edit hedit => ?_
    subst hedit
    cases edit <;> contradiction
  termination_by sizeOf tree

/-- **A document that is refused has a value that the fault points at**, for the reason that it states. -/
theorem blames_patchOfJson (tree : Json) : Blames tree (patchOfJson tree) := by
  cases tree with
  | array trees =>
      rw [patchOfJson, stepsOfJson_eq]
      refine .decodeItems [] trees fun step hstep => ?_
      have hsmaller := List.sizeOf_lt_of_mem hstep
      exact (blames_describedPath step).bind fun _ _ => (blames_ofJson step).map _
  | _ =>
      rw [patchOfJson]
      · exact .root ⟨rfl, Kind.noConfusion⟩
      · nofun
  termination_by sizeOf tree

end

end Operation

/-- **A document that is refused has one value that is wrong.** The path of the fault leads to this value
and to no other, and the reason is true of it. -/
theorem Patch.ofJson_eq_error {tree : Json} {fault : Fault} (hfault : Patch.ofJson tree = .error fault) :
    ∃ value, tree.get fault.path = [value] ∧ fault.reason.IsTrueOf value := by
  have hblames := Operation.blames_patchOfJson tree
  rw [← Patch.ofJson, hfault] at hblames
  obtain ⟨hconcrete, value, hvalue, htrue⟩ := hblames
  refine ⟨value, ?_, htrue⟩
  rw [Json.get_of_single hconcrete.hasWildcards, hvalue]
  rfl

/-- An edit without the length of what it deletes, in a document whose keys repeat. -/
theorem Patch.ofJson_eq_error_missingField :
    let edit : Json := .object [("op", .string "delete"), ("index", .ofNat 0), ("op", .null)]
    let set : Json := .object [("op", .string "set"), ("value", .null)]
    let delete : Json := .object [("op", .string "array_edit"), ("edits", .array [edit]), ("edits", .null)]
    let tree : Json := .array [set, delete]
    let fault : Fault := ⟨.missingField "length", [.index 1, .field "edits", .index 0]⟩
    Patch.ofJson tree = .error fault ∧ tree.get fault.path = [edit] ∧ fault.reason.IsTrueOf edit := by
  intro edit set delete tree fault
  have hedit : Operation.arrayEditOfJson edit = .error ⟨.missingField "length", []⟩ := by
    rw [Operation.arrayEditOfJson]
    rfl
  have hfirst : Operation.stepOfJson set = .ok ([], .set .null) := by
    rw [Operation.stepOfJson, Operation.ofJson]
    rfl
  have hsecond : Operation.stepOfJson delete =
      .error ⟨.missingField "length", [.field "edits", .index 0]⟩ := by
    rw [Operation.stepOfJson, Operation.ofJson]
    change Except.map _ (((Operation.arrayEditsOfJson 0 [edit]).mapError _).map _) = _
    rw [Operation.arrayEditsOfJson_eq, Schema.decodeItems, hedit]
    rfl
  have hfault : Patch.ofJson tree = .error fault := by
    rw [Patch.ofJson, Operation.patchOfJson, Operation.stepsOfJson_eq, Schema.decodeItems, hfirst,
      Schema.decodeItems, hsecond]
    rfl
  obtain ⟨value, hget, htrue⟩ := Patch.ofJson_eq_error hfault
  have hvalue : tree.get fault.path = [edit] := rfl
  cases hget.symm.trans hvalue
  exact ⟨hfault, hvalue, htrue⟩

end JsonEdit
