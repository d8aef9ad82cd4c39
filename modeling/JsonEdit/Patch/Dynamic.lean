import JsonEdit.Json.Dynamic
import JsonEdit.Patch.Basic

/-!
# Dynamic patches

A patch of dynamic values can change typed records as well as trees. It knows a kind of addition for each
kind of number, and the keys of its maps are values of any kind. What a patch adds to a number becomes
an addition of the narrowest kind.

In the other direction an addition has to be finite and a key has to be a string.
-/

namespace JsonEdit

inductive DynamicOperation where
  | set (value : Dynamic)
  | addInt (amount : IntegerKind.i32.Value)
  | addLong (amount : IntegerKind.i64.Value)
  | addDouble (amount : Float)
  | addDecimal (amount : Number)
  | editString (edits : List StringEdit)
  | editSequence (edits : List (SequenceEdit Dynamic DynamicOperation))
  | editMap (edits : List (MapEdit Dynamic Dynamic DynamicOperation))
  /-- a patch whose paths begin at the place -/
  | nested (patch : List (Path × DynamicOperation))

abbrev DynamicPatch := List (Path × DynamicOperation)

/-! ### From trees -/

namespace Operation

def dynamicAddition (amount : Number) : DynamicOperation :=
  match amount.integerOf? .i32 with
  | some amount => .addInt amount
  | none =>
    match amount.integerOf? .i64 with
    | some amount => .addLong amount
    | none => .addDecimal amount

mutual

def toDynamic : Operation → DynamicOperation
  | .set value => .set (.ofJson value)
  | .addNumber amount => dynamicAddition amount
  | .editString edits => .editString edits
  | .editArray edits => .editSequence (arrayEditsToDynamic edits)
  | .editObject edits => .editMap (objectEditsToDynamic edits)
  | .nested patch => .nested (patchToDynamic patch)

def arrayEditsToDynamic :
    List (SequenceEdit Json Operation) → List (SequenceEdit Dynamic DynamicOperation)
  | [] => []
  | .insert position values :: rest =>
    .insert position (values.map .ofJson) :: arrayEditsToDynamic rest
  | .append values :: rest => .append (values.map .ofJson) :: arrayEditsToDynamic rest
  | .delete position length :: rest => .delete position length :: arrayEditsToDynamic rest
  | .modify position operation :: rest =>
    .modify position (toDynamic operation) :: arrayEditsToDynamic rest

def objectEditsToDynamic :
    List (MapEdit String Json Operation) → List (MapEdit Dynamic Dynamic DynamicOperation)
  | [] => []
  | .add key value :: rest => .add (.string key) (.ofJson value) :: objectEditsToDynamic rest
  | .remove key :: rest => .remove (.string key) :: objectEditsToDynamic rest
  | .modify key operation :: rest =>
    .modify (.string key) (toDynamic operation) :: objectEditsToDynamic rest

def patchToDynamic : List (Path × Operation) → List (Path × DynamicOperation)
  | [] => []
  | (path, operation) :: rest => (path, toDynamic operation) :: patchToDynamic rest

end

end Operation

def Patch.toDynamic (patch : Patch) : DynamicPatch := Operation.patchToDynamic patch

/-! ### To trees -/

def Dynamic.keyText (key : Dynamic) : Except Fault String :=
  match key with
  | .string text => .ok text
  | other => .error ⟨.mapKeysMustBeStrings other.typeName, []⟩

namespace DynamicOperation

mutual

def toJson : DynamicOperation → Except Fault Operation
  | .set value => .ok (.set value.toJson)
  | .addInt amount => .ok (.addNumber (.ofInt amount.val))
  | .addLong amount => .ok (.addNumber (.ofInt amount.val))
  | .addDouble amount =>
    match Number.ofFloat? amount with
    | some amount => .ok (.addNumber amount)
    | none => .error ⟨.notFiniteDelta (Number.nonFiniteText amount), []⟩
  | .addDecimal amount => .ok (.addNumber amount)
  | .editString edits => .ok (.editString edits)
  | .editSequence edits => (sequenceEditsToJson edits).map .editArray
  | .editMap edits => (mapEditsToJson edits).map .editObject
  | .nested patch => (patchToJson patch).map .nested

def sequenceEditsToJson :
    List (SequenceEdit Dynamic DynamicOperation) → Except Fault (List (SequenceEdit Json Operation))
  | [] => .ok []
  | .insert position values :: rest =>
    (sequenceEditsToJson rest).map (.insert position (values.map Dynamic.toJson) :: ·)
  | .append values :: rest =>
    (sequenceEditsToJson rest).map (.append (values.map Dynamic.toJson) :: ·)
  | .delete position length :: rest => (sequenceEditsToJson rest).map (.delete position length :: ·)
  | .modify position operation :: rest => do
    let operation ← operation.toJson.mapError (Fault.within (.index position))
    return .modify position operation :: (← sequenceEditsToJson rest)

def mapEditsToJson :
    List (MapEdit Dynamic Dynamic DynamicOperation) →
      Except Fault (List (MapEdit String Json Operation))
  | [] => .ok []
  | .add key value :: rest => do
    let key ← key.keyText
    return .add key value.toJson :: (← mapEditsToJson rest)
  | .remove key :: rest => do
    let key ← key.keyText
    return .remove key :: (← mapEditsToJson rest)
  | .modify key operation :: rest => do
    let key ← key.keyText
    let operation ← operation.toJson.mapError (Fault.within (.field key))
    return .modify key operation :: (← mapEditsToJson rest)

/-- The operations of dynamic forms with their paths. A fault is reported below the path of its
operation. -/
def patchToJson : List (Path × DynamicOperation) → Except Fault (List (Path × Operation))
  | [] => .ok []
  | (path, operation) :: rest => do
    let operation ← operation.toJson.mapError (Fault.below path)
    return (path, operation) :: (← patchToJson rest)

end

end DynamicOperation

def DynamicPatch.toJson (patch : DynamicPatch) : Except Fault Patch :=
  DynamicOperation.patchToJson patch

end JsonEdit
