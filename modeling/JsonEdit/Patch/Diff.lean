import JsonEdit.Patch.Basic
import JsonEdit.Sequence.Frontier

/-!
# The difference of two trees

Two trees that are equal have no difference. Otherwise the difference is one operation that turns the
first into a tree that equals the second. Objects are compared key by key: keys that are gone are
removed first, then the values of common keys are changed, then new keys are added. Arrays and strings
are compared by runs. A number is added to if that gives the second number exactly as it is written.
Everything else is set.

Where elements are deleted and inserted at the same place they are paired, and the paired ones are
changed one by one.
-/

namespace JsonEdit

structure DiffOptions where
  /-- a changed string is edited by characters, and not replaced as a whole -/
  stringEdits : Bool := true
  /-- a changed array is edited by elements, and not set -/
  arrayEdits : Bool := true

namespace StringEdit

/-- The edits that the blocks of a comparison stand for. `target` is what is left of the second
string, `position` the place in the edited string, `length` the length that it has by then. -/
def ofBlocks (target : List Char) (position length : Nat) : List Block → List StringEdit
  | [] => []
  | .keep count :: rest => ofBlocks (target.drop count) (position + count) length rest
  | .change deleted inserted :: rest =>
    let text := String.ofList (target.take inserted)
    let edit : StringEdit :=
      if deleted = 0 then
        if position = length then .append text else .insert position text
      else if inserted = 0 then .delete position deleted
      else .modify position deleted text
    edit :: ofBlocks (target.drop inserted) (position + inserted) (length - deleted + inserted) rest

end StringEdit

namespace Operation

def betweenStrings (options : DiffOptions) (source target : String) : Operation :=
  if options.stringEdits then
    let runs := Run.between source.toList target.toList
    .editString (StringEdit.ofBlocks target.toList 0 source.length (Block.ofRuns runs))
  else .editString [.modify 0 source.length target]

/-- The addition that makes one number of another exactly as it is written. -/
def betweenNumbers? (source target : Number) : Option Operation := do
  let amount ← target.sub? source
  let sum ← source.add? amount
  if sum = target then some (.addNumber amount) else none

/-- What becomes of one tree to make another of it; none if they are equal. -/
abbrev Change := Json → Option Operation

def pairedEdits (position : Nat) :
    List Change → List Json → List (SequenceEdit Json Operation)
  | change :: changes, target :: targets =>
    let edits := pairedEdits (position + 1) changes targets
    match change target with
    | some operation => .modify position operation :: edits
    | none => edits
  | _, _ => []

/-- The edits of an array that one change of a comparison stands for. `changes` are those of the deleted
elements, `inserted` the elements in their place; `position` is the place in the edited array, and
`length` the length it has by then. -/
def arrayEditsOfChange (changes : List Change) (inserted : List Json) (position length : Nat) :
    List (SequenceEdit Json Operation) :=
  let paired := min changes.length inserted.length
  let after := position + paired
  let surplus := changes.length - paired
  let removed : List (SequenceEdit Json Operation) :=
    if surplus = 0 then [] else [.delete after surplus]
  let added : List (SequenceEdit Json Operation) :=
    if inserted.length = paired then []
    else if after = length - surplus then [.append (inserted.drop paired)]
    else [.insert after (inserted.drop paired)]
  pairedEdits position changes inserted ++ removed ++ added

/-- The edits of an array that the blocks of a comparison stand for. `changes` are those of the elements
that are left of the first array, `target` is what is left of the second. -/
def arrayEditsOfBlocks (changes : List Change) (target : List Json) (position length : Nat) :
    List Block → List (SequenceEdit Json Operation)
  | [] => []
  | .keep count :: rest =>
    arrayEditsOfBlocks (changes.drop count) (target.drop count) (position + count) length rest
  | .change deleted inserted :: rest =>
    arrayEditsOfChange (changes.take deleted) (target.take inserted) position length ++
      arrayEditsOfBlocks (changes.drop deleted) (target.drop inserted) (position + inserted)
        (length - deleted + inserted) rest

def betweenArrays (changes : List Change) (source target : List Json) : Operation :=
  let runs := Run.between (source.map Json.canonical) (target.map Json.canonical)
  .editArray (arrayEditsOfBlocks changes target 0 source.length (Block.ofRuns runs))

def betweenObjects (changes : Entries Change) (target : Entries Json) : Operation :=
  let old := changes.firsts
  let removals := (old.filter fun (key, _) => !target.has key).map fun (key, _) => .remove key
  let modifications := old.filterMap fun (key, change) => do
    let operation ← change (← target.find? key)
    return .modify key operation
  let additions := (target.firsts.filter fun (key, _) => !old.has key).map fun (key, value) =>
    .add key value
  .editObject (removals ++ modifications ++ additions)

mutual

/-- The operation that makes one tree of another; none if they are equal. -/
def between? (options : DiffOptions) (source : Json) : Change := fun target =>
  if source == target then none
  else
    some <|
      match source, target with
      | .object entries, .object others => betweenObjects (entryChanges options entries) others
      | .array items, .array others =>
        if options.arrayEdits then betweenArrays (changes options items) items others
        else .set target
      | .number number, .number other => (betweenNumbers? number other).getD (.set target)
      | .string text, .string other => betweenStrings options text other
      | _, _ => .set target

def changes (options : DiffOptions) : List Json → List Change
  | [] => []
  | item :: rest => between? options item :: changes options rest

def entryChanges (options : DiffOptions) : List (String × Json) → List (String × Change)
  | [] => []
  | (key, value) :: rest => (key, between? options value) :: entryChanges options rest

end

end Operation

def Patch.between (source target : Json) (options : DiffOptions := {}) : Patch :=
  match Operation.between? options source target with
  | some operation => [(Path.root, operation)]
  | none => []

end JsonEdit
