import JsonEdit.Json.Basic
import JsonEdit.Json.Problem
import JsonEdit.Path.Parser

/-!
# Faults

An operation that cannot be done says why, and at which place of the tree. The place is found on the
way out: what fails inside a child is reported at the root of the child, and its container puts the
step to the child in front.
-/

namespace JsonEdit

namespace Json.Kind

def withArticle : Kind → String
  | .array => "an array"
  | .object => "an object"
  | kind => "a " ++ kind.name

end Json.Kind

inductive Reason where
  /-- words from the caller -/
  | words (text : String)
  /-- two reasons at once -/
  | both (first second : Reason)
  | unreadable (error : ReadError)
  | invalidPath (error : Path.ParseError)
  | invalidNumber (text : String)
  | notFiniteNumber (text : String)
  | notFiniteDelta (text : String)
  | unresolved
  | unresolvedParent
  | ambiguous
  | insertAtRoot
  | deleteRoot
  | keyExists
  | keyMissing
  | positionPastEnd (position length : Nat)
  | insertAtWildcard (step : Step)
  | insertInto (step : Step) (found : Json.Kind)
  | namesMustBeStrings (found : Json.Kind)
  | mapKeysMustBeStrings (found : String)
  | outsideDomain
  | notExactlyOne (count : Nat)
  | noneFound
  /-- a value of another kind was to be decoded -/
  | expectedKind (expected found : Json.Kind)
  /-- a value of another kind stands in the way of a path -/
  | expectedContainer (expected found : Json.Kind)
  | beyondDecimal (number : Number)
  | doesNotFit (number : Number) (type : String)
  | operationRequires (operation : String) (required found : Json.Kind)
  | inexactSum (number amount : Number)
  | insertOutOfRange (position : Nat) (sequence : Json.Kind) (length : Nat)
  | rangeOutOfRange (position count : Nat) (sequence : Json.Kind) (length : Nat)
  | elementOutOfRange (position length : Nat)
  | gapInArray (position length : Nat)
  | wildcardInPairs (step : Step)
  | patchNotArray (found : Json.Kind)
  | operationNotObject (found : Json.Kind)
  | editsNotArray (found : Json.Kind)
  | missingField (name : String)
  | unknownName (what name : String)
  | unknownMode (name : String)
  deriving DecidableEq

def Reason.message : Reason → String
  | .words text => text
  | .both first second => s!"{first.message}; {second.message}"
  | .unreadable error => error.message
  | .invalidPath error => s!"invalid path: {error.message}"
  | .invalidNumber text => s!"invalid number literal {Text.quoted text}"
  | .notFiniteNumber text => s!"{text} is not representable as a JSON number"
  | .notFiniteDelta text => s!"double delta {text} is not finite"
  | .unresolved => "path does not resolve to a value"
  | .unresolvedParent => "parent path does not resolve to a value"
  | .ambiguous => "path resolves to more than one location"
  | .insertAtRoot => "cannot insert at the root"
  | .deleteRoot => "cannot delete the root"
  | .keyExists => "key already exists"
  | .keyMissing => "key does not exist"
  | .positionPastEnd position length =>
    s!"index {position} out of bounds for array of length {length}"
  | .insertAtWildcard step => s!"cannot insert at wildcard {step.text}"
  | .insertInto step found => s!"cannot insert {step.text} into {found.name}"
  | .namesMustBeStrings found => s!"object keys must be strings, found {found.name}"
  | .mapKeysMustBeStrings found => s!"map keys must be strings, found {found}"
  | .outsideDomain => "value is outside the function's domain"
  | .notExactlyOne count => s!"expected exactly one value, found {count}"
  | .noneFound => "expected at least one value, found none"
  | .expectedKind expected found => s!"expected {expected.name}, found {found.name}"
  | .expectedContainer expected found =>
    s!"expected {expected.withArticle}, found {found.name}"
  | .beyondDecimal number => s!"{number.text} exceeds decimal precision"
  | .doesNotFit number type => s!"{number.text} does not fit {type}"
  | .operationRequires operation required found =>
    s!"{operation} requires {required.withArticle}, found {found.name}"
  | .inexactSum number amount => s!"cannot add {amount.text} to {number.text} exactly"
  | .insertOutOfRange position sequence length =>
    s!"insert position {position} is out of range for {sequence.name} of length {length}"
  | .rangeOutOfRange position count sequence length =>
    s!"range {position}+{count} is out of range for {sequence.name} of length {length}"
  | .elementOutOfRange position length =>
    s!"index {position} is out of range for array of length {length}"
  | .gapInArray position length =>
    s!"index {position} skips past the end of an array of length {length}"
  | .wildcardInPairs step => s!"cannot rebuild a tree from wildcard step {step.text}"
  | .patchNotArray found => s!"patch must be an array, found {found.name}"
  | .operationNotObject found => s!"expected an operation object, found {found.name}"
  | .editsNotArray found => s!"edits must be an array, found {found.name}"
  | .missingField name => s!"missing field `{name}`"
  | .unknownName what name => s!"unknown {what}: {name}"
  | .unknownMode name => s!"unknown patch mode: {name}"

/-- A reason and the place that it concerns, seen from the root of the value at hand. -/
structure Fault where
  reason : Reason
  path : Path := []
  deriving DecidableEq

namespace Fault

def message (fault : Fault) : String := fault.reason.message

def text (fault : Fault) : String := s!"{fault.message} at {fault.path.text}"

/-- The fault as it is seen from a container that the step leads out of. -/
def within (step : Step) (fault : Fault) : Fault := { fault with path := step :: fault.path }

def below (path : Path) (fault : Fault) : Fault := { fault with path := path ++ fault.path }

/-- Both reasons, at the place of the first. -/
def and (first second : Fault) : Fault := ⟨.both first.reason second.reason, first.path⟩

end Fault

end JsonEdit
