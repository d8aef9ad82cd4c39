import JsonEdit.Json.Basic
import JsonEdit.Number.Scientific

/-!
# Equality and order of trees

Two trees are equal if they hold the same data: the order of the entries of an object does not matter,
of a repeated key only the first occurrence counts, and numbers are compared by value.

The order of trees agrees with that. Kinds decide first. Arrays are compared element by element, objects
by their keys and then by their values, where the first occurrences of the keys are in ascending order;
a list that is the beginning of another comes before it. The fingerprint of a tree is taken of the same
data in the same order.

Equality, order and fingerprint each go through the tree on their own. The canonical form of a tree is
its data as one value.
-/

namespace JsonEdit

/-- The order of two lists, where the items of the first are known by how they compare. -/
def compareEach {α : Type} : List (α → Ordering) → List α → Ordering
  | [], [] => .eq
  | [], _ :: _ => .lt
  | _ :: _, [] => .gt
  | comparison :: comparisons, item :: items =>
    (comparison item).then (compareEach comparisons items)

/-- There are as many items as tests, and each passes its test. -/
def passEach {α : Type} : List (α → Bool) → List α → Bool
  | [], [] => true
  | test :: tests, item :: items => test item && passEach tests items
  | _, _ => false

namespace Json

/-! ### Order -/

mutual

protected def compare : Json → Json → Ordering
  | .bool left, .bool right => Ord.compare left right
  | .number left, .number right => Ord.compare left right
  | .string left, .string right => Ord.compare left right
  | .array lefts, .array rights => compareEach (itemComparisons lefts) rights
  | .object lefts, .object rights =>
    let counted := Entries.counted (entryComparisons lefts)
    let others := Entries.counted rights
    (Ord.compare (counted.map (·.1)) (others.map (·.1))).then
      (compareEach (counted.map (·.2)) (others.map (·.2)))
  | left, right => Ord.compare left.kind right.kind

def itemComparisons : List Json → List (Json → Ordering)
  | [] => []
  | item :: rest => Json.compare item :: itemComparisons rest

def entryComparisons : List (String × Json) → List (String × (Json → Ordering))
  | [] => []
  | (key, value) :: rest => (key, Json.compare value) :: entryComparisons rest

end

instance : Ord Json := ⟨Json.compare⟩

/-! ### Equality -/

mutual

def same : Json → Json → Bool
  | .null, .null => true
  | .bool left, .bool right => left == right
  | .number left, .number right => left == right
  | .string left, .string right => left == right
  | .array lefts, .array rights => passEach (itemTests lefts) rights
  | .object lefts, .object rights =>
    let counted := Entries.counted (entryTests lefts)
    passEach (counted.map fun (key, test) (other, right) => key == other && test right)
      (Entries.counted rights)
  | _, _ => false

def itemTests : List Json → List (Json → Bool)
  | [] => []
  | item :: rest => same item :: itemTests rest

def entryTests : List (String × Json) → List (String × (Json → Bool))
  | [] => []
  | (key, value) :: rest => (key, same value) :: entryTests rest

end

instance : BEq Json := ⟨same⟩

/-! ### Fingerprint -/

mutual

def fingerprint : Json → Fingerprint
  | .null => [.kind Kind.null.ctorIdx]
  | .bool value => [.kind Kind.boolean.ctorIdx, .truth value]
  | .number value => .kind Kind.number.ctorIdx :: value.fingerprint
  | .string value => [.kind Kind.string.ctorIdx, .text value]
  | .array items =>
    .kind Kind.array.ctorIdx :: .length items.length :: (itemFingerprints items).flatten
  | .object entries =>
    let counted := Entries.counted (entryFingerprints entries)
    .kind Kind.object.ctorIdx :: .length counted.length ::
      counted.flatMap fun (key, value) => .text key :: value

def itemFingerprints : List Json → List Fingerprint
  | [] => []
  | item :: rest => item.fingerprint :: itemFingerprints rest

def entryFingerprints : List (String × Json) → List (String × Fingerprint)
  | [] => []
  | (key, value) :: rest => (key, value.fingerprint) :: entryFingerprints rest

end

end Json

/-! ### Canonical forms -/

/-- The data of a tree. The keys of an object are ascending and have their values in the same order. -/
inductive Canonical where
  | null
  | bool (value : Bool)
  | number (value : Scientific)
  | string (value : String)
  | array (items : List Canonical)
  | object (keys : List String) (values : List Canonical)

namespace Canonical

def kind : Canonical → Json.Kind
  | .null => .null
  | .bool _ => .boolean
  | .number _ => .number
  | .string _ => .string
  | .array _ => .array
  | .object _ _ => .object

mutual

def compare : Canonical → Canonical → Ordering
  | .bool left, .bool right => Ord.compare left right
  | .number left, .number right => Ord.compare left right
  | .string left, .string right => Ord.compare left right
  | .array left, .array right => compareAll left right
  | .object leftKeys left, .object rightKeys right =>
    (Ord.compare leftKeys rightKeys).then (compareAll left right)
  | left, right => Ord.compare left.kind right.kind

def compareAll : List Canonical → List Canonical → Ordering
  | [], [] => .eq
  | [], _ :: _ => .lt
  | _ :: _, [] => .gt
  | left :: lefts, right :: rights => (compare left right).then (compareAll lefts rights)

end

instance : Ord Canonical := ⟨compare⟩

instance : BEq Canonical := ⟨fun left right => compare left right == .eq⟩

def ofEntries (entries : Entries Canonical) : Canonical :=
  .object (entries.counted.map (·.1)) (entries.counted.map (·.2))

end Canonical

namespace Json

mutual

def canonical : Json → Canonical
  | .null => .null
  | .bool value => .bool value
  | .number value => .number value.scientific
  | .string value => .string value
  | .array items => .array (canonicalItems items)
  | .object entries => Canonical.ofEntries (canonicalEntries entries)

def canonicalItems : List Json → List Canonical
  | [] => []
  | item :: rest => item.canonical :: canonicalItems rest

def canonicalEntries : List (String × Json) → List (String × Canonical)
  | [] => []
  | (key, value) :: rest => (key, value.canonical) :: canonicalEntries rest

end

end Json

end JsonEdit
