import JsonEdit.Fault

/-!
# The places a step leads to

A step that fits a container leads to some of its places, in the order of the document; listed
positions keep the order of the list. A step that does not fit leads nowhere, which is no fault.

Each place is known by a single step, either to a field or to a position, and by the slot of the
container that holds it. The key of an entry is a place too: its value is a string.
-/

namespace JsonEdit

inductive Slot where
  | element (position : Nat)
  | value (position : Nat)
  | name (position : Nat)
  deriving DecidableEq

structure Place where
  slot : Slot
  /-- the single step to the place -/
  step : Step
  value : Json

namespace Json

/-- The entry at a position is the first one with its key. -/
def isFirstEntry (entries : Entries Json) (position : Nat) (key : String) : Bool :=
  entries.findIdx (fun entry => entry.1 = key) == position

def valuePlaces (chosen : Nat → String → Bool) (entries : Entries Json) : List Place :=
  entries.zipIdx.filterMap fun ((key, value), position) =>
    if chosen position key then some ⟨.value position, .field key, value⟩ else none

def elementPlace? (items : List Json) (position : Nat) : Option Place :=
  items[position]?.map fun item => ⟨.element position, .index position, item⟩

def places (step : Step) (container : Json) : List Place :=
  match container, step with
  | .object entries, .field name =>
    valuePlaces (fun position key => key = name && isFirstEntry entries position key) entries
  | .object entries, .key text =>
    valuePlaces (fun position key => key = text && isFirstEntry entries position key) entries
  | .object entries, .keys texts =>
    valuePlaces (fun position key => texts.contains key && isFirstEntry entries position key) entries
  | .object entries, .values => valuePlaces (fun _ _ => true) entries
  | .object entries, .names =>
    entries.zipIdx.map fun ((key, _), position) => ⟨.name position, .field key, .string key⟩
  | .array items, .index position => (elementPlace? items position).toList
  | .array items, .indices positions => positions.filterMap (elementPlace? items)
  | .array items, .elements =>
    items.zipIdx.map fun (item, position) => ⟨.element position, .index position, item⟩
  | _, _ => []

/-- The container with a new value in a slot. Only a string can take the place of a key; `path` is the
path of the place. -/
def fill (slot : Slot) (path : Path) (new container : Json) : Except Fault Json :=
  match container, slot with
  | .array items, .element position => .ok (.array (items.set position new))
  | .object entries, .value position =>
    .ok (.object (entries.modify position fun (key, _) => (key, new)))
  | .object entries, .name position =>
    match new with
    | .string name => .ok (.object (entries.modify position fun (_, value) => (name, value)))
    | other => .error ⟨.namesMustBeStrings other.kind, path⟩
  | _, _ => .ok container

end Json

end JsonEdit
