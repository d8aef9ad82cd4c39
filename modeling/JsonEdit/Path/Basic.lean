/-!
# Paths

A path leads from the root of a tree to the places an operation works on. It is a list of steps, and
the empty path is the root itself. A step either names one child or fans out to several.
-/

namespace JsonEdit

inductive Step where
  /-- the value of an object entry -/
  | field (name : String)
  /-- an array element -/
  | index (position : Nat)
  /-- several array elements, in the listed order -/
  | indices (positions : List Nat)
  /-- every array element -/
  | elements
  /-- the value of every object entry -/
  | values
  /-- the key of every object entry, seen as a string value -/
  | names
  /-- the value of an object entry, by the text of a typed key -/
  | key (text : String)
  /-- the values of several object entries, by the texts of typed keys -/
  | keys (texts : List String)
  deriving DecidableEq, Ord, Inhabited

namespace Step

/-- The step can lead to more than one place. -/
def isWildcard : Step → Bool
  | .field _ | .index _ | .key _ => false
  | .indices _ | .elements | .values | .names | .keys _ => true

/-- The key of the single entry that the step leads to. -/
def entryKey? : Step → Option String
  | .field name => some name
  | .key text => some text
  | _ => none

def position? : Step → Option Nat
  | .index position => some position
  | _ => none

end Step

abbrev Path := List Step

namespace Path

def root : Path := []

def isRoot (path : Path) : Bool := path.isEmpty

def hasWildcards (path : Path) : Bool := path.any Step.isWildcard

/-- The last step and the path before it; the root has none. -/
def splitLast? (path : Path) : Option (Path × Step) :=
  match path.getLast? with
  | none => none
  | some last => some (path.dropLast, last)

def parent? (path : Path) : Option Path := path.splitLast?.map (·.1)

def child (path : Path) (step : Step) : Path := path ++ [step]

/-- The path leads to `ancestor` or to a place inside it. -/
def startsWith (path ancestor : Path) : Bool := ancestor.isPrefixOf path

/-- The other path leads to a place strictly inside this one. -/
def isParentOf (path other : Path) : Bool :=
  path.length < other.length && other.startsWith path

end Path

end JsonEdit
