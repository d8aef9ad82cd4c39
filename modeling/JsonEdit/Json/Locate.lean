import JsonEdit.Json.Places

/-!
# Following a path

A path leads from a tree to all the places that its steps lead to, one after the other. Each of them
is reported with its concrete path, which has single steps only. A change at these places makes new
containers on the way to them and leaves everything beside it as it was.
-/

namespace JsonEdit.Json

/-- The places that a path leads to, with their concrete paths; `trail` is the path of the tree. -/
def locateFrom (trail : Path) : Path → Json → List (Path × Json)
  | [], tree => [(trail, tree)]
  | step :: rest, tree =>
    (tree.places step).flatMap fun place =>
      locateFrom (trail.child place.step) rest place.value

def locate (tree : Json) (path : Path) : List (Path × Json) := locateFrom Path.root path tree

def get (tree : Json) (path : Path) : List Json := (tree.locate path).map (·.2)

/-- The tree after a change at the places that a path leads to. The change is given the concrete path
and the value of each place and answers with a new value, or with none to leave it. Every place is
shown as it was before; of two new values for one place the last one stays. If no place gets a new
value there is no new tree. -/
def updateFrom (change : Path → Json → Except Fault (Option Json)) (trail : Path) :
    Path → Json → Except Fault (Option Json)
  | [], tree => change trail tree
  | step :: rest, tree =>
    (tree.places step).foldlM (fun changed place =>
      let path := trail.child place.step
      match updateFrom change path rest place.value with
      | .error fault => .error fault
      | .ok none => .ok changed
      | .ok (some new) => (fill place.slot path new (changed.getD tree)).map some) none

def update (change : Path → Json → Except Fault (Option Json)) (path : Path) (tree : Json) :
    Except Fault (Option Json) :=
  updateFrom change Path.root path tree

end JsonEdit.Json
