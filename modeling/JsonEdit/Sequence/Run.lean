/-!
# Runs

Two sequences are compared by runs: stretches that both have, stretches of the first that are deleted
and stretches of the second that are inserted. Replayed from left to right, the runs use up the first
sequence and produce the second.

Runs are in normal form if none is empty and no two neighbours are of one kind.
-/

namespace JsonEdit

inductive Run where
  /-- items that both sequences have -/
  | keep (count : Nat)
  /-- items of the first sequence only -/
  | delete (count : Nat)
  /-- items of the second sequence only -/
  | insert (count : Nat)
  deriving DecidableEq

namespace Run

def size : Run → Nat
  | .keep count | .delete count | .insert count => count

/-- Puts a run in front. It joins a first run of its kind, and is left out if it is empty. -/
def cons (run : Run) (runs : List Run) : List Run :=
  if run.size = 0 then runs
  else
    match run, runs with
    | .keep count, .keep more :: rest => .keep (count + more) :: rest
    | .delete count, .delete more :: rest => .delete (count + more) :: rest
    | .insert count, .insert more :: rest => .insert (count + more) :: rest
    | _, _ => run :: runs

def normalize (runs : List Run) : List Run := runs.foldr cons []

/-- The runs with the deletions of each change in front of its insertions; `deleted` and `inserted`
are the counts of the change so far. -/
def gather (deleted inserted : Nat) : List Run → List Run
  | [] => [.delete deleted, .insert inserted]
  | .keep count :: rest => .delete deleted :: .insert inserted :: .keep count :: gather 0 0 rest
  | .delete count :: rest => gather (deleted + count) inserted rest
  | .insert count :: rest => gather deleted (inserted + count) rest

def replaceAll (deleted inserted : Nat) : List Run := [.delete deleted, .insert inserted]

/-- The second sequence, made from the first one and the items to insert; none if a run reaches past
the end of either, or if something is left. -/
def replay? {α : Type} : List Run → (source inserted : List α) → Option (List α)
  | [], [], [] => some []
  | [], _, _ => none
  | .keep count :: rest, source, inserted =>
    if source.length < count then none
    else (replay? rest (source.drop count) inserted).map (source.take count ++ ·)
  | .delete count :: rest, source, inserted =>
    if source.length < count then none else replay? rest (source.drop count) inserted
  | .insert count :: rest, source, inserted =>
    if inserted.length < count then none
    else (replay? rest source (inserted.drop count)).map (inserted.take count ++ ·)

end Run

inductive Block where
  | keep (count : Nat)
  | change (deleted inserted : Nat)
  deriving DecidableEq

/-- Runs as blocks: a deletion with the insertion that follows it is one change. -/
def Block.ofRuns : List Run → List Block
  | [] => []
  | .keep count :: rest => .keep count :: ofRuns rest
  | .delete deleted :: .insert inserted :: rest => .change deleted inserted :: ofRuns rest
  | .delete deleted :: rest => .change deleted 0 :: ofRuns rest
  | .insert inserted :: rest => .change 0 inserted :: ofRuns rest

end JsonEdit
