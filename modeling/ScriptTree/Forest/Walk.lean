import ScriptTree.Forest.Edit

/-!
# Walks

A walk visits a tree in pre-order. At each node a callback may change the forest and a state of its own, and says
whether to descend; the children are read after it. The walk keeps a list of nodes still to visit, so its depth does
not depend on the depth of the tree, and it visits no node twice, so the size of the forest bounds its length.

- `Forest.preorder` and `Forest.count`: the nodes of a tree;
- `Survey`: walks that prune by kind and by number, and that may take statements out as they go.
-/

namespace ScriptTree

/-- What a callback leaves: the forest, its own state, and whether to descend. -/
structure Step (σ : Type) where
  forest : Forest
  state : σ
  descend : Bool

namespace Forest

variable {σ : Type}

/-- Visits a list of nodes and what lies below them, with at most `fuel` visits. -/
def walkFrom (visit : NodeId → Forest → σ → Step σ) : Nat → List NodeId → Forest → σ → Forest × σ
  | 0, _, f, s => (f, s)
  | _ + 1, [], f, s => (f, s)
  | fuel + 1, i :: rest, f, s =>
    let step := visit i f s
    let below := if step.descend then step.forest.children i else []
    walkFrom visit fuel (below ++ rest) step.forest step.state

/-- Visits the tree of a root in pre-order. -/
def walk (f : Forest) (root : NodeId) (s : σ) (visit : NodeId → Forest → σ → Step σ) : Forest × σ :=
  walkFrom visit f.size [root] f s

/-- The nodes of a tree in pre-order. -/
def preorder (f : Forest) (root : NodeId) : List NodeId :=
  (f.walk root #[] fun i f seen => ⟨f, seen.push i, true⟩).2.toList

/-- The number of nodes of a tree. -/
def count (f : Forest) (root : NodeId) : Nat := (f.walk root 0 fun _ f n => ⟨f, n + 1, true⟩).2

end Forest

/-- A pruned walk: below which kinds it does not go, after how many nodes it stops to descend, and whether it takes
the first statement out of each block it visits. -/
structure Survey where
  skip : List Kind := []
  limit : Option Nat := none
  dropFirst : Bool := false

namespace Survey

/-- Takes the first statement out of a block that has one. -/
def shorten (f : Forest) (i : NodeId) : Forest :=
  if f.isKind .blockStatement i then
    match f.remove i .body 0 with
    | .ok (_, f) => f
    | .error _ => f
  else f

/-- One visit of a survey. -/
def visit (o : Survey) (i : NodeId) (f : Forest) (seen : Array NodeId) : Step (Array NodeId) :=
  let seen := seen.push i
  let descend := !(f.kind? i).any o.skip.contains && o.limit.all (seen.size < ·)
  ⟨if o.dropFirst then shorten f i else f, seen, descend⟩

/-- The forest after a survey, and the nodes visited in order. -/
def run (o : Survey) (f : Forest) (root : NodeId) : Forest × List NodeId :=
  let (f, seen) := f.walk root #[] o.visit
  (f, seen.toList)

end Survey

end ScriptTree
