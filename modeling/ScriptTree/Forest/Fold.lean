import ScriptTree.Forest

/-!
# Folds

`Forest.fold` computes a result for a node from the results for its children, which stand in the fields of the node.
Ownership has no cycle, so the size of the forest bounds the depth of a tree. `tally`, `trace` and `depth` are folds;
`rollCall` looks at one node and its children only.
-/

namespace ScriptTree.Forest

variable {β : Type}

/-- The fold of a node, down to a depth of `fuel`. -/
def foldUpTo (f : Forest) (alg : NodeId → Node → List (Field β) → β) : Nat → NodeId → Option β
  | 0, _ => none
  | fuel + 1, i => (f.get? i).map fun n => alg i n (n.fields.map (Field.bind (f.foldUpTo alg fuel)))

/-- The result for a node from the results for its children. -/
def fold (f : Forest) (alg : NodeId → Node → List (Field β) → β) (i : NodeId) : Option β :=
  f.foldUpTo alg f.size i

/-- One for the node, and what its children count. -/
def tally (f : Forest) (i : NodeId) : Nat :=
  (f.fold (fun _ _ fields => (fields.flatMap Field.children).foldr (· + ·) 1) i).getD 0

/-- The kinds of a tree in pre-order. -/
def trace (f : Forest) (i : NodeId) : List Kind :=
  (f.fold (fun _ n fields => n.kind :: (fields.flatMap Field.children).flatten) i).getD []

/-- The depth of the deepest node when the start is at a given depth. -/
def depth (f : Forest) (i : NodeId) (start : Int) : Int :=
  (f.fold (fun _ _ fields d => (fields.flatMap Field.children).foldl (fun m below => max m (below (d + 1))) d) i).elim
    start (· start)

/-- A mark put on each child of a node and then on the node. -/
def rollCall (f : Forest) (mark : String) (i : NodeId) : List String :=
  (f.children i ++ [i]).map fun j => mark ++ ":" ++ f.kindText j

end ScriptTree.Forest
