import ScriptTree.Forest.Walk
import ScriptTree.Misuse
import ScriptTree.Reporter

/-!
# Parent links against ownership

A child whose link is not the node that owns it is a *stray*. `Forest.strays` lists the strays of a tree, in pre-order
of their owners; `Forest.audit` reports each of them, and `Forest.repair` sets every link below a root to the owner.
Neither looks at the link of the root itself.
-/

namespace ScriptTree.Forest

/-- The children of a node that are linked elsewhere, each with the owner. -/
def straysOf (f : Forest) (owner : NodeId) : List (NodeId × NodeId) :=
  ((f.children owner).filter fun child => f.parent? child != some owner).map (owner, ·)

/-- The strays of a tree. -/
def strays (f : Forest) (root : NodeId) : List (NodeId × NodeId) := (f.preorder root).flatMap f.straysOf

/-- The sentence about a stray. -/
def strayMessage (f : Forest) (owner child : NodeId) : String :=
  strayText (f.kindText child) (f.kindText owner) (((f.parent? child).map f.kindText).getD "null")

/-- Reports the strays of a tree as errors, and says whether there are none. -/
def audit (f : Forest) (root : NodeId) (r : Reporter) : Bool × Reporter :=
  let strays := f.strays root
  (strays.isEmpty,
    strays.foldl (fun r (owner, child) => r.reportAt f child .error (f.strayMessage owner child)) r)

/-- Links every node below a root to its owner. -/
def repair (f : Forest) (root : NodeId) : Forest :=
  (f.walk root () fun i f _ => ⟨f.linkAll (f.children i) i, (), true⟩).1

end ScriptTree.Forest
