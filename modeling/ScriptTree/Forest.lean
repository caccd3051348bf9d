import ScriptTree.Node

/-!
# Forests

A `Forest` is the store of all nodes built so far. Nothing is ever deleted: a node that no other node owns is a root.
-/

namespace ScriptTree

/-- All nodes built so far, by identity. -/
structure Forest where
  nodes : Array Node := #[]
  deriving DecidableEq, Repr, Inhabited

namespace Forest

/-- The number of nodes, which is also the identity of the next one. -/
def size (f : Forest) : Nat := f.nodes.size

/-- The node with an identity. -/
def get? (f : Forest) (i : NodeId) : Option Node := f.nodes[i]?

/-- The kind of a node. -/
def kind? (f : Forest) (i : NodeId) : Option Kind := (f.get? i).map Node.kind

/-- Whether a node is of a kind. -/
def isKind (f : Forest) (k : Kind) (i : NodeId) : Bool := f.kind? i == some k

/-- The printed name of the kind of a node. -/
def kindText (f : Forest) (i : NodeId) : String := ((f.kind? i).map Kind.text).getD ""

/-- The children of a node, in order. -/
def children (f : Forest) (i : NodeId) : List NodeId := ((f.get? i).map Node.children).getD []

/-- The parent link of a node. -/
def parent? (f : Forest) (i : NodeId) : Option NodeId := (f.get? i).bind Node.parent

/-- The child of a node in a role. -/
def child? (f : Forest) (i : NodeId) (role : Role) : Option NodeId := (f.get? i).bind (·.child? role)

/-- The entries of a node in a list role. -/
def items (f : Forest) (i : NodeId) (role : Role) : List (Option NodeId) :=
  ((f.get? i).map (·.items role)).getD []

/-- The forest with one node changed. -/
def modify (f : Forest) (i : NodeId) (g : Node → Node) : Forest := ⟨f.nodes.modify i g⟩

/-- The forest with one node more. -/
def push (f : Forest) (n : Node) : Forest := ⟨f.nodes.push n⟩

/-- The forest with the parent link of a node set. -/
def link (f : Forest) (i : NodeId) (owner : Option NodeId) : Forest := f.modify i ({ · with parent := owner })

/-- The forest with the parent links of some nodes set to one owner. -/
def linkAll (f : Forest) (is : List NodeId) (owner : NodeId) : Forest :=
  is.foldl (fun f i => f.link i (some owner)) f

/-- The forest with other content in a role of a node. -/
def setContent (f : Forest) (i : NodeId) (role : Role) (content : Content NodeId) : Forest :=
  f.modify i (·.setContent role content)

/-- The forest with one piece of the data of a node set. -/
def set (f : Forest) (i : NodeId) (s : Form.Setting) : Forest :=
  f.modify i fun n => { n with form := n.form.set s }

/-- The forest with the place of a node set. -/
def relocate (f : Forest) (i : NodeId) (span : Span) : Forest := f.modify i ({ · with span := span })

/-- The forest with a name declared in a scope. -/
def declare (f : Forest) (i : NodeId) (s : String) : Forest :=
  f.modify i fun n => { n with env := n.env.insert s }

/-- Whether a name is declared in a scope. -/
def declares (f : Forest) (i : NodeId) (s : String) : Bool := ((f.get? i).map (·.env.contains s)).getD false

/-- Declares a name in a scope, and says whether it is new there. -/
def introduce (f : Forest) (i : NodeId) (s : String) : Bool × Forest := (!f.declares i s, f.declare i s)

/-! ## What changes do to the nodes -/

@[simp] theorem size_modify (f : Forest) (i : NodeId) (g : Node → Node) : (f.modify i g).size = f.size := by
  simp [modify, size]

@[simp] theorem size_push (f : Forest) (n : Node) : (f.push n).size = f.size + 1 := by
  simp [push, size]

theorem get?_modify (f : Forest) (i j : NodeId) (g : Node → Node) :
    (f.modify i g).get? j = if i = j then (f.get? j).map g else f.get? j := by
  simp [modify, get?, Array.getElem?_modify]

theorem get?_link (f : Forest) (i j : NodeId) (owner : Option NodeId) :
    (f.link i owner).get? j = if i = j then (f.get? j).map ({ · with parent := owner }) else f.get? j :=
  get?_modify f i j _

theorem get?_setContent (f : Forest) (i j : NodeId) (role : Role) (content : Content NodeId) :
    (f.setContent i role content).get? j = if i = j then (f.get? j).map (·.setContent role content) else f.get? j :=
  get?_modify f i j _

/-- A link is no part of what a node owns. -/
@[simp] theorem children_link (f : Forest) (i j : NodeId) (owner : Option NodeId) :
    (f.link i owner).children j = f.children j := by
  unfold children
  rw [get?_link]
  split
  · cases f.get? j <;> rfl
  · rfl

theorem parent?_link (f : Forest) (i j : NodeId) (owner : Option NodeId) :
    (f.link i owner).parent? j = if i = j then (f.get? j).bind (fun _ => owner) else f.parent? j := by
  unfold parent?
  rw [get?_link]
  split
  · cases f.get? j <;> rfl
  · rfl

/-- Content is no link. -/
@[simp] theorem parent?_setContent (f : Forest) (i j : NodeId) (role : Role) (content : Content NodeId) :
    (f.setContent i role content).parent? j = f.parent? j := by
  unfold parent?
  rw [get?_setContent]
  split
  · cases f.get? j <;> rfl
  · rfl

theorem get?_push (f : Forest) (n : Node) (j : NodeId) :
    (f.push n).get? j = if j = f.size then some n else f.get? j :=
  Array.getElem?_push

end Forest

end ScriptTree
