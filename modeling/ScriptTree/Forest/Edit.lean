import ScriptTree.Forest

/-!
# Edits

Four edits change which nodes a node owns and keep the parent links in step: a child that is put in is linked to its
new owner, a child that is taken out loses its link. Positions in a list are checked. `pushRaw` extends a list without
touching a link.
-/

namespace ScriptTree

/-- A change of the children of one node. -/
inductive Edit where
  /-- Puts a child, or nothing, in place of what stands in a role. -/
  | replace (owner : NodeId) (role : Role) (child : Option NodeId)
  /-- Puts a child, or a hole, at the end of a list. -/
  | append (owner : NodeId) (role : Role) (child : Option NodeId)
  /-- Puts a child, or a hole, before the entry at a position of a list. -/
  | insert (owner : NodeId) (role : Role) (index : Nat) (child : Option NodeId)
  /-- Takes the entry at a position out of a list. -/
  | remove (owner : NodeId) (role : Role) (index : Nat)
  deriving DecidableEq, Repr

namespace Forest

/-- Links a child, if there is one. -/
def linkChild (f : Forest) (child owner : Option NodeId) : Forest :=
  match child with
  | some c => f.link c owner
  | none => f

/-- Replaces what stands in a role, and returns what stood there. -/
def replace (f : Forest) (owner : NodeId) (role : Role) (child : Option NodeId) : Option NodeId × Forest :=
  let old := f.child? owner role
  (old, ((f.linkChild child owner).setContent owner role (.one child)).linkChild old none)

/-- Appends to a list. -/
def append (f : Forest) (owner : NodeId) (role : Role) (child : Option NodeId) : Forest :=
  (f.linkChild child owner).setContent owner role (.many (f.items owner role ++ [child]))

/-- Inserts into a list, at most just past its end. -/
def insert (f : Forest) (owner : NodeId) (role : Role) (index : Nat) (child : Option NodeId) :
    Except Misuse Forest :=
  let items := f.items owner role
  if items.length < index then .error (.insertPastEnd index items.length (f.kind? owner))
  else .ok ((f.linkChild child owner).setContent owner role (.many (items.insertIdx index child)))

/-- Removes from a list, and returns the entry. -/
def remove (f : Forest) (owner : NodeId) (role : Role) (index : Nat) : Except Misuse (Option NodeId × Forest) :=
  let items := f.items owner role
  match items[index]? with
  | none => .error (.removeOutOfRange index items.length)
  | some old => .ok (old, (f.setContent owner role (.many (items.eraseIdx index))).linkChild old none)

/-- Performs an edit, and returns the child that it takes out. -/
def edit (f : Forest) : Edit → Except Misuse (Option NodeId × Forest)
  | .replace owner role child => .ok (f.replace owner role child)
  | .append owner role child => .ok (none, f.append owner role child)
  | .insert owner role index child => (f.insert owner role index child).map (none, ·)
  | .remove owner role index => f.remove owner role index

/-- Appends to a list and leaves the parent links as they are. -/
def pushRaw (f : Forest) (owner : NodeId) (role : Role) (child : Option NodeId) : Forest :=
  f.setContent owner role (.many (f.items owner role ++ [child]))

end Forest

end ScriptTree
