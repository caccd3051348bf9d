import ScriptTree.Forest

/-!
# Building trees

`Forest.construct` adds one node over existing roots: it refuses a node that breaks the structural grammar
(`Forest.fault?`) and otherwise links the children to the new node. A `Blueprint` is a whole tree to be built, in
which a part may also be an existing root; `Forest.build` builds it bottom-up, the parts of a node in order and then
the node, so that the first fault is met in post-order.
-/

namespace ScriptTree

namespace Forest

/-- The first required role, in order, that has no child. -/
def missingRole? (n : Node) : Option Role :=
  (n.kind.layout.find? fun slot => slot.arity == .required && (n.child? slot.role).isNone).map Slot.role

/-- The kind of the child of a node that is still to be added. -/
def childKind? (f : Forest) (n : Node) (role : Role) : Option Kind := (n.child? role).bind f.kind?

/-- A loop head, if present, is a variable declaration or an expression. -/
def headFault? (f : Forest) (n : Node) (role : Role) : Option Misuse :=
  match f.childKind? n role with
  | some k => if k.isLoopHead then none else some (.badHead n.kind role k)
  | none => none

/-- A property key is a name or a literal. -/
def keyFault? (f : Forest) (n : Node) : Option Misuse :=
  match f.childKind? n .key with
  | some .name | some .literalExpression | none => none
  | some k => some (.badKey k)

/-- The value of an accessor is a function, any other an expression. -/
def valueFault? (f : Forest) (n : Node) (access : Access) : Option Misuse :=
  match f.childKind? n .value with
  | some k =>
    if access.usesFunction then if k = .function then none else some (.badAccessor k)
    else if k.isExpression then none else some (.notExpression k)
  | none => none

/-- The rules of single kinds, for a node whose required children are present. -/
def specialFault? (f : Forest) (n : Node) : Option Misuse :=
  match n.form with
  | .tryStatement =>
    if (n.child? .handler).isNone && (n.child? .finalizer).isNone then some .missingHandler else none
  | .forStatement => f.headFault? n .init
  | .forInStatement => f.headFault? n .left
  | .property access => (f.keyFault? n).or (f.valueFault? n access)
  | _ => none

/-- The first thing that is wrong with a node that is to be added. Required children come first. -/
def fault? (f : Forest) (n : Node) : Option Misuse :=
  match missingRole? n with
  | some role => some (.missing n.kind role)
  | none => f.specialFault? n

/-- Adds a node and links its children to it. -/
def construct (f : Forest) (n : Node) : Except Misuse (NodeId × Forest) :=
  match f.fault? n with
  | some misuse => .error misuse
  | none => .ok (f.size, (f.linkAll n.children f.size).push { n with parent := none })

end Forest

/-- The fields of a kind, filled with the children that were placed in its roles. -/
def Kind.arrange (k : Kind) (placed : List (Role × Option NodeId)) : List (Field NodeId) :=
  k.layout.map fun slot =>
    let items := (placed.filter (·.1 == slot.role)).map (·.2)
    match slot.arity with
    | .required | .optional => ⟨slot.role, .one items.head?.join⟩
    | .list | .sparse => ⟨slot.role, .many items⟩

mutual

/-- A tree that is still to be built. -/
inductive Blueprint where
  /-- An existing root. -/
  | existing (root : NodeId)
  /-- A new node, with the names declared in it. -/
  | fresh (form : Form) (span : Span) (names : List String) (parts : Parts)

/-- The parts of a new node, in order. -/
inductive Parts where
  | nil
  /-- A role without a child, or a hole in a list. -/
  | absent (role : Role) (rest : Parts)
  | child (role : Role) (part : Blueprint) (rest : Parts)

end

/-- Parts from a list of roles and children. -/
def Parts.ofList : List (Role × Option Blueprint) → Parts
  | [] => .nil
  | (role, none) :: rest => .absent role (ofList rest)
  | (role, some part) :: rest => .child role part (ofList rest)

mutual

/-- Builds a tree bottom-up. -/
def Forest.build : Forest → Blueprint → Except Misuse (NodeId × Forest)
  | f, .existing root => .ok (root, f)
  | f, .fresh form span names parts => do
    let (placed, f) ← f.buildParts parts
    f.construct { form, fields := form.kind.arrange placed, span, env := .ofList names }

/-- Builds parts in order and says where they are placed. -/
def Forest.buildParts : Forest → Parts → Except Misuse (List (Role × Option NodeId) × Forest)
  | f, .nil => .ok ([], f)
  | f, .absent role rest => do
    let (placed, f) ← f.buildParts rest
    .ok ((role, none) :: placed, f)
  | f, .child role part rest => do
    let (i, f) ← f.build part
    let (placed, f) ← f.buildParts rest
    .ok ((role, some i) :: placed, f)

end

/-! ## Nesting -/

/-- What a root can be wrapped in, again and again. -/
inductive Wrapper where
  | negation | array | block | labeled
  deriving DecidableEq, Repr

/-- A root wrapped once. -/
def Wrapper.around (w : Wrapper) (root : NodeId) : Blueprint :=
  let wrap (form : Form) (parts : List (Role × Option Blueprint)) := Blueprint.fresh form {} [] (.ofList parts)
  match w with
  | .negation => wrap (.unaryExpression "!") [(.argument, some (.existing root))]
  | .array => wrap .arrayExpression [(.expressions, some (.existing root))]
  | .block => wrap .blockStatement [(.body, some (.existing root))]
  | .labeled =>
    wrap .labeledStatement [(.label, some (wrap (.name "L" none) [])), (.body, some (.existing root))]

/-- Wraps a root a number of times. -/
def Forest.nest (f : Forest) (w : Wrapper) (root : NodeId) : Nat → Except Misuse (NodeId × Forest)
  | 0 => .ok (root, f)
  | times + 1 => do
    let (outer, f) ← f.build (w.around root)
    f.nest w outer times

end ScriptTree
