import ScriptTree.Forest.Lineage

/-!
# How names, functions and properties are used

The node that a name or a function is linked to decides what it is there: a name is a variable, a property name or a
label, a function is an expression, a declaration or an accessor. A property is read through its key and value.
-/

namespace ScriptTree.Forest

/-- The kind of the node that a node is linked to. -/
def parentKind? (f : Forest) (i : NodeId) : Option Kind := (f.parent? i).bind f.kind?

/-- Whether a node is linked to its owner in a role. -/
def standsIn (f : Forest) (i : NodeId) (role : Role) : Bool :=
  (f.parent? i).any fun p => f.child? p role == some i

/-! ## Names -/

/-- The value of a name. -/
def nameValue? (f : Forest) (i : NodeId) : Option String :=
  match (f.get? i).map Node.form with
  | some (.name value _) => some value
  | _ => none

/-- The scope that a name was resolved to. -/
def resolvedScope? (f : Forest) (i : NodeId) : Option NodeId :=
  match (f.get? i).map Node.form with
  | some (.name _ scope) => scope
  | _ => none

/-- Names of variables. -/
def namesVariable (f : Forest) (i : NodeId) : Bool :=
  match f.parentKind? i with
  | some .nameExpression | some .function | some .arrowFunction | some .variableDeclarator
  | some .catchClause => true
  | _ => false

/-- Names of properties: after a dot, or as the key of a property. -/
def namesProperty (f : Forest) (i : NodeId) : Bool :=
  match f.parentKind? i with
  | some .memberExpression => f.standsIn i .property
  | some .property => f.standsIn i .key
  | _ => false

/-- Names of labels. -/
def namesLabel (f : Forest) (i : NodeId) : Bool :=
  match f.parentKind? i with
  | some .breakStatement | some .continueStatement | some .labeledStatement => true
  | _ => false

/-- The scope that declares a variable: the one it was resolved to, or its program. Other names have none. -/
def variableScope? (f : Forest) (i : NodeId) : Option NodeId :=
  if f.namesVariable i then (f.resolvedScope? i).or (f.program? i) else none

/-! ## Functions -/

/-- How a property gets its value. -/
def access? (f : Forest) (i : NodeId) : Option Access :=
  match (f.get? i).map Node.form with
  | some (.property access) => some access
  | _ => none

/-- Function expressions. An arrow function is always one. -/
def isFunctionExpression (f : Forest) (i : NodeId) : Bool :=
  f.isKind .arrowFunction i || f.parentKind? i == some .functionExpression

/-- Function declarations. -/
def isFunctionDeclaration (f : Forest) (i : NodeId) : Bool :=
  !f.isKind .arrowFunction i && f.parentKind? i == some .functionDeclaration

/-- Functions of getters and setters. -/
def isAccessorFunction (f : Forest) (i : NodeId) : Bool :=
  !f.isKind .arrowFunction i && ((f.parent? i).bind f.access?).any Access.usesFunction

/-! ## Properties -/

/-- The name of a property: its key if that is a name, or the name of a literal key. -/
def propertyName? (f : Forest) (i : NodeId) : Option String :=
  match (f.child? i .key).bind fun key => (f.get? key).map Node.form with
  | some (.name value _) => some value
  | some (.literalExpression value _) => some value.text
  | _ => none

/-- The value of a property with its kind. -/
def propertyValue? (f : Forest) (i : NodeId) : Option (NodeId × Kind) :=
  (f.child? i .value).bind fun value => (f.kind? value).map (value, ·)

/-- The value of a property that is a function. -/
def propertyFunction (f : Forest) (i : NodeId) : Except Misuse NodeId :=
  match f.propertyValue? i with
  | some (value, .function) => .ok value
  | some (_, k) => .error (.notFunction k)
  | none => .error (.missing .property .value)

/-- The value of a property that is an expression. -/
def propertyExpression (f : Forest) (i : NodeId) : Except Misuse NodeId :=
  match f.propertyValue? i with
  | some (value, k) => if k.isExpression then .ok value else .error (.notExpression k)
  | none => .error (.missing .property .value)

/-! ## Literals -/

/-- The value of a literal. -/
def literal? (f : Forest) (i : NodeId) : Option Literal :=
  match (f.get? i).map Node.form with
  | some (.literalExpression value _) => some value
  | _ => none

end ScriptTree.Forest
