import ScriptTree.Environment
import ScriptTree.Grammar
import ScriptTree.Literal

/-!
# Nodes

A node has a form (its kind with the data that kind carries), fields that hold its children by role, a link to a
parent, a place in the source text and, if it is a scope, an environment. The fields say which nodes it owns; the link
of a child is separate data of the child and may disagree with them.

`Content` and `Field` are generic in what stands for a child, so that the same shape carries node identities in a
store and results in a fold.
-/

namespace ScriptTree

/-- The identity of a node: its position in the order of construction. -/
abbrev NodeId := Nat

/-- How a property gets its value. -/
inductive Access where
  | init | get | set
  deriving DecidableEq, Repr

namespace Access

/-- All ways, in the order of their tags. -/
def all : List Access := [init, get, set]

/-- The word for a way. -/
def text : Access → String
  | init => "init"
  | get => "get"
  | set => "set"

/-- The way with a tag, if the number is a tag. -/
def ofTag? : Int → Option Access
  | .ofNat n => all[n]?
  | .negSucc _ => none

/-- The way with a word. -/
def ofText? (s : String) : Option Access := all.find? (·.text == s)

/-- Getters and setters. -/
def usesFunction : Access → Bool
  | init => false
  | get | set => true

end Access

/-- On which side of its argument an update operator stands. -/
inductive Side where
  | before | after
  deriving DecidableEq, Repr

/-- The kind of a node with the data that belongs to the kind. -/
inductive Form where
  | programs
  | program (filename : String)
  | function
  /-- A name, and the scope it was resolved to. -/
  | name (value : String) (scope : Option NodeId)
  | switchCase
  | catchClause
  | variableDeclarator
  | property (access : Access)
  | emptyStatement
  | blockStatement
  | expressionStatement
  | ifStatement
  | labeledStatement
  | breakStatement
  | continueStatement
  | withStatement
  | switchStatement
  | returnStatement
  | throwStatement
  | tryStatement
  | whileStatement
  | doWhileStatement
  | forStatement
  | forInStatement
  | functionDeclaration
  | variableDeclaration
  | debuggerStatement
  | thisExpression
  | arrayExpression
  | objectExpression
  | functionExpression
  | arrowFunction
  | sequenceExpression
  | unaryExpression (op : String)
  | binaryExpression (op : String)
  | assignmentExpression (op : String)
  | updateExpression (op : String) (side : Side)
  | conditionalExpression
  | callExpression (isNew : Bool)
  | memberExpression
  | indexExpression
  | nameExpression
  /-- A literal value and its spelling in the source text, if known. -/
  | literalExpression (value : Literal) (raw : String)
  | regexpExpression (source : String)
  deriving DecidableEq, Repr, Inhabited

namespace Form

/-- The kind of a form. -/
def kind : Form → Kind
  | programs => .programs
  | program _ => .program
  | function => .function
  | name _ _ => .name
  | switchCase => .switchCase
  | catchClause => .catchClause
  | variableDeclarator => .variableDeclarator
  | property _ => .property
  | emptyStatement => .emptyStatement
  | blockStatement => .blockStatement
  | expressionStatement => .expressionStatement
  | ifStatement => .ifStatement
  | labeledStatement => .labeledStatement
  | breakStatement => .breakStatement
  | continueStatement => .continueStatement
  | withStatement => .withStatement
  | switchStatement => .switchStatement
  | returnStatement => .returnStatement
  | throwStatement => .throwStatement
  | tryStatement => .tryStatement
  | whileStatement => .whileStatement
  | doWhileStatement => .doWhileStatement
  | forStatement => .forStatement
  | forInStatement => .forInStatement
  | functionDeclaration => .functionDeclaration
  | variableDeclaration => .variableDeclaration
  | debuggerStatement => .debuggerStatement
  | thisExpression => .thisExpression
  | arrayExpression => .arrayExpression
  | objectExpression => .objectExpression
  | functionExpression => .functionExpression
  | arrowFunction => .arrowFunction
  | sequenceExpression => .sequenceExpression
  | unaryExpression _ => .unaryExpression
  | binaryExpression _ => .binaryExpression
  | assignmentExpression _ => .assignmentExpression
  | updateExpression _ _ => .updateExpression
  | conditionalExpression => .conditionalExpression
  | callExpression _ => .callExpression
  | memberExpression => .memberExpression
  | indexExpression => .indexExpression
  | nameExpression => .nameExpression
  | literalExpression _ _ => .literalExpression
  | regexpExpression _ => .regexpExpression

/-- The form of a kind with empty data. -/
def blank : Kind → Form
  | .programs => programs
  | .program => program ""
  | .function => function
  | .name => name "" none
  | .switchCase => switchCase
  | .catchClause => catchClause
  | .variableDeclarator => variableDeclarator
  | .property => property .init
  | .emptyStatement => emptyStatement
  | .blockStatement => blockStatement
  | .expressionStatement => expressionStatement
  | .ifStatement => ifStatement
  | .labeledStatement => labeledStatement
  | .breakStatement => breakStatement
  | .continueStatement => continueStatement
  | .withStatement => withStatement
  | .switchStatement => switchStatement
  | .returnStatement => returnStatement
  | .throwStatement => throwStatement
  | .tryStatement => tryStatement
  | .whileStatement => whileStatement
  | .doWhileStatement => doWhileStatement
  | .forStatement => forStatement
  | .forInStatement => forInStatement
  | .functionDeclaration => functionDeclaration
  | .variableDeclaration => variableDeclaration
  | .debuggerStatement => debuggerStatement
  | .thisExpression => thisExpression
  | .arrayExpression => arrayExpression
  | .objectExpression => objectExpression
  | .functionExpression => functionExpression
  | .arrowFunction => arrowFunction
  | .sequenceExpression => sequenceExpression
  | .unaryExpression => unaryExpression ""
  | .binaryExpression => binaryExpression ""
  | .assignmentExpression => assignmentExpression ""
  | .updateExpression => updateExpression "" .after
  | .conditionalExpression => conditionalExpression
  | .callExpression => callExpression false
  | .memberExpression => memberExpression
  | .indexExpression => indexExpression
  | .nameExpression => nameExpression
  | .literalExpression => literalExpression .null ""
  | .regexpExpression => regexpExpression ""

/-- A new value for one piece of the data of a form. -/
inductive Setting where
  | filename (value : String)
  | text (value : String)
  | scope (value : Option NodeId)
  | access (value : Access)
  | op (value : String)
  | side (value : Side)
  | isNew (value : Bool)
  | literal (value : Literal)
  | raw (value : String)
  | source (value : String)
  deriving DecidableEq, Repr

/-- The form with one piece of its data set. A form without that piece stays as it is. -/
def set : Form → Setting → Form
  | program _, .filename s => program s
  | name _ scope, .text s => name s scope
  | name value _, .scope s => name value s
  | property _, .access a => property a
  | unaryExpression _, .op s => unaryExpression s
  | binaryExpression _, .op s => binaryExpression s
  | assignmentExpression _, .op s => assignmentExpression s
  | updateExpression _ side, .op s => updateExpression s side
  | updateExpression op _, .side s => updateExpression op s
  | callExpression _, .isNew b => callExpression b
  | literalExpression _ raw, .literal v => literalExpression v raw
  | literalExpression value _, .raw s => literalExpression value s
  | regexpExpression _, .source s => regexpExpression s
  | form, _ => form

@[simp] theorem kind_blank (k : Kind) : (blank k).kind = k := by cases k <;> rfl

@[simp] theorem kind_set (form : Form) (s : Setting) : (form.set s).kind = form.kind := by
  cases form <;> cases s <;> rfl

end Form

/-! ## Fields -/

/-- What stands in a role: at most one child, or a list of children and holes. -/
inductive Content (α : Type) where
  | one (child : Option α)
  | many (items : List (Option α))
  deriving DecidableEq, Repr

namespace Content

variable {α β : Type}

/-- The entries in order, absent ones included. -/
def items : Content α → List (Option α)
  | one child => [child]
  | many items => items

/-- The children in order. -/
def children (c : Content α) : List α := c.items.filterMap id

/-- The single child. -/
def child? : Content α → Option α
  | one child => child
  | many _ => none

/-- Each child replaced by a result for it, if there is one. -/
def bind (g : α → Option β) : Content α → Content β
  | one child => one (child.bind g)
  | many items => many (items.map (·.bind g))

end Content

/-- A role and what stands in it. -/
structure Field (α : Type) where
  role : Role
  content : Content α
  deriving DecidableEq, Repr

namespace Field

variable {α β : Type}

/-- The children in order. -/
def children (field : Field α) : List α := field.content.children

/-- Each child replaced by a result for it, if there is one. -/
def bind (g : α → Option β) (field : Field α) : Field β := ⟨field.role, field.content.bind g⟩

/-- What stands in a role. -/
def lookup? (role : Role) : List (Field α) → Option (Content α)
  | [] => none
  | field :: rest => if field.role = role then some field.content else lookup? role rest

/-- The fields with other content in a role that they have. -/
def update (role : Role) (content : Content α) : List (Field α) → List (Field α)
  | [] => []
  | field :: rest => if field.role = role then ⟨role, content⟩ :: rest else field :: update role content rest

/-- What is found in a role is one of the fields. -/
theorem mem_of_lookup? {role : Role} {content : Content α} {fields : List (Field α)}
    (h : lookup? role fields = some content) : ⟨role, content⟩ ∈ fields := by
  induction fields with
  | nil => cases h
  | cons field rest ih =>
    obtain ⟨role', content'⟩ := field
    by_cases hr : role' = role
    · simp only [lookup?, if_pos hr, Option.some.injEq] at h
      subst hr h
      exact List.mem_cons_self
    · simp only [lookup?, if_neg hr] at h
      exact List.mem_cons_of_mem _ (ih h)

theorem lookup?_update_self (role : Role) (content : Content α) (fields : List (Field α)) :
    lookup? role (update role content fields) = (lookup? role fields).map fun _ => content := by
  induction fields with
  | nil => rfl
  | cons field rest ih => by_cases h : field.role = role <;> simp [update, lookup?, h, ih]

theorem lookup?_update_of_ne {role role' : Role} (h : role' ≠ role) (content : Content α)
    (fields : List (Field α)) : lookup? role' (update role content fields) = lookup? role' fields := by
  induction fields with
  | nil => rfl
  | cons field rest ih =>
    by_cases hr : field.role = role
    · subst hr
      simp [update, lookup?, h.symm]
    · simp [update, lookup?, hr, ih]

theorem update_update (role : Role) (c c' : Content α) (fields : List (Field α)) :
    update role c' (update role c fields) = update role c' fields := by
  induction fields with
  | nil => rfl
  | cons field rest ih => by_cases h : field.role = role <;> simp [update, h, ih]

/-- Putting back what stands in a role changes nothing. -/
theorem update_lookup? {role : Role} {content : Content α} {fields : List (Field α)}
    (h : lookup? role fields = some content) : update role content fields = fields := by
  induction fields with
  | nil => rfl
  | cons field rest ih =>
    obtain ⟨role', content'⟩ := field
    by_cases hr : role' = role
    · subst hr
      simp only [lookup?, if_pos, Option.some.injEq] at h
      simp [update, h]
    · simp only [lookup?, if_neg hr] at h
      simp [update, hr, ih h]

end Field

/-! ## Nodes -/

/-- A place in the source text, as far as it is known. -/
structure Span where
  start : Option Int := none
  stop : Option Int := none
  line : Option Int := none
  deriving DecidableEq, Repr, Inhabited

/-- A node of a syntax tree. -/
structure Node where
  form : Form
  fields : List (Field NodeId) := []
  parent : Option NodeId := none
  span : Span := {}
  env : Environment := {}
  deriving DecidableEq, Repr, Inhabited

namespace Node

/-- The kind of a node. -/
def kind (n : Node) : Kind := n.form.kind

/-- The children of a node, in the order of its fields. -/
def children (n : Node) : List NodeId := n.fields.flatMap Field.children

/-- What stands in a role. -/
def content? (n : Node) (role : Role) : Option (Content NodeId) := Field.lookup? role n.fields

/-- The child in a role that takes one child. -/
def child? (n : Node) (role : Role) : Option NodeId := (n.content? role).bind Content.child?

/-- The entries in a role that takes a list. -/
def items (n : Node) (role : Role) : List (Option NodeId) := ((n.content? role).map Content.items).getD []

/-- The node with other content in a role. -/
def setContent (n : Node) (role : Role) (content : Content NodeId) : Node :=
  { n with fields := Field.update role content n.fields }

@[simp] theorem kind_setContent (n : Node) (role : Role) (content : Content NodeId) :
    (n.setContent role content).kind = n.kind := rfl

@[simp] theorem parent_setContent (n : Node) (role : Role) (content : Content NodeId) :
    (n.setContent role content).parent = n.parent := rfl

@[simp] theorem content?_setContent_self (n : Node) (role : Role) (content : Content NodeId) :
    (n.setContent role content).content? role = (n.content? role).map fun _ => content :=
  Field.lookup?_update_self role content n.fields

theorem content?_setContent_of_ne (n : Node) {role role' : Role} (h : role' ≠ role) (content : Content NodeId) :
    (n.setContent role content).content? role' = n.content? role' :=
  Field.lookup?_update_of_ne h content n.fields

end Node

end ScriptTree
