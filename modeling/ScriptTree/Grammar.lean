import ScriptTree.Kind

/-!
# The shape of a node

A child stands in its owner in a *role*. `Kind.layout` lists the roles of a kind in the order in which children are
built, checked and enumerated, and says of each how many children it takes (`Arity`) and which (`Fill`).
-/

namespace ScriptTree

/-- The positions in which a child can stand. -/
inductive Role where
  | programs | body | name | params | expression | param | init | key | value | condition | consequent
  | alternative | label | object | argument | cases | block | handler | finalizer | update | left | right
  | function | declarations | expressions | properties | callee | arguments | property
  deriving DecidableEq, Repr

namespace Role

/-- All roles. -/
def all : List Role :=
  [programs, body, name, params, expression, param, init, key, value, condition, consequent,
   alternative, label, object, argument, cases, block, handler, finalizer, update, left, right,
   function, declarations, expressions, properties, callee, arguments, property]

/-- The name of a role. -/
def text : Role → String
  | programs => "programs"
  | body => "body"
  | name => "name"
  | params => "params"
  | expression => "expression"
  | param => "param"
  | init => "init"
  | key => "key"
  | value => "value"
  | condition => "condition"
  | consequent => "then"
  | alternative => "otherwise"
  | label => "label"
  | object => "object"
  | argument => "argument"
  | cases => "cases"
  | block => "block"
  | handler => "handler"
  | finalizer => "finalizer"
  | update => "update"
  | left => "left"
  | right => "right"
  | function => "function"
  | declarations => "declarations"
  | expressions => "expressions"
  | properties => "properties"
  | callee => "callee"
  | arguments => "arguments"
  | property => "property"

/-- The role with a name. -/
def ofText? (s : String) : Option Role := all.find? (·.text == s)

end Role

/-- How many children a role takes. The entries of a `sparse` list may be holes. -/
inductive Arity where
  | required | optional | list | sparse
  deriving DecidableEq, Repr

/-- Which children a role takes. -/
inductive Fill where
  | any | statement | expression
  | only (kind : Kind)
  deriving DecidableEq, Repr

/-- The kinds of node that a role takes. -/
def Fill.admits : Fill → Kind → Bool
  | .any, _ => true
  | .statement, k => k.isStatement
  | .expression, k => k.isExpression
  | .only k', k => k' == k

/-- One role of a kind. -/
structure Slot where
  role : Role
  arity : Arity
  fill : Fill
  deriving DecidableEq, Repr

namespace Slot

/-- A role that always has a child. -/
def required (role : Role) (fill : Fill) : Slot := ⟨role, .required, fill⟩

/-- A role that may have a child. -/
def optional (role : Role) (fill : Fill) : Slot := ⟨role, .optional, fill⟩

/-- A role with any number of children. -/
def list (role : Role) (fill : Fill) : Slot := ⟨role, .list, fill⟩

/-- A role with any number of children and holes. -/
def sparse (role : Role) (fill : Fill) : Slot := ⟨role, .sparse, fill⟩

end Slot

open Slot in
/-- The roles of a kind, in order. -/
def Kind.layout : Kind → List Slot
  | .programs => [list .programs (.only .program)]
  | .program => [list .body .statement]
  | .function => [optional .name (.only .name), list .params (.only .name), required .body .statement]
  | .name => []
  | .switchCase => [optional .expression .expression, list .body .statement]
  | .catchClause => [required .param (.only .name), required .body (.only .blockStatement)]
  | .variableDeclarator => [required .name (.only .name), optional .init .expression]
  | .property => [required .key .any, required .value .any]
  | .emptyStatement => []
  | .blockStatement => [list .body .statement]
  | .expressionStatement => [required .expression .expression]
  | .ifStatement =>
    [required .condition .expression, required .consequent .statement, optional .alternative .statement]
  | .labeledStatement => [required .label (.only .name), required .body .statement]
  | .breakStatement => [optional .label (.only .name)]
  | .continueStatement => [optional .label (.only .name)]
  | .withStatement => [required .object .expression, required .body .statement]
  | .switchStatement => [required .argument .expression, list .cases (.only .switchCase)]
  | .returnStatement => [optional .argument .expression]
  | .throwStatement => [required .argument .expression]
  | .tryStatement =>
    [required .block (.only .blockStatement), optional .handler (.only .catchClause),
     optional .finalizer (.only .blockStatement)]
  | .whileStatement => [required .condition .expression, required .body .statement]
  | .doWhileStatement => [required .body .statement, required .condition .expression]
  | .forStatement =>
    [optional .init .any, optional .condition .expression, optional .update .expression,
     required .body .statement]
  | .forInStatement => [required .left .any, required .right .expression, required .body .statement]
  | .functionDeclaration => [required .function (.only .function)]
  | .variableDeclaration => [list .declarations (.only .variableDeclarator)]
  | .debuggerStatement => []
  | .thisExpression => []
  | .arrayExpression => [sparse .expressions .expression]
  | .objectExpression => [list .properties (.only .property)]
  | .functionExpression => [required .function (.only .function)]
  | .arrowFunction => [list .params (.only .name), required .body .statement]
  | .sequenceExpression => [list .expressions .expression]
  | .unaryExpression => [required .argument .expression]
  | .binaryExpression => [required .left .expression, required .right .expression]
  | .assignmentExpression => [required .left .expression, required .right .expression]
  | .updateExpression => [required .argument .expression]
  | .conditionalExpression =>
    [required .condition .expression, required .consequent .expression, required .alternative .expression]
  | .callExpression => [required .callee .expression, list .arguments .expression]
  | .memberExpression => [required .object .expression, required .property (.only .name)]
  | .indexExpression => [required .object .expression, required .property .expression]
  | .nameExpression => [required .name (.only .name)]
  | .literalExpression => []
  | .regexpExpression => []

/-- No kind has two slots of one role. -/
theorem Kind.layout_roles_nodup (k : Kind) : (k.layout.map Slot.role).Nodup := by cases k <;> decide

end ScriptTree
