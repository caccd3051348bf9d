/-!
# Kinds of nodes

- `Kind`, the 44 kinds of node of a JavaScript syntax tree, in the order of their tags (`Kind.all`);
- the printed name `Kind.text` and the number `Kind.tag` of a kind, with `Kind.ofText?` and `Kind.ofTag?` back;
- three groups (`Kind.group`): statements, expressions and the auxiliary nodes between them;
- the kinds that open a scope (`Kind.isScope`).
-/

namespace ScriptTree

/-- The kinds of node, auxiliary ones first, then statements, then expressions. -/
inductive Kind where
  | programs | program | function | name | switchCase | catchClause | variableDeclarator | property
  | emptyStatement | blockStatement | expressionStatement | ifStatement | labeledStatement | breakStatement
  | continueStatement | withStatement | switchStatement | returnStatement | throwStatement | tryStatement
  | whileStatement | doWhileStatement | forStatement | forInStatement | functionDeclaration
  | variableDeclaration | debuggerStatement
  | thisExpression | arrayExpression | objectExpression | functionExpression | arrowFunction
  | sequenceExpression | unaryExpression | binaryExpression | assignmentExpression | updateExpression
  | conditionalExpression | callExpression | memberExpression | indexExpression | nameExpression
  | literalExpression | regexpExpression
  deriving DecidableEq, Repr, Inhabited

namespace Kind

/-- All kinds in the order of their tags. -/
def all : List Kind :=
  [programs, program, function, name, switchCase, catchClause, variableDeclarator, property,
   emptyStatement, blockStatement, expressionStatement, ifStatement, labeledStatement, breakStatement,
   continueStatement, withStatement, switchStatement, returnStatement, throwStatement, tryStatement,
   whileStatement, doWhileStatement, forStatement, forInStatement, functionDeclaration,
   variableDeclaration, debuggerStatement,
   thisExpression, arrayExpression, objectExpression, functionExpression, arrowFunction,
   sequenceExpression, unaryExpression, binaryExpression, assignmentExpression, updateExpression,
   conditionalExpression, callExpression, memberExpression, indexExpression, nameExpression,
   literalExpression, regexpExpression]

/-- The name under which a kind is printed. -/
def text : Kind → String
  | programs => "NPrograms"
  | program => "NProgram"
  | function => "NFunction"
  | name => "NName"
  | switchCase => "NSwitchCase"
  | catchClause => "NCatchClause"
  | variableDeclarator => "NVariableDeclarator"
  | property => "NProperty"
  | emptyStatement => "NEmptyStatement"
  | blockStatement => "NBlockStatement"
  | expressionStatement => "NExpressionStatement"
  | ifStatement => "NIfStatement"
  | labeledStatement => "NLabeledStatement"
  | breakStatement => "NBreakStatement"
  | continueStatement => "NContinueStatement"
  | withStatement => "NWithStatement"
  | switchStatement => "NSwitchStatement"
  | returnStatement => "NReturnStatement"
  | throwStatement => "NThrowStatement"
  | tryStatement => "NTryStatement"
  | whileStatement => "NWhileStatement"
  | doWhileStatement => "NDoWhileStatement"
  | forStatement => "NForStatement"
  | forInStatement => "NForInStatement"
  | functionDeclaration => "NFunctionDeclaration"
  | variableDeclaration => "NVariableDeclaration"
  | debuggerStatement => "NDebuggerStatement"
  | thisExpression => "NThisExpression"
  | arrayExpression => "NArrayExpression"
  | objectExpression => "NObjectExpression"
  | functionExpression => "NFunctionExpression"
  | arrowFunction => "NArrowFunction"
  | sequenceExpression => "NSequenceExpression"
  | unaryExpression => "NUnaryExpression"
  | binaryExpression => "NBinaryExpression"
  | assignmentExpression => "NAssignmentExpression"
  | updateExpression => "NUpdateExpression"
  | conditionalExpression => "NConditionalExpression"
  | callExpression => "NCallExpression"
  | memberExpression => "NMemberExpression"
  | indexExpression => "NIndexExpression"
  | nameExpression => "NNameExpression"
  | literalExpression => "NLiteralExpression"
  | regexpExpression => "NRegexpExpression"

/-- The kind with a printed name. -/
def ofText? (s : String) : Option Kind := all.find? (·.text == s)

/-- The position of a kind in `all`. -/
def tag (k : Kind) : Nat := all.idxOf k

/-- The kind with a tag, if the number is a tag. -/
def ofTag? : Int → Option Kind
  | .ofNat n => all[n]?
  | .negSucc _ => none

/-- What a kind of node is for. -/
inductive Group where
  | auxiliary | statement | expression
  deriving DecidableEq, Repr

/-- The group of a kind. -/
def group : Kind → Group
  | programs | program | function | name | switchCase | catchClause | variableDeclarator | property => .auxiliary
  | emptyStatement | blockStatement | expressionStatement | ifStatement | labeledStatement | breakStatement
  | continueStatement | withStatement | switchStatement | returnStatement | throwStatement | tryStatement
  | whileStatement | doWhileStatement | forStatement | forInStatement | functionDeclaration
  | variableDeclaration | debuggerStatement => .statement
  | thisExpression | arrayExpression | objectExpression | functionExpression | arrowFunction
  | sequenceExpression | unaryExpression | binaryExpression | assignmentExpression | updateExpression
  | conditionalExpression | callExpression | memberExpression | indexExpression | nameExpression
  | literalExpression | regexpExpression => .expression

/-- Statements. -/
def isStatement (k : Kind) : Bool := k.group == .statement

/-- Expressions. -/
def isExpression (k : Kind) : Bool := k.group == .expression

/-- The kinds whose nodes hold an environment of declared names. -/
def isScope : Kind → Bool
  | program | function | arrowFunction | catchClause => true
  | _ => false

/-- What may open a `for` head: a variable declaration or an expression. -/
def isLoopHead (k : Kind) : Bool := k == variableDeclaration || k.isExpression

/-! ## Names and tags determine the kind -/

theorem mem_all (k : Kind) : k ∈ all := by cases k <;> decide

@[simp] theorem ofTag?_tag (k : Kind) : ofTag? k.tag = some k := by cases k <;> rfl

end Kind

end ScriptTree
