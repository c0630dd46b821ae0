import ClassNav.Grammar.Parse

/-!
# Parsing with a stack of open nodes

Rules yield finished trees. Here the same grammar is written as a program that changes a state step
by step: a `Builder` holds the nodes that are open and the elements that are finished, and a
`Machine` adds the tokens that are left, the depth and the problems. Nodes are opened and closed by
separate steps, which nothing pairs but the program; a node may also be opened behind its first
elements, at a `Checkpoint` taken before them.

* A step that cannot be done ends the run without a result: closing a node when none is open,
  opening one at a checkpoint that is not, or no longer, a place among the elements of the innermost
  open node, leaving a level that was not entered, taking a token when none is left, and finishing
  with anything but one root.
* `Session` keeps the states that a run goes through, so that something can be said about all of
  them.
* A loop that has made a pass for every token, and goes on, ends the run without a result, too. So
  does a construct that is nested deeper than `Construct.program` is told to go.
* What a construct does one level deeper is a parameter of the programs, as it is of the rules.
-/

namespace ClassNav

/-! ## The builder -/

/-- A place between elements: how many elements are finished before it, and how many nodes were open
when it was taken. -/
structure Checkpoint where
  position : Nat
  level : Nat
deriving DecidableEq, Repr, Inhabited

/-- Open nodes, from the innermost one outwards, each with the number of elements before its first
child; and the finished elements in order. -/
structure Builder where
  parents : List (Kind × Nat)
  children : List Tree
deriving DecidableEq, Repr, Inhabited

namespace Builder

/-- How many elements stand before the children of the innermost open node. -/
def floor (b : Builder) : Nat := (b.parents.head?.map Prod.snd).getD 0

/-- Adds finished elements to the innermost open node. -/
def push (ts : List Tree) (b : Builder) : Builder := { b with children := b.children ++ ts }

def start (k : Kind) (b : Builder) : Builder :=
  { b with parents := (k, b.children.length) :: b.parents }

def checkpoint (b : Builder) : Checkpoint := ⟨b.children.length, b.parents.length⟩

/-- Opens a node at a checkpoint. The node that was innermost when the checkpoint was taken has to
be so again, and the checkpoint has to be a place among its elements. -/
def startAt? (p : Checkpoint) (k : Kind) (b : Builder) : Option Builder :=
  if p.level = b.parents.length ∧ b.floor ≤ p.position ∧ p.position ≤ b.children.length then
    some { b with parents := (k, p.position) :: b.parents }
  else none

def finish? (b : Builder) : Option Builder :=
  match b.parents with
  | [] => none
  | (k, first) :: parents =>
    if first ≤ b.children.length then
      some ⟨parents, b.children.take first ++ [.node k (b.children.drop first)]⟩
    else none

/-- The only element, if no node is open and it is a node. -/
def root? (b : Builder) : Option Tree :=
  match b.parents, b.children with
  | [], [.node k cs] => some (.node k cs)
  | _, _ => none

end Builder

/-! ## States and programs -/

/-- The state of a parser. -/
structure Machine where
  cursor : Cursor
  depth : Nat
  builder : Builder
  problems : List Problem
deriving DecidableEq, Repr, Inhabited

def Machine.initial (ts : List Token) : Machine := ⟨⟨0, ts⟩, 0, ⟨[], []⟩, []⟩

/-- A state, and the states that were gone through to get there. -/
structure Session where
  machine : Machine
  visited : List Machine
deriving DecidableEq, Repr, Inhabited

/-- A program that changes a state and may fail. -/
abbrev Program := StateT Session Option

namespace Program

/-- Does one step, and notes the state that it leads to. -/
def act (step : Machine → Option Machine) : Program Unit := fun s =>
  (step s.machine).map fun m => ((), ⟨m, s.visited ++ [m]⟩)

/-- Asks something about the state. -/
def ask {α : Type} (question : Machine → α) : Program α := fun s => some (question s.machine, s)

/-! ## Loops -/

def current : Program Kind := ask fun m => m.cursor.current

def peek (skip : Kind → Bool) : Program Kind := ask fun m => m.cursor.peek skip

def tokensLeft : Program Nat := ask fun m => m.cursor.rest.length

/-- Makes passes until one says that it was the last. A loop that is not done in time fails. -/
def loop (pass : Program Bool) : (bound : Nat) → Program Unit
  | 0 => failure
  | n + 1 => do if ← pass then loop pass n

/-- Makes passes until one says that it was the last, each but this one for some token. -/
def untilDone (pass : Program Bool) : Program Unit := do loop pass ((← tokensLeft) + 1)

/-- Repeats a program while the next significant token satisfies a test. -/
def whileAt (test : Kind → Bool) (body : Program Unit) : Program Unit := untilDone do
  if test (← current) then
    body
    return true
  else return false

/-! ## Tokens and nodes -/

def pushToken : Program Unit := act fun m =>
  match m.cursor.rest with
  | [] => none
  | t :: ts => some { m with
      cursor := ⟨m.cursor.offset + t.size, ts⟩
      builder := m.builder.push [.leaf t] }

/-- Takes the trivia before the next significant token. -/
def eatTrivia : Program Unit := untilDone do
  if ← ask fun m => m.cursor.rest.head?.any Token.isTrivia then
    pushToken
    return true
  else return false

/-- Takes the next significant token, if there is one, with the trivia before it. -/
def bump : Program Unit := do
  eatTrivia
  if (← tokensLeft) ≠ 0 then pushToken

/-- Opens a node right here. -/
def openNode (k : Kind) : Program Unit := act fun m => some { m with builder := m.builder.start k }

/-- Opens a node in front of the next significant token. -/
def startNode (k : Kind) : Program Unit := do
  eatTrivia
  openNode k

/-- Takes a checkpoint in front of the next significant token. -/
def checkpoint : Program Checkpoint := do
  eatTrivia
  ask fun m => m.builder.checkpoint

def startNodeAt (p : Checkpoint) (k : Kind) : Program Unit := act fun m =>
  (m.builder.startAt? p k).map fun b => { m with builder := b }

def finishNode : Program Unit := act fun m =>
  m.builder.finish?.map fun b => { m with builder := b }

def report (f : Fault) : Program Unit := act fun m =>
  some { m with problems := m.problems ++ [⟨f, m.cursor.location.1, m.cursor.location.2⟩] }

/-- Takes a token of kind `k` if it is next, and says whether it was. -/
def eat (k : Kind) : Program Bool := do
  if (← current) == k then
    bump
    return true
  else return false

def expect (k : Kind) (f : Fault) : Program Unit := do
  if ← eat k then return
  report f

/-- Reports the next significant token and puts it into an error node. -/
def bumpError (f : Fault) : Program Unit := do
  report f
  startNode .errorNode
  bump
  finishNode

/-- A node that holds the next significant token. -/
def single (k : Kind) : Program Unit := do
  startNode k
  bump
  finishNode

/-! ## Nesting -/

/-- Takes tokens up to the end of the first group, with `depth` groups open. -/
def skipGroup : (bound depth : Nat) → Program Unit
  | 0, _ => failure
  | n + 1, depth => do
    let k ← current
    if k = .eof then return
    else if k.opensGroup then
      bump
      skipGroup n (depth + 1)
    else if k.closesGroup then
      if depth = 0 then return
      else if depth - 1 = 0 then bump
      else
        bump
        skipGroup n (depth - 1)
    else if k.separates && depth == 0 then return
    else
      bump
      skipGroup n depth

/-- Puts a construct that is nested too deeply into one error node. -/
def skipTooDeep : Program Unit := do
  report .nestingTooDeep
  startNode .errorNode
  skipGroup ((← tokensLeft) + 1) 0
  finishNode

/-- Goes one level deeper; if that is too deep, passes over the construct and says so. -/
def enter : Program Bool := do
  if maxDepth ≤ (← ask Machine.depth) then
    skipTooDeep
    return false
  else
    act fun m => some { m with depth := m.depth + 1 }
    return true

/-- Goes back to the level around. -/
def leave : Program Unit := act fun m =>
  if m.depth = 0 then none else some { m with depth := m.depth - 1 }

/-! ## Names and clauses -/

def modifiers : Program Unit := whileAt Kind.isModifier bump

def prefixOperators : Program Unit := whileAt (· == .op) bump

/-- Repeats a program as long as there is a comma to take before it. -/
def afterCommas (body : Program Unit) : Program Unit := untilDone do
  if ← eat .comma then
    body
    return true
  else return false

def name (missing : Fault) : Program Unit := do
  if (← current) = .ident then single .name else report missing

def reference (missing : Fault) : Program Unit := do
  if (← current) = .ident then single .reference else report missing

def typeReference : Program Unit := reference .missingTypeName

def extendsClause : Program Unit := do
  if (← current) = .extendsKw then
    startNode .extendsClause
    bump
    typeReference
    finishNode

def implementsClause : Program Unit := do
  if (← current) = .implementsKw then
    startNode .implementsClause
    bump
    typeReference
    afterCommas typeReference
    finishNode

section

variable (nest : Construct → Program Unit)

/-! ## Expressions -/

/-- Arguments, if the parenthesis is not closed at once. -/
def args : Program Unit := do
  if (← current) = .rParen then return
  nest .expression
  afterCommas (nest .expression)

def argList : Program Unit := do
  startNode .argList
  bump
  args nest
  expect .rParen .missingCloseParen
  finishNode

def optionalArgs : Program Unit := do
  if (← current) = .lParen then argList nest

/-- An operand that starts with a token of kind `k`; says whether there is one. -/
def primaryAt (k : Kind) : Program Bool := do
  match k with
  | .ident =>
    single .reference
    return true
  | .number | .string =>
    single .literal
    return true
  | .newKw =>
    startNode .newExpr
    bump
    typeReference
    optionalArgs nest
    finishNode
    return true
  | .lParen =>
    startNode .parenExpr
    bump
    nest .expression
    expect .rParen .missingCloseParen
    finishNode
    return true
  | .semicolon | .rBrace | .rParen | .eof =>
    report .missingExpression
    return false
  | _ =>
    bumpError .missingExpression
    return false

/-- An operand without fields and calls; says whether there is one. -/
def primaryExpr : Program Bool := do
  prefixOperators
  primaryAt nest (← current)

/-- A field access or a call, if there is one, around what stands at the checkpoint. -/
def postfixStep (p : Checkpoint) : Program Bool := do
  match ← current with
  | .dot =>
    startNodeAt p .fieldExpr
    bump
    reference .missingFieldName
    finishNode
    return true
  | .lParen =>
    startNodeAt p .callExpr
    argList nest
    finishNode
    return true
  | _ => return false

/-- An operand with the operators before it and the field accesses and calls after it. -/
def postfixExpr : Program Unit := do
  let p ← checkpoint
  if ← primaryExpr nest then untilDone (postfixStep nest p)

/-- An operator and an operand, if they are there, with what stands at the checkpoint before them.
-/
def binaryStep (p : Checkpoint) : Program Bool := do
  match ← current with
  | .op | .eq =>
    startNodeAt p .binExpr
    bump
    postfixExpr nest
    finishNode
    return true
  | _ => return false

def exprParts : Program Unit := do
  let p ← checkpoint
  postfixExpr nest
  untilDone (binaryStep nest p)

/-! ## Variables and parameters -/

def typeBody : Program Unit := do
  if (← current) = .lBrace then nest .anonymousType else typeReference

def typeTag : Program Unit := do
  startNode .typeTag
  bump
  typeBody nest
  finishNode

def optionalType : Program Unit := do
  if (← current) = .colon then typeTag nest

def initialiser : Program Unit := do
  if ← eat .eq then nest .expression

def varDecl : Program Unit := do
  let p ← checkpoint
  modifiers
  startNodeAt p .varDecl
  bump
  name .missingVariableName
  optionalType nest
  initialiser nest
  expect .semicolon .missingSemicolon
  finishNode

def param : Program Unit := do
  startNode .param
  name .missingParameterName
  optionalType nest
  initialiser nest
  finishNode

/-- Parameters, each but the last with its comma. -/
def params : Program Unit := untilDone do
  if (← current) = .ident then
    param nest
    eat .comma
  else return false

def paramList : Program Unit := do
  if (← current) = .lParen then
    startNode .paramList
    bump
    params nest
    expect .rParen .missingCloseParen
    finishNode
  else report .missingParameterList

/-! ## Members -/

def methodBody : Program Unit := do
  if (← current) = .lBrace then nest .block else expect .semicolon .missingMethodBody

def methodDecl : Program Unit := do
  let p ← checkpoint
  modifiers
  startNodeAt p .methodDecl
  bump
  name .missingMethodName
  paramList nest
  optionalType nest
  methodBody nest
  finishNode

def member : Program Unit := do
  match ← peek Kind.isModifier with
  | .functionKw => methodDecl nest
  | .varKw => varDecl nest
  | .classKw | .interfaceKw => nest .classDecl
  | _ => bumpError .missingMember

/-- Members up to the closing brace. -/
def members : Program Unit := whileAt Rule.inBraces (member nest)

def anonymousTypeParts : Program Unit := do
  startNode .anonymousType
  bump
  members nest
  expect .rBrace .missingCloseBrace
  finishNode

def classBody : Program Unit := do
  if (← current) = .lBrace then
    startNode .classBody
    bump
    members nest
    expect .rBrace .missingCloseBrace
    finishNode
  else report .missingClassBody

/-- The head of a class and its body. -/
def classParts : Program Unit := do
  let p ← checkpoint
  modifiers
  startNodeAt p .classDecl
  bump
  name .missingClassName
  extendsClause
  implementsClause
  classBody nest
  finishNode

/-! ## Statements -/

def returnValue : Program Unit := do
  if (← current) = .semicolon then return
  nest .expression

def stmt : Program Unit := do
  match ← current with
  | .varKw => varDecl nest
  | .lBrace => nest .block
  | .semicolon => bump
  | .returnKw =>
    startNode .returnStmt
    bump
    returnValue nest
    expect .semicolon .missingSemicolon
    finishNode
  | .functionKw | .classKw => bumpError .misplacedDeclaration
  | _ =>
    startNode .exprStmt
    nest .expression
    expect .semicolon .missingSemicolon
    finishNode

/-- A statement; a token that it leaves where it stands is refused. -/
def guardedStmt : Program Unit := do
  let before ← tokensLeft
  stmt nest
  if (← tokensLeft) = before then bumpError .unexpectedToken

def blockParts : Program Unit := do
  startNode .block
  bump
  whileAt Rule.inBraces (guardedStmt nest)
  expect .rBrace .missingCloseBrace
  finishNode

/-! ## Files -/

def declaration : Program Unit := do
  match ← peek Kind.isModifier with
  | .classKw | .interfaceKw => nest .classDecl
  | _ => bumpError .missingDeclaration

def declarations : Program Unit := whileAt (· != .eof) (declaration nest)

def root : Program Tree := fun s => s.machine.builder.root?.map fun t => (t, s)

def file : Program Tree := do
  openNode .sourceFile
  declarations nest
  eatTrivia
  finishNode
  root

end

end Program

/-! ## Constructs -/

namespace Construct

/-- What a construct does one level deeper. -/
def inside (nest : Construct → Program Unit) : Construct → Program Unit
  | classDecl => .classParts nest
  | anonymousType => .anonymousTypeParts nest
  | block => .blockParts nest
  | expression => .exprParts nest

/-- Parses a construct in which constructs may be nested `levels` deep, itself included. The limit
on the nesting is not this one, but the one on the depth of the state. -/
def program : (levels : Nat) → Construct → Program Unit
  | 0, _ => failure
  | n + 1, k => do
    if ← Program.enter then
      k.inside (program n)
      Program.leave

/-- Parses a construct at any depth: no state allows for more levels than these. -/
def parser : Construct → Program Unit := program (maxDepth + 1)

end Construct

end ClassNav
