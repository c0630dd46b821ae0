import ClassNav.Grammar.Rule

/-!
# The class language

The rules of the language: files of classes and interfaces, their members, statements, and enough
of expressions to find the names in them.

* `Rule.file` is the rule of a whole file.
* `Construct.rule` gives the rule of each construct that may contain itself.
-/

namespace ClassNav

namespace Rule

/-! ## Names -/

/-- A declared name. -/
def declaredName (missing : Fault) : Rule :=
  peek fun
    | .ident => node .name bump
    | _ => report missing

/-- The name of something declared elsewhere. -/
def reference (missing : Fault) : Rule :=
  peek fun
    | .ident => node .reference bump
    | _ => report missing

def typeName : Rule := reference .missingTypeName

/-! ## Lists -/

/-- Parts with a comma before each. -/
def afterCommas (part : Rule) : Rule := manyWhile (· == .comma) (seq bump part)

/-- One part or several, with commas between them. -/
def commaSeparated (part : Rule) : Rule := seq part (afterCommas part)

/-- A node with parentheses around its parts; the opening one is there. -/
def parenthesized (k : Kind) (parts : Rule) : Rule :=
  node k (all [bump, parts, expect .rParen .missingCloseParen])

/-! ## Expressions -/

def argumentRow : Rule :=
  peek fun
    | .rParen => done
    | _ => commaSeparated (nest .expression)

def arguments : Rule := parenthesized .argList argumentRow

/-- The arguments of a `new` may be left out. -/
def newExpr : Rule := node .newExpr (all [bump, typeName, whenAt .lParen arguments])

def parenExpr : Rule := parenthesized .parenExpr (nest .expression)

/-- The rule of an expression without operators, fields and calls, if a token of kind `k` can start
one. -/
def primary? (k : Kind) : Option Rule :=
  match k with
  | .ident => some (node .reference bump)
  | .number | .string => some (node .literal bump)
  | .newKw => some newExpr
  | .lParen => some parenExpr
  | _ => none

/-- What becomes of a token that starts no expression: one that ends a statement or a group stays
for the rule around. -/
def notAnExpression (k : Kind) : Rule :=
  match k with
  | .semicolon | .rBrace | .rParen | .eof => report .missingExpression
  | _ => reject .missingExpression

/-- A field access or a call after an operand. -/
def selection (k : Kind) : Rule :=
  match k with
  | .dot => seq bump (reference .missingFieldName)
  | _ => arguments

/-- The node that a field access or a call makes. -/
def selectionKind? : Kind → Option Kind
  | .dot => some .fieldExpr
  | .lParen => some .callExpr
  | _ => none

def unaryOperators : Rule := manyWhile (· == .op) bump

/-- Operators, and what a token of kind `k` starts behind them. -/
def primaryAt (k : Kind) : Rule := seq unaryOperators ((primary? k).getD (notAnExpression k))

/-- An operand with the operators before it and the field accesses and calls after it. Nothing is
read after what is no operand. -/
def operand : Rule :=
  seq gap (look (· == .op) fun k =>
    if (primary? k).isSome then chain (primaryAt k) selectionKind? selection else primaryAt k)

def binaryKind? : Kind → Option Kind
  | .op | .eq => some .binExpr
  | _ => none

/-- Operands joined by operators, which all associate to the left. -/
def expression : Rule :=
  seq gap (chain operand binaryKind? fun _ => seq bump operand)

/-! ## Declarations -/

def modifiers : Rule := manyWhile Kind.isModifier bump

def closeBrace : Rule := expect .rBrace .missingCloseBrace

/-- Whether a group in braces goes on. -/
def inBraces (k : Kind) : Bool := k != .rBrace && k != .eof

/-- What stands behind the colon of `typeTag`. -/
def taggedType : Rule :=
  peek fun
    | .lBrace => nest .anonymousType
    | _ => typeName

def typeTag : Rule := node .typeTag (seq bump taggedType)

def optionalType : Rule := whenAt .colon typeTag

/-- An equals sign and a value, if they are there. -/
def initialiser : Rule := whenAt .eq (seq bump (nest .expression))

def varDecl : Rule :=
  node .varDecl (all [
    modifiers, bump, declaredName .missingVariableName, optionalType, initialiser,
    expect .semicolon .missingSemicolon])

def parameter : Rule :=
  node .param (all [declaredName .missingParameterName, optionalType, initialiser])

/-- A comma is taken only if another parameter follows it. -/
def moreParameters : Rule := loop (fun k k' => k == .comma && k' == .ident) (seq bump parameter)

def trailingComma : Rule := whenAt .comma bump

/-- Parameters, without the parentheses around them. -/
def parameters : Rule := whenAt .ident (all [parameter, moreParameters, trailingComma])

def parameterList : Rule :=
  peek fun
    | .lParen => parenthesized .paramList parameters
    | _ => report .missingParameterList

/-- A block, or a semicolon in place of one. -/
def methodBody : Rule :=
  peek fun
    | .lBrace => nest .block
    | _ => expect .semicolon .missingMethodBody

def methodDecl : Rule :=
  node .methodDecl (all [
    modifiers, bump, declaredName .missingMethodName, parameterList, optionalType, methodBody])

/-- One of the declarations between the braces of a class or a structure. -/
def member : Rule :=
  look Kind.isModifier fun
    | .functionKw => methodDecl
    | .varKw => varDecl
    | .classKw | .interfaceKw => nest .classDecl
    | _ => reject .missingMember

def members : Rule := manyWhile inBraces member

def memberList : Rule := all [bump, members, closeBrace]

def extendsClause : Rule := node .extendsClause (seq bump typeName)

def implementsClause : Rule := node .implementsClause (seq bump (commaSeparated typeName))

def classBody : Rule :=
  peek fun
    | .lBrace => node .classBody memberList
    | _ => report .missingClassBody

def classDecl : Rule :=
  node .classDecl (all [
    modifiers, bump, declaredName .missingClassName, whenAt .extendsKw extendsClause,
    whenAt .implementsKw implementsClause, classBody])

def anonymousType : Rule := node .anonymousType memberList

/-! ## Statements -/

def returnedValue : Rule :=
  peek fun
    | .semicolon => done
    | _ => nest .expression

def returnStmt : Rule :=
  node .returnStmt (all [bump, returnedValue, expect .semicolon .missingSemicolon])

def exprStmt : Rule :=
  node .exprStmt (seq (nest .expression) (expect .semicolon .missingSemicolon))

def statement : Rule :=
  peek fun
    | .varKw => varDecl
    | .lBrace => nest .block
    | .semicolon => bump
    | .returnKw => returnStmt
    | .functionKw | .classKw => reject .misplacedDeclaration
    | _ => exprStmt

/-- A statement that takes nothing would be repeated for ever, so the next token is refused. -/
def guardedStatement : Rule := progress statement .unexpectedToken

def statements : Rule := manyWhile inBraces guardedStatement

def block : Rule := node .block (all [bump, statements, closeBrace])

/-! ## Files -/

/-- One of the declarations of a file. -/
def topLevel : Rule :=
  look Kind.isModifier fun
    | .classKw | .interfaceKw => nest .classDecl
    | _ => reject .missingDeclaration

def declarations : Rule := manyWhile (· != .eof) topLevel

/-- The declarations of a file, and the trivia after the last one. -/
def file : Rule := seq declarations gap

end Rule

namespace Construct

/-- The rule of a construct. -/
def rule : Construct → Rule
  | classDecl => .classDecl
  | anonymousType => .anonymousType
  | block => .block
  | expression => .expression

end Construct

end ClassNav
