/-!
# Kinds of tokens and nodes

One enumeration, `Kind`, names every token and every node of the class language.

* `Kind.raw` and `Kind.ofRaw` number the kinds; a number that stands for nothing is an error node.
* `Kind.ofKeyword?` recognises the reserved words.
* `Kind.isTrivia` and `Kind.isModifier` are the two classes of tokens that the grammar looks past.
-/

namespace ClassNav

/-- The kind of a token or of a node. `eof` stands for the end of the input and is never stored
in a tree. -/
inductive Kind
  | whitespace | comment
  | ident | number | string
  | classKw | interfaceKw | extendsKw | implementsKw | functionKw | varKw | newKw | returnKw
  | staticKw | publicKw | privateKw | overrideKw | inlineKw
  | lBrace | rBrace | lParen | rParen | semicolon | colon | comma | dot | eq | op | error
  | sourceFile | classDecl | extendsClause | implementsClause | classBody | anonymousType
  | methodDecl | varDecl | paramList | param | typeTag | block | exprStmt | returnStmt
  | name | reference | callExpr | newExpr | fieldExpr | parenExpr | binExpr | argList | literal
  | errorNode
  | eof
deriving DecidableEq, Repr, Inhabited

namespace Kind

/-! ## Numbering -/

/-- Every kind, in the order of its number. -/
def all : List Kind :=
  [whitespace, comment, ident, number, string,
    classKw, interfaceKw, extendsKw, implementsKw, functionKw, varKw, newKw, returnKw,
    staticKw, publicKw, privateKw, overrideKw, inlineKw,
    lBrace, rBrace, lParen, rParen, semicolon, colon, comma, dot, eq, op, error,
    sourceFile, classDecl, extendsClause, implementsClause, classBody, anonymousType,
    methodDecl, varDecl, paramList, param, typeTag, block, exprStmt, returnStmt,
    name, reference, callExpr, newExpr, fieldExpr, parenExpr, binExpr, argList, literal,
    errorNode, eof]

def raw (k : Kind) : Nat := k.ctorIdx

/-- The kind with a given number; a number past the last kind reads as an error node. -/
def ofRaw (n : Nat) : Kind := all[n]?.getD errorNode

theorem ofRaw_raw (k : Kind) : ofRaw k.raw = k := by cases k <;> rfl

theorem mem_all (k : Kind) : k ∈ all := by cases k <;> decide

/-! ## Classes of tokens -/

/-- Blanks and comments, which no rule of the grammar mentions. -/
def isTrivia : Kind → Bool
  | whitespace | comment => true
  | _ => false

def isModifier : Kind → Bool
  | staticKw | publicKw | privateKw | overrideKw | inlineKw => true
  | _ => false

/-- The keyword kind of a reserved word. -/
def ofKeyword? : String → Option Kind
  | "class" => some classKw
  | "interface" => some interfaceKw
  | "extends" => some extendsKw
  | "implements" => some implementsKw
  | "function" => some functionKw
  | "var" => some varKw
  | "new" => some newKw
  | "return" => some returnKw
  | "static" => some staticKw
  | "public" => some publicKw
  | "private" => some privateKw
  | "override" => some overrideKw
  | "inline" => some inlineKw
  | _ => none

/-- The kind of an identifier-shaped word: its keyword kind if the word is reserved. -/
def ofWord (word : String) : Kind := (ofKeyword? word).getD ident

/-! ## Display -/

/-- The name under which a kind is shown. -/
def label : Kind → String
  | whitespace => "Whitespace"
  | comment => "Comment"
  | ident => "Ident"
  | number => "Number"
  | string => "String"
  | classKw => "ClassKw"
  | interfaceKw => "InterfaceKw"
  | extendsKw => "ExtendsKw"
  | implementsKw => "ImplementsKw"
  | functionKw => "FunctionKw"
  | varKw => "VarKw"
  | newKw => "NewKw"
  | returnKw => "ReturnKw"
  | staticKw => "StaticKw"
  | publicKw => "PublicKw"
  | privateKw => "PrivateKw"
  | overrideKw => "OverrideKw"
  | inlineKw => "InlineKw"
  | lBrace => "LBrace"
  | rBrace => "RBrace"
  | lParen => "LParen"
  | rParen => "RParen"
  | semicolon => "Semicolon"
  | colon => "Colon"
  | comma => "Comma"
  | dot => "Dot"
  | eq => "Eq"
  | op => "Op"
  | error => "Error"
  | sourceFile => "SourceFile"
  | classDecl => "ClassDecl"
  | extendsClause => "ExtendsClause"
  | implementsClause => "ImplementsClause"
  | classBody => "ClassBody"
  | anonymousType => "AnonymousType"
  | methodDecl => "MethodDecl"
  | varDecl => "VarDecl"
  | paramList => "ParamList"
  | param => "Param"
  | typeTag => "TypeTag"
  | block => "Block"
  | exprStmt => "ExprStmt"
  | returnStmt => "ReturnStmt"
  | name => "Name"
  | reference => "Reference"
  | callExpr => "CallExpr"
  | newExpr => "NewExpr"
  | fieldExpr => "FieldExpr"
  | parenExpr => "ParenExpr"
  | binExpr => "BinExpr"
  | argList => "ArgList"
  | literal => "Literal"
  | errorNode => "ErrorNode"
  | eof => "Eof"

/-- The kind shown under a given name. -/
def ofLabel? (s : String) : Option Kind := all.find? (·.label == s)

end Kind

end ClassNav
