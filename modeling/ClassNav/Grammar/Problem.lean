/-!
# Syntax problems

What can be wrong with a text is a `Fault`; a `Problem` is a fault at a place. The wording of all
faults is in `Fault.message`.
-/

namespace ClassNav

/-- What the grammar missed, or refused. -/
inductive Fault
  | missingDeclaration
  | missingClassName
  | missingClassBody
  | missingMember
  | missingMethodName
  | missingMethodBody
  | missingVariableName
  | missingParameterList
  | missingParameterName
  | missingTypeName
  | missingFieldName
  | missingExpression
  | missingSemicolon
  | missingCloseBrace
  | missingCloseParen
  | misplacedDeclaration
  | unexpectedToken
  | nestingTooDeep
deriving DecidableEq, Repr, Inhabited

namespace Fault

def message : Fault → String
  | missingDeclaration => "expected a class or interface declaration"
  | missingClassName => "expected a class name"
  | missingClassBody => "expected a class body"
  | missingMember => "expected a member declaration"
  | missingMethodName => "expected a method name"
  | missingMethodBody => "expected a method body or `;`"
  | missingVariableName => "expected a variable name"
  | missingParameterList => "expected a parameter list"
  | missingParameterName => "expected a parameter name"
  | missingTypeName => "expected a type name"
  | missingFieldName => "expected a field name"
  | missingExpression => "expected an expression"
  | missingSemicolon => "expected `;`"
  | missingCloseBrace => "expected `\x7d`"
  | missingCloseParen => "expected `)`"
  | misplacedDeclaration => "declarations are not allowed in a method body"
  | unexpectedToken => "unexpected token"
  | nestingTooDeep => "nesting too deep"

end Fault

/-- A fault and the bytes it concerns: those of a token, or none at the end of the text. -/
structure Problem where
  fault : Fault
  start : Nat
  stop : Nat
deriving DecidableEq, Repr, Inhabited

namespace Problem

def message (p : Problem) : String := p.fault.message

/-- A problem with its place, as it is shown to a reader. -/
def display (p : Problem) : String :=
  p.message ++ " at " ++ toString p.start ++ ".." ++ toString p.stop

end Problem

end ClassNav
