import ClassNav.Grammar.Productions

/-!
# Parsing

How the rules of the language are run on a text.

* `Construct.parse` runs the rule of a construct with a limit on the nesting; past the limit,
  `Cursor.cutOff` puts the construct into one error node without looking inside.
* `parse` reads a whole text.
-/

namespace ClassNav

/-! ## Nesting -/

def Kind.opensGroup : Kind → Bool
  | lParen | lBrace => true
  | _ => false

def Kind.closesGroup : Kind → Bool
  | rParen | rBrace => true
  | _ => false

/-- Marks between the parts of a group. -/
def Kind.separates : Kind → Bool
  | semicolon | comma => true
  | _ => false

/-- How many tokens are passed over from a place with `depth` groups open. The stretch ends with
the bracket that closes the first group, or before a separator or a closing bracket that belongs to
a level further out. Trivia at its end stays outside. -/
def Token.swallow : (depth : Nat) → List Token → Nat
  | _, [] => 0
  | depth, t :: ts =>
    if t.isTrivia then
      match swallow depth ts with
      | 0 => 0
      | n + 1 => n + 2
    else if t.kind.opensGroup then swallow (depth + 1) ts + 1
    else if t.kind.closesGroup then
      match depth with
      | 0 => 0
      | 1 => 1
      | d + 2 => swallow (d + 1) ts + 1
    else if t.kind.separates && depth == 0 then 0
    else swallow depth ts + 1

/-- Passes over a construct that is nested too deeply. -/
def Cursor.cutOff (c : Cursor) : Outcome :=
  (c.report .nestingTooDeep).andThen fun c => c.gap.andThen fun c =>
    (c.take (Token.swallow 0 c.rest)).enclose .errorNode

namespace Construct

/-- Parses a construct in which constructs may be nested `levels` deep, itself included. -/
def parse : (levels : Nat) → Construct → Cursor → Outcome
  | 0, _, c => c.cutOff
  | n + 1, k, c => k.rule.run (parse n) c

end Construct

/-! ## Whole texts -/

/-- How deep constructs may be nested in a file. -/
def maxDepth : Nat := 256

/-- The tree of a text and its problems, in the order in which they were met. -/
structure Parsed where
  tree : Tree
  problems : List Problem
deriving DecidableEq, Repr, Inhabited

def parseTokens (ts : List Token) : Parsed :=
  let o := Rule.file.run (Construct.parse maxDepth) ⟨0, ts⟩
  ⟨.node .sourceFile o.trees, o.problems⟩

/-- Parses a text. Every text has a tree, which spells the text. -/
def parse (text : String) : Parsed := parseTokens (Token.scan text)

/-! ## What is reported -/

example : (parse "class A").problems.map Problem.display = ["expected a class body at 7..7"] := by
  decide +kernel

example : (parse "class A { function f() {)} }").problems.map Problem.fault =
    [.missingExpression, .missingSemicolon, .unexpectedToken] := by
  decide +kernel

end ClassNav
