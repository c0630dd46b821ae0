import ClassNav.Syntax.Tree
import ClassNav.Grammar.Problem

/-!
# Reading tokens

A `Cursor` is the place that parsing has reached, an `Outcome` what a stretch of parsing yields:
finished trees, problems, and the place reached.

* `Cursor.peek` looks past blanks, comments and whatever else it is told to skip.
* `Cursor.take` is the only way in which tokens become leaves, and `Cursor.gap` and `Cursor.bump`
  are the two ways of counting them.
* `Outcome.andThen` puts two stretches in sequence.
-/

namespace ClassNav

/-- The tokens that are left, blanks and comments included, and the bytes before them. -/
structure Cursor where
  offset : Nat
  rest : List Token
deriving DecidableEq, Repr, Inhabited

/-- What a stretch of parsing yields. -/
structure Outcome where
  trees : List Tree
  problems : List Problem
  cursor : Cursor
deriving DecidableEq, Repr, Inhabited

/-! ## Looking ahead -/

namespace Cursor

/-- The kind of the first token that is neither trivia nor skipped; `eof` if there is none. -/
def peek (skip : Kind → Bool) (c : Cursor) : Kind :=
  ((c.rest.find? fun t => !(t.isTrivia || skip t.kind)).map Token.kind).getD .eof

/-- The kind of the next significant token. -/
def current (c : Cursor) : Kind := c.peek fun _ => false

/-- How many blanks and comments come first. -/
def triviaCount (c : Cursor) : Nat := (c.rest.takeWhile Token.isTrivia).length

/-- The kind of the significant token after the next one. -/
def second (c : Cursor) : Kind :=
  current { c with rest := c.rest.drop (c.triviaCount + 1) }

def width : List Token → Nat
  | [] => 0
  | t :: ts => t.size + width ts

/-- The bytes of the next significant token: an empty range at the end of the text if there is
none. -/
def location (c : Cursor) : Nat × Nat :=
  let start := c.offset + width (c.rest.takeWhile Token.isTrivia)
  (start, start + width ((c.rest.drop c.triviaCount).take 1))

def advance (n : Nat) (c : Cursor) : Cursor :=
  ⟨c.offset + width (c.rest.take n), c.rest.drop n⟩

/-! ## Moving tokens into the tree -/

/-- Makes leaves of the next `n` tokens. -/
def take (n : Nat) (c : Cursor) : Outcome :=
  ⟨(c.rest.take n).map .leaf, [], c.advance n⟩

/-- Takes the trivia before the next significant token. -/
def gap (c : Cursor) : Outcome := c.take c.triviaCount

/-- Takes the next significant token with the trivia before it. -/
def bump (c : Cursor) : Outcome := c.take (c.triviaCount + 1)

def stay (c : Cursor) : Outcome := ⟨[], [], c⟩

/-- Reports a fault at the next significant token. -/
def report (f : Fault) (c : Cursor) : Outcome :=
  ⟨[], [⟨f, c.location.1, c.location.2⟩], c⟩

end Cursor

/-! ## Combining outcomes -/

namespace Outcome

/-- Goes on from where an outcome ended. -/
def andThen (o : Outcome) (next : Cursor → Outcome) : Outcome :=
  let o' := next o.cursor
  ⟨o.trees ++ o'.trees, o.problems ++ o'.problems, o'.cursor⟩

/-- Makes one node of everything an outcome yielded. -/
def enclose (k : Kind) (o : Outcome) : Outcome := { o with trees := [.node k o.trees] }

end Outcome

end ClassNav
