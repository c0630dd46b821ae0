import ClassNav.Syntax.Kind

/-!
# Tokens and the scanner

`Token.scan` cuts a text into tokens by longest match.

* `Token.extent` gives the kind of the token at the front of a text and how far it reaches.
* `Token.scanChars` repeats it; it recurses on the characters themselves and counts down the
  ones that the current token has already taken.

Every character lands in exactly one token, so the texts of the tokens spell the input.
-/

namespace ClassNav

/-- A piece of text with its kind. -/
structure Token where
  kind : Kind
  text : String
deriving DecidableEq, Repr, Inhabited

namespace Token

/-- The length of a token in bytes. -/
def size (t : Token) : Nat := t.text.utf8ByteSize

/-- Whether a token is a blank or a comment. -/
def isTrivia (t : Token) : Bool := t.kind.isTrivia

/-! ## Character classes -/

def isBlank (c : Char) : Bool :=
  c == ' ' || c == '\t' || c == '\r' || c == '\n' || c == '\x0c'

def isWordStart (c : Char) : Bool := c.isAlpha || c == '_'

def isWordPart (c : Char) : Bool := c.isAlphanum || c == '_'

/-- Characters that continue the whole part of a number. -/
def isNumberPart (c : Char) : Bool := c.isDigit || c == '_'

/-- The kind of a token that consists of one character. -/
def punctuation? : Char → Option Kind
  | '\x7b' => some .lBrace
  | '\x7d' => some .rBrace
  | '(' => some .lParen
  | ')' => some .rParen
  | ';' => some .semicolon
  | ':' => some .colon
  | ',' => some .comma
  | '.' => some .dot
  | '=' => some .eq
  | '+' | '-' | '*' | '/' | '%' | '<' | '>' | '!' | '&' | '|' | '^' | '~' | '?' => some .op
  | _ => none

/-! ## How far a token reaches -/

/-- The number of leading characters that satisfy `p`. -/
def runLength (p : Char → Bool) (cs : List Char) : Nat := (cs.takeWhile p).length

/-- The number of characters up to and including the first end of a block comment, or all of
them if the comment is left open. -/
def blockCommentLength : List Char → Nat
  | [] => 0
  | '*' :: '/' :: _ => 2
  | _ :: cs => blockCommentLength cs + 1

/-- The length of a fraction, which needs a digit after its dot. -/
def fractionLength : List Char → Nat
  | '.' :: c :: cs => if c.isDigit then runLength Char.isDigit cs + 2 else 0
  | _ => 0

/-- The length of what follows the first digit of a number. -/
def numberLength (cs : List Char) : Nat :=
  let whole := runLength isNumberPart cs
  whole + fractionLength (cs.drop whole)

/-- What follows an opening quote `q`: whether the string is closed, and its length. A string
stays open if the input ends, or before a backslash that escapes nothing: one at the end of the
input or at the end of a line. -/
def quoted (q : Char) : List Char → Bool × Nat
  | [] => (false, 0)
  | c :: cs =>
    if c = q then (true, 1)
    else if c = '\\' then
      match cs with
      | [] => (false, 0)
      | e :: rest =>
        if e = '\n' then (false, 0)
        else ((quoted q rest).1, (quoted q rest).2 + 2)
    else ((quoted q cs).1, (quoted q cs).2 + 1)

/-- The token that starts with `c` before `cs`: its kind, and how many characters of `cs` it
takes. -/
def extent (c : Char) (cs : List Char) : Kind × Nat :=
  if isBlank c then (.whitespace, runLength isBlank cs)
  else if isWordStart c then
    let n := runLength isWordPart cs
    (.ofWord (String.ofList (c :: cs.take n)), n)
  else if c.isDigit then (.number, numberLength cs)
  else if c = '"' ∨ c = '\'' then
    match quoted c cs with
    | (true, n) => (.string, n)
    | (false, n) => (.error, n)
  else
    match c, cs with
    | '/', '/' :: rest => (.comment, runLength (· != '\n') rest + 1)
    | '/', '*' :: rest => (.comment, blockCommentLength rest + 1)
    | _, _ => ((punctuation? c).getD .error, 0)

/-- The tokens of a text of whose first token `pending` more characters have been taken. -/
def scanFrom : Nat → List Char → List Token
  | _, [] => []
  | pending + 1, _ :: cs => scanFrom pending cs
  | 0, c :: cs =>
    let (kind, n) := extent c cs
    ⟨kind, String.ofList (c :: cs.take n)⟩ :: scanFrom n cs

def scanChars (cs : List Char) : List Token := scanFrom 0 cs

/-- The tokens of a text. -/
def scan (text : String) : List Token := scanChars text.toList

/-! ## Skipping what has been taken -/

/-- Characters that were taken already are passed over. -/
theorem scanFrom_eq_scanChars_drop (n : Nat) (cs : List Char) :
    scanFrom n cs = scanChars (cs.drop n) := by
  induction cs generalizing n with
  | nil => cases n <;> simp [scanChars, scanFrom]
  | cons c cs ih =>
    cases n with
    | zero => rfl
    | succ n => simpa [scanFrom] using ih n

theorem scanChars_nil : scanChars [] = [] := rfl

theorem scanChars_cons (c : Char) (cs : List Char) :
    scanChars (c :: cs) =
      ⟨(extent c cs).1, String.ofList (c :: cs.take (extent c cs).2)⟩ ::
        scanChars (cs.drop (extent c cs).2) := by
  rw [← scanFrom_eq_scanChars_drop]; rfl

/-! ## Boundaries between tokens -/

example : (scan "1.x").map kind = [.number, .dot, .ident] := by decide +kernel

example : (scan "1.5_").map kind = [.number, .ident] := by decide +kernel

example : scan "'a\\\n" = [⟨.error, "'a"⟩, ⟨.error, "\\"⟩, ⟨.whitespace, "\n"⟩] := by decide +kernel

example : scan "/*/ a" = [⟨.comment, "/*/ a"⟩] := by decide +kernel

end Token

end ClassNav
