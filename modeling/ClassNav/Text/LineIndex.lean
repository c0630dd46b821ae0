/-!
# Lines and columns

`LineIndex` turns bytes of a text into lines and columns and back. Lines and columns count from
zero, columns in bytes; both are 32-bit words, and an addition that leaves that range is an error.
-/

namespace ClassNav

/-- A line and a column, both counted from zero. -/
structure LineCol where
  line : UInt32
  col : UInt32
deriving DecidableEq, Repr, Inhabited

/-- Arithmetic that left the range of 32-bit words. -/
inductive RangeError
  | addition
deriving DecidableEq, Repr, Inhabited

def RangeError.message : RangeError → String
  | addition => "attempt to add with overflow"

/-- The sum of two numbers, if it fits into 32 bits. -/
def addWords (a b : Nat) : Except RangeError Nat :=
  if a + b < UInt32.size then .ok (a + b) else .error .addition

/-- A line and a column as they are shown to a reader, who counts from one. -/
def LineCol.display (lc : LineCol) : Except RangeError String := do
  let line ← addWords lc.line.toNat 1
  let col ← addWords lc.col.toNat 1
  return toString line ++ ":" ++ toString col

/-- Where the lines of a text start, and how long the text is, in bytes. -/
structure LineIndex where
  starts : List Nat
  length : Nat
deriving DecidableEq, Repr, Inhabited

namespace LineIndex

/-- The bytes after the line ends of a text that starts at byte `start`. -/
def startsAfter (start : Nat) : List Char → List Nat
  | [] => []
  | c :: cs =>
    if c = '\n' then (start + c.utf8Size) :: startsAfter (start + c.utf8Size) cs
    else startsAfter (start + c.utf8Size) cs

/-- The line index of a text. -/
def ofText (text : String) : LineIndex := ⟨0 :: startsAfter 0 text.toList, text.utf8ByteSize⟩

/-- How many lines there are; a text that ends with a line end has an empty last line. -/
def lineCount (ix : LineIndex) : Nat := ix.starts.length

/-- The line and column of a byte; the end of the text has one, too. -/
def lineCol? (ix : LineIndex) (offset : Nat) : Option LineCol :=
  if ix.length < offset then none
  else
    let line := (ix.starts.takeWhile (· ≤ offset)).length - 1
    some ⟨line.toUInt32, (offset - ix.starts[line]?.getD 0).toUInt32⟩

/-- Where line `line` ends: at the start of the next one, or at the end of the text. -/
def lineStop (ix : LineIndex) (line : Nat) : Nat := ix.starts[line + 1]?.getD ix.length

/-- The byte at a line and column, if there is such a line and the column is not past its end. -/
def offset? (ix : LineIndex) (lc : LineCol) : Except RangeError (Option Nat) :=
  match ix.starts[lc.line.toNat]? with
  | none => .ok none
  | some start =>
    (addWords start lc.col.toNat).map fun offset =>
      if offset ≤ ix.lineStop lc.line.toNat then some offset else none

end LineIndex

end ClassNav
