/-!
# Paths

A `Path` keeps the way it was spelled. What it leads to is its list of components: repeated
slashes, a slash at the end and dots for the current directory do not matter, except for a dot at
the very front.
-/

namespace ClassNav

/-- One step of a path. -/
inductive Component
  | root
  | current
  | parent
  | normal (name : String)
deriving DecidableEq, Repr, Inhabited

namespace Component

/-- The step that a piece of a path after the first makes, if it makes one. -/
def ofPiece? : List Char → Option Component
  | [] => none
  | ['.'] => none
  | ['.', '.'] => some parent
  | w => some (normal (String.ofList w))

/-- The place of a kind of step in the order of paths. -/
def rank : Component → Nat
  | root => 0
  | current => 1
  | parent => 2
  | normal _ => 3

def name : Component → String
  | normal x => x
  | _ => ""

/-- The order of steps: by kind, names by their characters. -/
def compare (a b : Component) : Ordering :=
  (Ord.compare a.rank b.rank).then (Ord.compare a.name b.name)

end Component

/-- A path as it was spelled. -/
structure Path where
  spelling : String
deriving DecidableEq, Repr, Inhabited

namespace Path

/-- What stands between the slashes of a path. -/
def pieces (p : Path) : List (List Char) := p.spelling.toList.splitOn '/'

def components (p : Path) : List Component :=
  match p.pieces with
  | [] => []
  | [[]] => []
  | [] :: ws => .root :: ws.filterMap Component.ofPiece?
  | ['.'] :: ws => .current :: ws.filterMap Component.ofPiece?
  | ws => ws.filterMap Component.ofPiece?

/-- Whether two paths take the same steps. -/
def same (p q : Path) : Bool := p.components == q.components

/-- The order of lists of steps: step by step, and a path comes before those below it. -/
def compareSteps : List Component → List Component → Ordering
  | [], [] => .eq
  | [], _ :: _ => .lt
  | _ :: _, [] => .gt
  | a :: as, b :: bs => (a.compare b).then (compareSteps as bs)

/-- Whether a path comes no later than another in the order of paths. -/
def le (p q : Path) : Bool := (compareSteps p.components q.components).isLE

/-- The path of a name in the directory that a path leads to. -/
def join (p : Path) (x : String) : Path :=
  match p.spelling.toList.getLast? with
  | none | some '/' => ⟨p.spelling ++ x⟩
  | some _ => ⟨p.spelling ++ "/" ++ x⟩

/-- The path of a spelling that is read from the top directory. -/
def fromTop (spelling : String) : Path := ⟨"/" ++ spelling⟩

/-- A path as it is spelled from the top directory. -/
def belowTop (p : Path) : Path :=
  match p.spelling.toList with
  | '/' :: cs => ⟨String.ofList cs⟩
  | _ => p

/-- A path without the pieces at its ends that make no step. -/
def trimmed (p : Path) : Path :=
  let front := p.pieces.dropWhile (Component.ofPiece? · == none)
  let core := (front.reverse.dropWhile (Component.ofPiece? · == none)).reverse
  ⟨String.ofList (['/'].intercalate core)⟩

/-- The name of the file that a path leads to. -/
def fileName? (p : Path) : Option String :=
  match p.components.getLast? with
  | some (.normal x) => some x
  | _ => none

/-- What follows the last dot of a list of pieces of a file name. A dot at the front of the name
starts no extension. -/
def extensionOf : List (List Char) → Option (List Char)
  | [] | [_] | [[], _] => none
  | _ :: ws => ws.getLast?

/-- The extension of the file name of a path: what follows its last dot. -/
def extension? (p : Path) : Option String :=
  p.fileName?.bind fun x => (extensionOf (x.toList.splitOn '.')).map String.ofList

/-! ## Steps and extensions -/

example : same ⟨"a//b/"⟩ ⟨"a/./b"⟩ = true := by decide +kernel

example : same ⟨"./a"⟩ ⟨"a"⟩ = false := by decide +kernel

example : trimmed ⟨"/./a//b/."⟩ = ⟨"a//b"⟩ := by decide +kernel

example : le ⟨"a/b.hx"⟩ ⟨"a-b.hx"⟩ = true := by decide +kernel

example : [".hx", "x.", "..hx", "x"].map (fun s => extension? ⟨s⟩) =
    [none, some "", some "hx", none] := by decide +kernel

end Path

end ClassNav
