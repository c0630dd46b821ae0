import ClassNav.Files.FileMap
import ClassNav.Files.Path
import ClassNav.Grammar.Parse
import ClassNav.Text.LineIndex

/-!
# The document store

The `Store` gives numbers to paths and keeps a `Document` for each number. A number is given once:
removing a file forgets its path, and the path gets a new number when it comes back. Paths are kept
by number and numbers by path, and the two are changed together.
-/

namespace ClassNav

/-- A text with its tree and its problems. -/
structure Document where
  text : String
  tree : Tree
  problems : List Problem
deriving DecidableEq, Repr, Inhabited

/-- The document of a text that was parsed as something else, or as itself. -/
def Document.ofParsed (text : String) (p : Parsed) : Document := ⟨text, p.tree, p.problems⟩

/-- Registered paths by number, their numbers by path, and stored documents. -/
structure Store where
  paths : List (FileId × Path)
  numbers : List (Path × FileId)
  documents : FileMap Document
  nextId : Nat

namespace Store

def empty : Store := ⟨[], [], .empty, 0⟩

instance : Inhabited Store := ⟨empty⟩

/-! ## Paths -/

def find? (s : Store) (p : Path) : Option FileId := (s.numbers.find? (·.1.same p)).map (·.2)

/-- The path of a registered number, as it was spelled when it was registered. -/
def path? (s : Store) (f : FileId) : Option Path := s.paths.lookup f

/-- The number of a path, which is registered if it is new. -/
def register (s : Store) (p : Path) : FileId × Store :=
  match s.find? p with
  | some f => (f, s)
  | none =>
    (⟨s.nextId⟩, { s with
      paths := s.paths ++ [(⟨s.nextId⟩, p)]
      numbers := s.numbers ++ [(p, ⟨s.nextId⟩)]
      nextId := s.nextId + 1 })

/-- How many paths are registered. -/
def size (s : Store) : Nat := s.numbers.length

def isEmpty (s : Store) : Bool := s.size == 0

/-! ## Documents -/

def setDocument (s : Store) (f : FileId) (d : Document) : Store :=
  { s with documents := s.documents.insert f d }

def setText (s : Store) (f : FileId) (text : String) : Store :=
  s.setDocument f (.ofParsed text (parse text))

/-- Forgets the path and the document of a number. The path is forgotten as it was spelled when it
was registered. -/
def remove (s : Store) (f : FileId) : Store :=
  { s with
    paths := s.paths.filter (·.1 ≠ f)
    numbers :=
      match s.path? f with
      | some p => s.numbers.filter fun e => !e.1.same p
      | none => s.numbers
    documents := s.documents.erase f }

def document? (s : Store) (f : FileId) : Option Document := s.documents.get? f

/-- The numbers that have a document, in ascending order. -/
def files (s : Store) : List FileId := s.documents.files

def text? (s : Store) (f : FileId) : Option String := (s.document? f).map Document.text

/-- The problems of a file; a file without document has none. -/
def problems (s : Store) (f : FileId) : List Problem :=
  ((s.document? f).map Document.problems).getD []

def tree? (s : Store) (f : FileId) : Option Tree :=
  ((s.document? f).map Document.tree).filter (Tree.isNode .sourceFile)

/-- The files with a tree, in ascending order. -/
def trees (s : Store) : List (FileId × Tree) :=
  s.files.filterMap fun f => (s.tree? f).map (f, ·)

def position? (s : Store) (f : FileId) (lc : LineCol) : Except RangeError (Option FilePosition) :=
  match s.text? f with
  | none => .ok none
  | some text => ((LineIndex.ofText text).offset? lc).map fun o => o.map (⟨f, ·⟩)

end Store

end ClassNav
