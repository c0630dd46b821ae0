import ClassNav.Outline.Declaration
import ClassNav.Symbols.DeclPtr
import ClassNav.Symbols.NameMap

/-!
# The symbol index

The named top-level classes of some files, by name. The classes of one name are kept in order, by
file and then by position, so `SymbolIndex.named` has only to put those of the asking file first.
-/

namespace ClassNav

/-- A named class and where it is declared. -/
structure Symbol where
  name : String
  ptr : DeclPtr
deriving DecidableEq, Repr, Inhabited

/-- The named top-level classes of a tree, in source order. -/
def symbolsOf (file : FileId) (t : Tree) : List Symbol :=
  (Site.root t).classes.filterMap fun c => c.name?.map fun x => ⟨x, .ofSite file c⟩

/-- Whether a declaration may stand before another: by file, then by where they start. -/
def DeclPtr.precedes (p q : DeclPtr) : Bool :=
  p.file < q.file || p.file = q.file && p.span.start ≤ q.span.start

/-- The named top-level classes of some files. -/
structure SymbolIndex where
  /-- The classes of each name. -/
  classes : NameMap (List DeclPtr)
  /-- The files whose classes are in the index. -/
  files : List FileId

namespace SymbolIndex

def empty : SymbolIndex := ⟨.empty, []⟩

instance : Inhabited SymbolIndex := ⟨empty⟩

/-- Puts a class among those of its name, and these in order. -/
def addSymbol (m : NameMap (List DeclPtr)) (s : Symbol) : NameMap (List DeclPtr) :=
  m.update s.name fun ps? => (ps?.getD [] ++ [s.ptr]).mergeSort DeclPtr.precedes

/-- What is left of the classes of a name without those of a file, if anything is. -/
def dropFile (file : FileId) (ps : List DeclPtr) : Option (List DeclPtr) :=
  let rest := ps.filter (·.file ≠ file)
  if rest.isEmpty then none else some rest

/-- Takes the classes of a file out of the index. -/
def removeFile (ix : SymbolIndex) (file : FileId) : SymbolIndex :=
  if file ∈ ix.files then ⟨ix.classes.retain (dropFile file), ix.files.filter (· ≠ file)⟩ else ix

/-- Puts the classes of a file into the index, in place of those it had there. -/
def addFile (ix : SymbolIndex) (file : FileId) (t : Tree) : SymbolIndex :=
  let rest := ix.removeFile file
  ⟨(symbolsOf file t).foldl addSymbol rest.classes, rest.files ++ [file]⟩

/-- The index of some files, added one after the other. -/
def build (trees : List (FileId × Tree)) : SymbolIndex :=
  trees.foldl (fun ix (f, t) => ix.addFile f t) empty

/-- Every class in the index, name by name. -/
def toList (ix : SymbolIndex) : List DeclPtr := ix.classes.entries.flatMap (·.2)

def size (ix : SymbolIndex) : Nat := ix.toList.length

def isEmpty (ix : SymbolIndex) : Bool := ix.classes.entries.isEmpty

/-- The classes named `x`, as seen from the file `home`. -/
def named (ix : SymbolIndex) (x : String) (home : FileId) : List DeclPtr :=
  match ix.classes.get? x with
  | none => []
  | some ps =>
    let (own, others) := ps.partition (·.file = home)
    own ++ others

end SymbolIndex

end ClassNav
