import ClassNav.Files.Store
import ClassNav.Symbols.Scope

/-!
# The host

The `Host` owns a store and the symbol index of its files. Every edit marks the index as stale,
and `Host.refresh` builds it anew before questions are asked.
-/

namespace ClassNav

/-- A store, an index, and whether the index may be out of date. -/
structure Host where
  store : Store
  index : SymbolIndex
  stale : Bool

namespace Host

def empty : Host := ⟨.empty, .empty, false⟩

instance : Inhabited Host := ⟨empty⟩

def setDocument (h : Host) (p : Path) (d : Document) : FileId × Host :=
  let (f, s) := h.store.register p
  (f, { h with store := s.setDocument f d, stale := true })

/-- Parses a text and stores it under a path. -/
def setText (h : Host) (p : Path) (text : String) : FileId × Host :=
  h.setDocument p (.ofParsed text (parse text))

/-- Removes the document of a path. A path that was never registered uses up a number. -/
def removePath (h : Host) (p : Path) : Host :=
  let (f, s) := h.store.register p
  { h with store := s.remove f, stale := true }

/-- How many paths are registered. -/
def fileCount (h : Host) : Nat := h.store.size

/-- The index of the files of a store. -/
def indexOf (s : Store) : SymbolIndex := .build s.trees

/-- Builds the index anew if it is stale. -/
def refresh (h : Host) : Host :=
  if h.stale then { h with index := indexOf h.store, stale := false } else h

end Host

end ClassNav
