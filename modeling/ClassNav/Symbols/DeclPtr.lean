import ClassNav.Syntax.Role
import ClassNav.Text.Position

/-!
# Pointers to declarations

A `DeclPtr` remembers a declaration by its file, kind and range, without holding on to a tree.
`DeclPtr.resolve?` finds the declaration again: it goes down to the smallest element around the
range and from there up to the first node with the kind and the range.
-/

namespace ClassNav

/-- A declaration, by file, kind and range. -/
structure DeclPtr where
  file : FileId
  kind : Kind
  span : Span
deriving DecidableEq, Repr, Inhabited

namespace DeclPtr

/-- The pointer to an element of a file. -/
def ofSite (file : FileId) (s : Site) : DeclPtr := ⟨file, s.kind, s.span⟩

def role (p : DeclPtr) : Role := .ofKind p.kind

/-- Whether an element has the kind and the range of a pointer. -/
def fits (p : DeclPtr) (s : Site) : Bool := s.kind == p.kind && s.span == p.span

/-- An element, or the node around it if it is a token. -/
def nodeAt? (s : Site) : Option Site := if s.isToken then s.parent? else some s

/-- The declaration in the tree under `root`, which has to be the root of a tree. -/
def resolve? (p : DeclPtr) (root : Site) : Option Site :=
  if root.parent?.isSome || !p.span.within root.span then none
  else (nodeAt? (root.covering p.span)).bind fun s => s.ancestors.find? p.fits

/-- A pointer as it is shown to a reader. -/
def display (p : DeclPtr) : String :=
  "DeclPtr(FileId(" ++ toString p.file.index ++ "):" ++ p.kind.label ++ "@" ++ p.span.display ++ ")"

end DeclPtr

end ClassNav
