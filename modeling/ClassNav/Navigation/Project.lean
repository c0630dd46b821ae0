import ClassNav.Files.Host

/-!
# Projects

A `Project` is what queries may ask: for the tree of a file, and for the meaning of a reference.
The answers about references come from a monad `m`, so that a resolver may be a plain function, or
one that keeps a record of what it was asked.

* `Host.project` answers from the store and the index of a host.
* `Project.classOf?`, `Project.classOfIdentifier?` and `Project.classByExpression?` are the three
  ways from a reference to a class.
-/

namespace ClassNav

/-- Access to trees and to the meaning of references. -/
structure Project (m : Type → Type) where
  /-- The tree of a file. -/
  tree? : FileId → Option Tree
  /-- Everything that a reference in a file may denote, the likeliest first. -/
  candidates : FileId → Site → m (List DeclPtr)
  /-- The class that a reference in a file names. -/
  class? : FileId → Site → m (Option DeclPtr)

/-- The project of the current documents of a host, with the index as it stands. -/
def Host.project (h : Host) : Project Id where
  tree? := h.store.tree?
  candidates := h.index.candidates
  class? := h.index.classFor?

namespace Project

variable {m : Type → Type} [Monad m]

def root? (p : Project m) (f : FileId) : Option Site := (p.tree? f).map Site.root

/-- The declaration behind a pointer, in the tree that its file has now. -/
def resolve? (p : Project m) (ptr : DeclPtr) : Option Site := (p.root? ptr.file).bind ptr.resolve?

/-- The first class among some candidates that can be found. -/
def firstClass? (p : Project m) (cs : List DeclPtr) : Option Site :=
  ((cs.filter (·.role.isClassLike)).findSome? p.resolve?).bind Site.asClass?

/-- The first class that a reference may denote. A reference without identifier is not asked
about. -/
def classOf? (p : Project m) (f : FileId) (ref : Site) : m (Option Site) :=
  match ref.identifier? with
  | none => pure none
  | some _ => p.firstClass? <$> p.candidates f ref

/-- The class among the candidates for an identifier: the only candidate, if it is a class, or the
first class of several. -/
def chooseClass? (p : Project m) : List DeclPtr → Option Site
  | [] => none
  | [ptr] => (p.resolve? ptr).bind Site.asClass?
  | ptrs => p.firstClass? ptrs

/-- The class that an identifier directly inside a reference denotes. -/
def classOfIdentifier? (p : Project m) (f : FileId) (ident : Site) : m (Option Site) :=
  match ident.kind, ident.parent?.filter (Site.isNode .reference) with
  | .ident, some ref => p.chooseClass? <$> p.candidates f ref
  | _, _ => pure none

/-- The class that a reference names when only classes count. -/
def classByExpression? (p : Project m) (f : FileId) (ref : Site) : m (Option Site) :=
  (fun c => c.bind fun ptr => (p.resolve? ptr).bind Site.asClass?) <$> p.class? f ref

end Project

end ClassNav
