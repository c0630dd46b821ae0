import ClassNav.Symbols.Index

/-!
# Scopes and references

What a name may denote at a place. A scope is a node around the place that declares names: a
method declares its parameters, a member list its members. Inner scopes come first, then the
classes of the index.

* `SymbolIndex.candidates` lists everything that a reference may denote.
* `SymbolIndex.classFor?` picks the class that a reference names when only classes count.
-/

namespace ClassNav

namespace Site

/-- The declarations that a node adds to the scope of what is inside it. -/
def scopeDeclarations (s : Site) : List Site :=
  match s.kind with
  | .methodDecl => s.params
  | .classBody | .anonymousType => s.listedMembers
  | _ => []

/-- The classes that a node adds to the scope of what is inside it. -/
def scopeClasses (s : Site) : List Site :=
  match s.kind with
  | .classBody => s.classes
  | _ => []

/-- The declarations named `x` in the scopes around a place, from the innermost outwards. -/
def visible (s : Site) (x : String) : List Site :=
  s.ancestors.flatMap fun scope => scope.scopeDeclarations.filter (isNamed x)

/-- The class named `x` in the innermost class body around a place that declares one. -/
def visibleClass? (s : Site) (x : String) : Option Site :=
  (s.ancestors.flatMap scopeClasses).find? (isNamed x)

end Site

namespace SymbolIndex

/-- A list with those of some other entries added that are not in it yet. -/
def addNew (known : List DeclPtr) (ps : List DeclPtr) : List DeclPtr :=
  ps.foldl (fun acc p => if p ∈ acc then acc else acc ++ [p]) known

/-- Everything that a reference may denote, the likeliest first. -/
def candidates (ix : SymbolIndex) (file : FileId) (ref : Site) : List DeclPtr :=
  match ref.identifierText? with
  | none => []
  | some x => addNew ((ref.visible x).map (.ofSite file)) (ix.named x file)

/-- The class that a reference names: a nested one in scope, or else one of the index. -/
def classFor? (ix : SymbolIndex) (file : FileId) (ref : Site) : Option DeclPtr :=
  match ref.identifierText? with
  | none => none
  | some x => ((ref.visibleClass? x).map (.ofSite file)).or (ix.named x file).head?

end SymbolIndex

end ClassNav
