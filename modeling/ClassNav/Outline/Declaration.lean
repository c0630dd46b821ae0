import ClassNav.Syntax.Role

/-!
# Reading declarations

What a tree declares, read off its nodes: the classes of a file, the members of a class, the
parameters and types of members, and the names of all of them. Each reader takes the first child
of a kind, or all children of a kind, so that it answers on damaged trees as well.
-/

namespace ClassNav

namespace Kind

def isMember : Kind → Bool
  | methodDecl | varDecl | classDecl => true
  | _ => false

/-- Kinds of classes, named or not. -/
def isClassLike : Kind → Bool
  | classDecl | anonymousType => true
  | _ => false

def isNamed : Kind → Bool
  | classDecl | methodDecl | varDecl | param => true
  | _ => false

/-- Kinds of nodes that list the members of a class. -/
def isMemberList : Kind → Bool
  | classBody | anonymousType => true
  | _ => false

theorem isClassLike_ofKind (k : Kind) : (Role.ofKind k).isClassLike = k.isClassLike := by
  cases k <;> rfl

end Kind

namespace Site

/-! ## Names -/

/-- The identifier in a name or in a reference. -/
def identifier? (s : Site) : Option Site := s.token? .ident

def identifierText? (s : Site) : Option String := s.identifier?.map text

def nameNode? (s : Site) : Option Site := s.node? .name

/-- The text of a name node; a name without identifier reads as the empty text. -/
def nameText (s : Site) : String := s.identifierText?.getD ""

def name? (s : Site) : Option String := s.nameNode?.map nameText

def isNamed (x : String) (s : Site) : Bool := s.name? == some x

/-- The name node of a declaration that has one. -/
def declaredName? (s : Site) : Option Site :=
  if !s.isToken && s.kind.isNamed then s.nameNode? else none

/-! ## Classes -/

/-- The top-level classes of a file. -/
def classes (s : Site) : List Site := s.nodes .classDecl

def isClassLike (s : Site) : Bool := !s.isToken && s.kind.isClassLike

def asClass? (s : Site) : Option Site := if s.isClassLike then some s else none

def isInterface (s : Site) : Bool := (s.token? .interfaceKw).isSome

def extends? (s : Site) : Option Site := (s.node? .extendsClause).bind (node? .reference)

def implemented (s : Site) : List Site :=
  ((s.node? .implementsClause).map (nodes .reference)).getD []

def classBody? (s : Site) : Option Site := s.node? .classBody

/-- The members listed by the body of a class, or by an anonymous class itself. -/
def listedMembers (s : Site) : List Site := s.nodesWhere Kind.isMember

/-- The members of a class, named or not. -/
def members (s : Site) : List Site :=
  if s.kind = .anonymousType then s.listedMembers
  else (s.classBody?.map listedMembers).getD []

/-- The name of a class; an anonymous class has none. -/
def className? (s : Site) : Option String :=
  if s.kind = .anonymousType then none else s.name?

/-! ## Members and parameters -/

def params (s : Site) : List Site := ((s.node? .paramList).map (nodes .param)).getD []

def typeTag? (s : Site) : Option Site := s.node? .typeTag

def methodBody? (s : Site) : Option Site := s.node? .block

def isStatic (s : Site) : Bool := (s.token? .staticKw).isSome

/-- The type that a type tag names. -/
def typeReference? (s : Site) : Option Site := s.node? .reference

/-- The structure that a type tag spells out. -/
def typeStructure? (s : Site) : Option Site := s.node? .anonymousType

end Site

end ClassNav
