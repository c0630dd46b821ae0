import ClassNav.Syntax.Site

/-!
# Roles of elements

Navigation cares only about files, classes, methods, references and leaves. `Role` is that coarse
view of an element, `RoleSet` a set of roles, and `Site.enclosing?` the walk outwards from an
element to the nearest one in a set.
-/

namespace ClassNav

/-- What an element is to a query. -/
inductive Role
  | file
  | classDecl
  | anonymousClass
  | method
  | reference
  | leaf
  | other
deriving DecidableEq, Repr, Inhabited

namespace Role

def all : List Role := [file, classDecl, anonymousClass, method, reference, leaf, other]

def ofKind : Kind → Role
  | .sourceFile => file
  | .classDecl => classDecl
  | .anonymousType => anonymousClass
  | .methodDecl => method
  | .reference => reference
  | _ => other

def isClassLike : Role → Bool
  | classDecl | anonymousClass => true
  | _ => false

def isMethodLike : Role → Bool
  | method => true
  | _ => false

/-- The name under which a role is shown. -/
def label : Role → String
  | file => "File"
  | classDecl => "ClassDecl"
  | anonymousClass => "AnonymousClassDecl"
  | method => "MethodDecl"
  | reference => "Reference"
  | leaf => "Leaf"
  | other => "Other"

end Role

/-- The role of an element: every token is a leaf, whatever its kind. -/
def Site.role (s : Site) : Role := if s.isToken then .leaf else .ofKind s.kind

/-! ## Sets of roles -/

/-- A set of roles, one bit for each. -/
structure RoleSet where
  bits : UInt8
deriving DecidableEq, Repr, Inhabited

namespace RoleSet

def empty : RoleSet := ⟨0⟩

def single : Role → RoleSet
  | .file => ⟨1⟩
  | .classDecl => ⟨2⟩
  | .anonymousClass => ⟨4⟩
  | .method => ⟨8⟩
  | .reference => ⟨16⟩
  | .leaf => ⟨32⟩
  | .other => ⟨64⟩

def union (a b : RoleSet) : RoleSet := ⟨a.bits ||| b.bits⟩

def contains (s : RoleSet) (r : Role) : Bool := s.bits &&& (single r).bits == (single r).bits

/-- Classes, named or not. -/
def classLike : RoleSet := union (single .classDecl) (single .anonymousClass)

theorem contains_empty (r : Role) : empty.contains r = false := by cases r <;> decide

theorem contains_single (r q : Role) : (single r).contains q = decide (r = q) := by
  cases r <;> cases q <;> decide

/-- The set of classes and the test for classes agree. -/
theorem contains_classLike (r : Role) : classLike.contains r = r.isClassLike := by
  cases r <;> decide

end RoleSet

/-! ## Walking outwards -/

namespace Site

/-- The first of some elements whose role is wanted, unless one with a role to stop at comes
before it. -/
def firstWanted? (wanted stop : RoleSet) : List Site → Option Site
  | [] => none
  | s :: up =>
    if wanted.contains s.role then some s
    else if stop.contains s.role then none
    else firstWanted? wanted stop up

/-- The nearest element with a wanted role, going outwards from an element and starting with it. -/
def enclosing? (s : Site) (wanted stop : RoleSet) : Option Site :=
  firstWanted? wanted stop s.ancestors

/-- The innermost class around an element, within its file. Unless they are allowed, anonymous
classes are passed over. -/
def enclosingClass? (s : Site) (allowAnonymous : Bool) : Option Site :=
  s.enclosing? (if allowAnonymous then .classLike else .single .classDecl) (.single .file)

def enclosingFile? (s : Site) : Option Site := s.enclosing? (.single .file) .empty

end Site

end ClassNav
