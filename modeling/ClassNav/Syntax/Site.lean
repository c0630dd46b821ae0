import ClassNav.Syntax.Tree

/-!
# Places in a tree

A `Site` is an element of a tree together with where it stands: its first byte and the steps that
lead down to it. Going up, down and through a tree are functions on sites.

* `Site.root`, `Site.children`, `Site.parent?`, `Site.ancestors` and `Site.descendants` move.
* `Site.leafAt?` finds the token over a byte, `Site.covering` the smallest element around a range.
* `Site.same` tells whether two sites are one element.
-/

namespace ClassNav

/-- A range of bytes, from `start` to before `stop`. -/
structure Span where
  start : Nat
  stop : Nat
deriving DecidableEq, Repr, Inhabited

namespace Span

/-- Whether a range lies within another; an empty range lies within those it touches. -/
def within (s outer : Span) : Bool := outer.start ≤ s.start && s.stop ≤ outer.stop

def isEmpty (s : Span) : Bool := s.start == s.stop

/-- Whether a byte lies in a range. -/
def covers (s : Span) (offset : Nat) : Bool := s.start ≤ offset && offset < s.stop

/-- A range as it is shown to a reader. -/
def display (s : Span) : String := toString s.start ++ ".." ++ toString s.stop

end Span

/-- A step down from a node to one of its children: the node, its first byte, and the number of
the child. -/
structure Step where
  tree : Tree
  start : Nat
  child : Nat
deriving DecidableEq, Repr, Inhabited

namespace Step

def first (t : Tree) (start : Nat) : Step := ⟨t, start, 0⟩

def next (s : Step) : Step := ⟨s.tree, s.start, s.child + 1⟩

end Step

/-- An element of a tree: the element itself, its first byte, and the steps from the root down to
it, last step first. -/
structure Site where
  tree : Tree
  start : Nat
  above : List Step
deriving DecidableEq, Repr, Inhabited

namespace Tree

mutual

/-- A tree at a place and everything below it, in preorder. -/
def sites (above : List Step) (start : Nat) : Tree → List Site
  | leaf t => [⟨leaf t, start, above⟩]
  | node k cs =>
    ⟨node k cs, start, above⟩ :: forestSites (.first (node k cs) start) above start cs

/-- Neighbouring trees and everything below them, in preorder; `step` leads to the first. -/
def forestSites (step : Step) (above : List Step) (start : Nat) : List Tree → List Site
  | [] => []
  | t :: ts =>
    t.sites (step :: above) start ++ forestSites step.next above (start + t.size) ts

end

mutual

/-- The token over a byte that is known to lie in the tree. -/
def leafAt? (offset : Nat) (above : List Step) (start : Nat) : Tree → Option Site
  | leaf t => some ⟨leaf t, start, above⟩
  | node k cs => forestLeafAt? offset (.first (node k cs) start) above start cs

/-- The token over a byte in the first of some neighbouring trees that has it. -/
def forestLeafAt? (offset : Nat) (step : Step) (above : List Step) (start : Nat) :
    List Tree → Option Site
  | [] => none
  | t :: ts =>
    if (Span.mk start (start + t.size)).covers offset then t.leafAt? offset (step :: above) start
    else forestLeafAt? offset step.next above (start + t.size) ts

end

/-- Whether neighbouring trees start with an element that a range stands on: both are empty. -/
def startsEmptyAt (s : Span) : List Tree → Bool
  | [] => false
  | t :: _ => s.isEmpty && t.size == 0

mutual

/-- The smallest element around a range that is known to lie within the tree. -/
def covering (s : Span) (above : List Step) (start : Nat) : Tree → Site
  | leaf t => ⟨leaf t, start, above⟩
  | node k cs =>
    (forestCovering? s (.first (node k cs) start) above start cs).getD ⟨node k cs, start, above⟩

/-- The smallest element around a range, among neighbouring trees and what is below them. Where an
empty range touches several of them, it belongs to the last that ends there, if any does. -/
def forestCovering? (s : Span) (step : Step) (above : List Step) (start : Nat) :
    List Tree → Option Site
  | [] => none
  | t :: ts =>
    if s.within ⟨start, start + t.size⟩ &&
        !(s.stop == start + t.size && startsEmptyAt s ts) then
      some (t.covering s (step :: above) start)
    else forestCovering? s step.next above (start + t.size) ts

end

end Tree

namespace Site

/-! ## Shape -/

def root (t : Tree) : Site := ⟨t, 0, []⟩

def kind (s : Site) : Kind := s.tree.kind

def isToken (s : Site) : Bool := s.tree.isToken

def isNode (k : Kind) (s : Site) : Bool := s.tree.isNode k

def span (s : Site) : Span := ⟨s.start, s.start + s.tree.size⟩

/-- An element with its kind and range, as it is shown to a reader. -/
def display (s : Site) : String := s.kind.label ++ "@" ++ s.span.display

/-- The number of the child at each step from the root down to an element, last step first. -/
def path (s : Site) : List Nat := s.above.map Step.child

/-- Whether two sites of one tree are the same element: equal trees at the same byte, reached in
the same way. Where equal copies are kept as one, the way does not matter. -/
def same (s t : Site) : Bool :=
  s.start == t.start && decide (s.tree = t.tree) && (s.tree.isShared || s.path == t.path)

theorem same_self (s : Site) : s.same s = true := by simp [same]

/-! ## Up -/

/-- The node around an element. -/
def parent? (s : Site) : Option Site :=
  match s.above with
  | [] => none
  | step :: up => some ⟨step.tree, step.start, up⟩

/-- The nodes that some steps lead down from, innermost first. -/
def climb : List Step → List Site
  | [] => []
  | step :: up => ⟨step.tree, step.start, up⟩ :: climb up

/-- An element and the nodes around it, innermost first. -/
def ancestors (s : Site) : List Site := s :: climb s.above

/-- The root of the tree an element belongs to. -/
def top (s : Site) : Site := s.ancestors.getLast (by simp [ancestors])

/-! ## Down -/

/-- Neighbouring trees as sites, the first at byte `start` and reached by `step`. -/
def row (above : List Step) : (step : Step) → (start : Nat) → List Tree → List Site
  | _, _, [] => []
  | step, start, t :: ts => ⟨t, start, step :: above⟩ :: row above step.next (start + t.size) ts

def children (s : Site) : List Site :=
  row s.above (.first s.tree s.start) s.start s.tree.children

/-- An element and everything below it, in preorder. -/
def descendants (s : Site) : List Site := s.tree.sites s.above s.start

/-- The nodes directly under an element whose kind satisfies `p`. -/
def nodesWhere (p : Kind → Bool) (s : Site) : List Site :=
  s.children.filter fun c => !c.isToken && p c.kind

/-- The nodes of kind `k` directly under an element. -/
def nodes (k : Kind) (s : Site) : List Site := s.children.filter (isNode k)

/-- The first node of kind `k` directly under an element. -/
def node? (k : Kind) (s : Site) : Option Site := s.children.find? (isNode k)

/-- The first token of kind `k` directly under an element. -/
def token? (k : Kind) (s : Site) : Option Site :=
  s.children.find? fun c => c.isToken && c.kind == k

def text (s : Site) : String := s.tree.text

/-! ## Search -/

def leafAt? (offset : Nat) (s : Site) : Option Site :=
  if s.span.covers offset then s.tree.leafAt? offset s.above s.start else none

/-- The smallest element around a range that lies within an element. -/
def covering (r : Span) (s : Site) : Site := s.tree.covering r s.above s.start

end Site

end ClassNav
