import ClassNav.Syntax.Token

/-!
# Syntax trees

A `Tree` is a token or a node over a list of trees. It keeps every token of the text it was made
from, blanks and comments included.

* `Tree.tokens` are the leaves from left to right, `Tree.text` what they spell.
* `Tree.size` is the length of that text in bytes.
* `Tree.isShared` tells the trees whose equal copies are kept as one.
-/

namespace ClassNav

/-- A tree whose leaves are tokens. Hand-made trees may have empty nodes and empty tokens. -/
inductive Tree
  | leaf (token : Token)
  | node (kind : Kind) (children : List Tree)
deriving Repr, Inhabited

namespace Tree

def kind : Tree → Kind
  | leaf t => t.kind
  | node k _ => k

def children : Tree → List Tree
  | leaf _ => []
  | node _ cs => cs

def isToken : Tree → Bool
  | leaf _ => true
  | node _ _ => false

def isNode (k : Kind) : Tree → Bool
  | leaf _ => false
  | node k' _ => k' == k

mutual

/-- The leaves of a tree, from left to right. -/
def tokens : Tree → List Token
  | leaf t => [t]
  | node _ cs => forestTokens cs

def forestTokens : List Tree → List Token
  | [] => []
  | t :: ts => t.tokens ++ forestTokens ts

end

mutual

/-- The length of a tree in bytes. -/
def size : Tree → Nat
  | leaf t => t.size
  | node _ cs => forestSize cs

def forestSize : List Tree → Nat
  | [] => 0
  | t :: ts => t.size + forestSize ts

end

def text (t : Tree) : String := String.join (t.tokens.map Token.text)

mutual

def decEq : (s t : Tree) → Decidable (s = t)
  | leaf a, leaf b =>
    if h : a = b then isTrue (h ▸ rfl) else isFalse fun e => h (leaf.inj e)
  | leaf _, node _ _ => isFalse nofun
  | node _ _, leaf _ => isFalse nofun
  | node k cs, node l ds =>
    if h : k = l then
      match decEqList cs ds with
      | isTrue e => isTrue (h ▸ e ▸ rfl)
      | isFalse n => isFalse fun e => n (node.inj e).2
    else isFalse fun e => h (node.inj e).1

def decEqList : (ss ts : List Tree) → Decidable (ss = ts)
  | [], [] => isTrue rfl
  | [], _ :: _ => isFalse nofun
  | _ :: _, [] => isFalse nofun
  | s :: ss, t :: ts =>
    match decEq s t, decEqList ss ts with
    | isTrue h, isTrue hs => isTrue (h ▸ hs ▸ rfl)
    | isFalse n, _ => isFalse fun e => n (List.cons.inj e).1
    | _, isFalse n => isFalse fun e => n (List.cons.inj e).2

end

instance : DecidableEq Tree := decEq

/-! ## Trees that are kept once -/

/-- Whether a tree is a node of blanks that has no blanks in it. -/
def isHollowBlank : Tree → Bool
  | node .whitespace [] => true
  | _ => false

/-- The largest number of children that a node kept once may have. -/
def maxShared : Nat := 3

mutual

/-- Whether equal copies of a tree are kept as one. A token always is; a node is if it has few
children, and these are kept as one and are no hollow blanks. -/
def isShared : Tree → Bool
  | leaf _ => true
  | node _ cs => cs.length ≤ maxShared && forestShared cs

/-- Whether trees may all stand under a node that is kept as one. -/
def forestShared : List Tree → Bool
  | [] => true
  | t :: ts => t.isShared && !t.isHollowBlank && forestShared ts

end

example : isShared (node .block [node .name [], node .name [], node .name []]) = true := by
  decide +kernel

example : isShared (node .block (.replicate 4 (node .name []))) = false := by decide +kernel

example : isShared (node .whitespace []) = true := by decide +kernel

example : isShared (node .block [node .whitespace []]) = false := by decide +kernel

/-! ## Leaves and lengths of rows of trees -/

theorem forestTokens_append (a b : List Tree) :
    forestTokens (a ++ b) = forestTokens a ++ forestTokens b := by
  induction a with
  | nil => simp [forestTokens]
  | cons t ts ih => simp [forestTokens, ih]

theorem forestTokens_leaves (ts : List Token) : forestTokens (ts.map leaf) = ts := by
  induction ts with
  | nil => simp [forestTokens]
  | cons t ts ih => simp [forestTokens, tokens, ih]

theorem forestSize_append (a b : List Tree) :
    forestSize (a ++ b) = forestSize a + forestSize b := by
  induction a with
  | nil => simp [forestSize]
  | cons t ts ih => simp [forestSize, ih, Nat.add_assoc]

end Tree

end ClassNav
