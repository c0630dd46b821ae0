import ClassNav.Navigation.Project

/-!
# What a caret designates

From a caret to the token under it, to the identifier it touches, and to the declaration that this
identifier names or refers to.
-/

namespace ClassNav

/-- Which meanings of a caret count. -/
structure TargetFlags where
  /-- On the name of a declaration: that declaration. -/
  declared : Bool
  /-- On a reference: the declaration it refers to. -/
  referenced : Bool
deriving DecidableEq, Repr, Inhabited

namespace TargetFlags

def all : TargetFlags := ⟨true, true⟩

end TargetFlags

namespace Project

variable {m : Type → Type} [Monad m]

/-- The token under a caret: the one that has the byte after the caret. -/
def leafAt? (p : Project m) (pos : FilePosition) : Option Site :=
  (p.root? pos.file).bind (Site.leafAt? pos.offset)

def isIdent (s : Site) : Bool := s.kind == .ident

/-- The identifier that ends at a caret. -/
def identBefore? (p : Project m) (pos : FilePosition) : Option Site :=
  match pos.offset with
  | 0 => none
  | before + 1 =>
    (p.leafAt? ⟨pos.file, before⟩).filter fun s => isIdent s && s.span.stop == pos.offset

/-- The identifier under a caret, or the one that ends at it. -/
def identAt? (p : Project m) (pos : FilePosition) : Option Site :=
  ((p.leafAt? pos).filter isIdent).or (p.identBefore? pos)

/-- The declaration that a caret designates, in one of the meanings that count. -/
def target? (p : Project m) (pos : FilePosition) (flags : TargetFlags) : m (Option Site) :=
  match (p.identAt? pos).bind Site.parent? with
  | none => pure none
  | some around =>
    match around.kind with
    | .name => pure (if flags.declared then around.parent? else none)
    | .reference =>
      if flags.referenced then (·.findSome? p.resolve?) <$> p.candidates pos.file around
      else pure none
    | _ => pure none

/-- The declaration that a caret designates, or the token under it. -/
def targetOrLeaf? (p : Project m) (pos : FilePosition) : m (Option Site) :=
  (·.or (p.leafAt? pos)) <$> p.target? pos .all

end Project

end ClassNav
