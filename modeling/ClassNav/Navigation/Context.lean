import ClassNav.Navigation.Caret
import ClassNav.Outline.Method

/-!
# Queries in a context

A `Context` is what an action in an editor knows when it is started: perhaps a project, perhaps a
caret, perhaps an element chosen in some other view. Where a part is missing, queries find nothing.
-/

namespace ClassNav

/-- What an action knows when it is started. -/
structure Context (m : Type → Type) where
  project : Option (Project m)
  caret : Option FilePosition
  selection : Option (FileId × Site)

namespace Context

variable {m : Type → Type} [Monad m]

/-- The element that the context points at, with its file: the token under the caret, or the
selection if there is no caret. -/
def element? (ctx : Context m) : Option (FileId × Site) :=
  match ctx.project, ctx.caret with
  | none, _ => none
  | some p, some pos => (p.leafAt? pos).map (pos.file, ·)
  | some _, none => ctx.selection

/-- The file around that element. -/
def file? (ctx : Context m) : Option Site := ctx.element?.bind fun (_, s) => s.enclosingFile?

/-- The class at a caret: the class that the caret designates, or else the innermost one around
it. -/
def classAt? (p : Project m) (pos : FilePosition) (allowAnonymous : Bool) : m (Option Site) :=
  match p.root? pos.file with
  | none => pure none
  | some root =>
    (fun target => (target.bind Site.asClass?).or
      ((root.leafAt? pos.offset).bind (·.enclosingClass? allowAnonymous))) <$> p.targetOrLeaf? pos

/-- The class that the context points into: the class at the caret, or the selection if that is a
class and there is no caret. -/
def class? (ctx : Context m) (allowAnonymous : Bool) : m (Option Site) :=
  match ctx.project, ctx.caret with
  | none, _ => pure none
  | some _, none => pure (ctx.selection.bind fun (_, s) => s.asClass?)
  | some p, some pos => classAt? p pos allowAnonymous

/-- The name of the declaration that the caret designates, or the whole declaration if it has no
name. -/
def referenced? (ctx : Context m) : m (Option Site) :=
  match ctx.project, ctx.caret with
  | some p, some pos =>
    (·.map fun target => target.declaredName?.getD target) <$> p.target? pos .all
  | _, _ => pure none

/-- The method that the designated name belongs to. -/
def method? (ctx : Context m) : m (Option Site) :=
  (fun named => (named.bind Site.parent?).filter (·.role.isMethodLike)) <$> ctx.referenced?

end Context

end ClassNav
