import ClassNav.Outline.Declaration

/-!
# A method among the members of its class

A method seen together with the member list it stands in.
-/

namespace ClassNav

namespace Site

/-- The member list that a method stands in. -/
def memberList? (s : Site) : Option Site := s.parent?.filter (·.kind.isMemberList)

/-- The members of that list, the method itself included. -/
def neighbours (s : Site) : List Site := (s.memberList?.map listedMembers).getD []

/-- The class that a member list belongs to. -/
def listOwner? (list : Site) : Option Site :=
  if list.kind = .anonymousType then some list else list.parent?.bind asClass?

/-- The class that a method belongs to. -/
def owner? (s : Site) : Option Site := s.memberList?.bind listOwner?

/-- The other methods of the same member list that have the name of a method. -/
def overloads (s : Site) : List Site :=
  match s.name? with
  | none => []
  | some x => s.neighbours.filter fun m => m.isNode .methodDecl && !m.same s && m.isNamed x

end Site

end ClassNav
