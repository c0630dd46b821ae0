import ClassNav.Outline.Method
import ClassNav.Proofs.Navigation.Containment

/-!
# A method and its overloads

There are three ways from a method to the members around it: the node that it stands in, the walk
outwards to a class, and from that class down to the body. In the tree of a text they meet. A method
stands in a member list and nowhere else, a class body stands in a named class, which has only one,
and an anonymous class is its own member list (`Site.Owns`). So what a method sees around it are the
members of the innermost class around it (`Site.Owns.members_eq`, `Site.Owns.enclosingClass?_eq`).

Two methods are one element only if they are at the same place, since no method is empty
(`Tree.Parsed.same_iff`). Hence the overloads of a method are the other methods with its name, and
together with the method they are all methods of that name (`Site.MemberOf.perm_overloads`).
-/

namespace ClassNav

namespace Kind

theorem isMemberList_of_allows {k : Kind} (h : k.shape.avoids .methodDecl = false) :
    k.isMemberList = true := by
  revert h
  cases k <;> decide

theorem eq_classDecl_of_allows {k : Kind} (h : k.shape.avoids .classBody = false) :
    k = .classDecl := by
  revert h
  cases k <;> decide

theorem isMemberList_cases {k : Kind} (h : k.isMemberList = true) :
    k = .classBody ∨ k = .anonymousType := by
  revert h
  cases k <;> decide

end Kind

/-- In the tree of a text, elements that are not empty are the same only at the same place. -/
theorem Tree.Parsed.same_iff {t : Tree} (ht : t.Parsed) {d e : Site}
    (hd : d ∈ (Site.root t).descendants) (he : e ∈ (Site.root t).descendants)
    (hnode : d.isToken = false) (hpos : 0 < d.tree.size) : e.same d = true ↔ e = d := by
  constructor
  · intro hsame
    simp only [Site.same, Bool.and_eq_true, beq_iff_eq, decide_eq_true_eq] at hsame
    obtain ⟨⟨hstart, htree⟩, _⟩ := hsame
    refine ht.eq_of_kind_span hd he hnode ?_ hpos ?_ ?_
    · rw [Site.isToken, htree]
      exact hnode
    · rw [Site.kind, htree]
      rfl
    · rw [Site.span, hstart, htree]
      rfl
  · rintro rfl
    exact e.same_self

namespace Site

variable {t : Tree} {c d l m n : Site} {x : String}

/-! ## The class of a member list -/

/-- Whether a member list belongs to a class: an anonymous class lists its members itself, a named
class has them in its body. -/
def Owns (c l : Site) : Prop :=
  l = c ∧ c.isNode .anonymousType = true ∨
    l ∈ c.children ∧ l.isNode .classBody = true ∧ c.isNode .classDecl = true

/-- In the tree of a text a node that is not a file stands in a node whose shape allows it. -/
theorem exists_parent_allowing {k : Kind} (ht : t.Parsed) (hd : d ∈ (root t).descendants)
    (h : d.isNode k = true) (hk : k ≠ .sourceFile) :
    ∃ q ∈ (root t).descendants, d ∈ q.children ∧ q.kind.shape.avoids k = false := by
  obtain ⟨hnode, rfl⟩ := isNode_iff.mp h
  rcases exists_parent_of_mem_descendants hd with rfl | ⟨q, hq, hdq⟩
  · have hroot : (root t).isNode .sourceFile = true := ht.isNode
    exact absurd (isNode_iff.mp hroot).2 hk
  · exact ⟨q, hq, hdq, shape_allows (ht.wellFormed_site hq) hdq hnode⟩

/-- A member stands in a member list, also if it is damaged. -/
theorem exists_memberList (ht : t.Parsed) (hm : m ∈ (root t).descendants)
    (hmethod : m.isNode .methodDecl = true) :
    ∃ l ∈ (root t).descendants, m ∈ l.children ∧ l.kind.isMemberList = true := by
  obtain ⟨l, hl, hml, hallows⟩ := exists_parent_allowing ht hm hmethod nofun
  exact ⟨l, hl, hml, Kind.isMemberList_of_allows hallows⟩

/-- Every member list in the tree of a text belongs to a class, named or not. -/
theorem exists_owns (ht : t.Parsed) (hl : l ∈ (root t).descendants) (hnode : l.isToken = false)
    (hlist : l.kind.isMemberList = true) : ∃ c ∈ (root t).descendants, c.Owns l := by
  rcases Kind.isMemberList_cases hlist with hbody | hanonymous
  · have hlbody : l.isNode .classBody = true := isNode_iff.mpr ⟨hnode, hbody⟩
    obtain ⟨c, hc, hlc, hallows⟩ := exists_parent_allowing ht hl hlbody nofun
    exact ⟨c, hc, .inr ⟨hlc, hlbody,
      isNode_iff.mpr ⟨isToken_of_mem_children hlc, Kind.eq_classDecl_of_allows hallows⟩⟩⟩
  · exact ⟨l, hl, .inl ⟨rfl, isNode_iff.mpr ⟨hnode, hanonymous⟩⟩⟩

theorem isClass_of_isNode {k : Kind} (h : d.isNode k = true) : d.isClass true = k.isClassLike := by
  obtain ⟨hnode, rfl⟩ := isNode_iff.mp h
  rw [isClass, if_pos rfl, isClassLike, hnode]
  rfl

namespace Owns

/-- Up from a member list: the node around it, or the list itself. -/
theorem listOwner?_eq (h : c.Owns l) : l.listOwner? = some c := by
  rcases h with ⟨rfl, hanonymous⟩ | ⟨hlc, hbody, hdecl⟩
  · rw [listOwner?, if_pos (isNode_iff.mp hanonymous).2]
  · have hne : l.kind ≠ .anonymousType := by
      rw [(isNode_iff.mp hbody).2]
      decide
    have hclass : c.isClassLike = true := isClass_of_isNode hdecl
    rw [listOwner?, if_neg hne, parent?_of_mem_children hlc, Option.bind_some, asClass?,
      if_pos hclass]

/-- Down from a class: its first body is its only one. -/
theorem members_eq (ht : t.Parsed) (hc : c ∈ (root t).descendants) (h : c.Owns l) :
    c.members = l.listedMembers := by
  rcases h with ⟨rfl, hanonymous⟩ | ⟨hlc, hbody, hdecl⟩
  · rw [members, if_pos (isNode_iff.mp hanonymous).2]
  · have hkind := (isNode_iff.mp hdecl).2
    have honce : c.kind.shape.atMostOnce .classBody = true := by
      rw [hkind]
      decide
    have hfirst : c.classBody? = some l := by
      rw [classBody?, node?_eq_head?,
        nodes_eq_singleton (ht.wellFormed_site hc) rfl honce hlc hbody]
      rfl
    have hne : c.kind ≠ .anonymousType := by
      rw [hkind]
      decide
    rw [members, if_neg hne, hfirst]
    rfl

/-- Outwards from a method: the first class is the one that owns the list. -/
theorem enclosingClass?_eq (ht : t.Parsed) (hm : m ∈ (root t).descendants)
    (hmethod : m.isNode .methodDecl = true) (hml : m ∈ l.children) (h : c.Owns l) :
    m.enclosingClass? true = some c := by
  have hmclass : m.isClass true = false := isClass_of_isNode hmethod
  rw [enclosingClass?_eq_find? ht.wellFormed hm,
    ancestors_of_parent? (parent?_of_mem_children hml), List.find?_cons, hmclass]
  rcases h with ⟨rfl, hanonymous⟩ | ⟨hlc, hbody, hdecl⟩
  · have hlclass : l.isClass true = true := isClass_of_isNode hanonymous
    rw [ancestors, List.find?_cons, hlclass]
  · have hlclass : l.isClass true = false := isClass_of_isNode hbody
    have hcclass : c.isClass true = true := isClass_of_isNode hdecl
    rw [ancestors_of_parent? (parent?_of_mem_children hlc), List.find?_cons, hlclass, ancestors,
      List.find?_cons, hcclass]

end Owns

/-! ## A method in its list -/

/-- A method of a tree, the member list that it stands in, and the class of that list. -/
structure MemberOf (t : Tree) (m l c : Site) : Prop where
  mem : m ∈ (root t).descendants
  isMethod : m.isNode .methodDecl = true
  child : m ∈ l.children
  isList : l.kind.isMemberList = true
  list_mem : l ∈ (root t).descendants
  owner_mem : c ∈ (root t).descendants
  owns : c.Owns l

/-- Every method stands in a member list, which belongs to a class. -/
theorem exists_memberOf (ht : t.Parsed) (hm : m ∈ (root t).descendants)
    (hmethod : m.isNode .methodDecl = true) : ∃ l c, MemberOf t m l c := by
  obtain ⟨l, hl, hml, hlist⟩ := exists_memberList ht hm hmethod
  obtain ⟨c, hc, howns⟩ := exists_owns ht hl (isToken_of_mem_children hml) hlist
  exact ⟨l, c, hm, hmethod, hml, hlist, hl, hc, howns⟩

theorem mem_listedMembers_iff :
    d ∈ l.listedMembers ↔ d ∈ l.children ∧ d.isToken = false ∧ d.kind.isMember = true := by
  rw [listedMembers, nodesWhere, List.mem_filter, Bool.and_eq_true, Bool.not_eq_true']

namespace MemberOf

theorem memberList?_eq (h : MemberOf t m l c) : m.memberList? = some l := by
  rw [memberList?, parent?_of_mem_children h.child, Option.filter_some, if_pos h.isList]

theorem owner?_eq (h : MemberOf t m l c) : m.owner? = some c := by
  rw [owner?, h.memberList?_eq, Option.bind_some, h.owns.listOwner?_eq]

theorem members_eq (h : MemberOf t m l c) (ht : t.Parsed) : c.members = l.listedMembers :=
  h.owns.members_eq ht h.owner_mem

/-- The neighbours of a method are the members of its class. -/
theorem neighbours_eq (h : MemberOf t m l c) (ht : t.Parsed) : m.neighbours = c.members := by
  rw [neighbours, h.memberList?_eq, h.members_eq ht]
  rfl

/-- The methods among the members are those that stand in the same node. -/
theorem mem_members_iff (h : MemberOf t m l c) (ht : t.Parsed) (hn : n ∈ (root t).descendants)
    (hmethod : n.isNode .methodDecl = true) : n ∈ c.members ↔ n.parent? = m.parent? := by
  obtain ⟨hnode, hkind⟩ := isNode_iff.mp hmethod
  rw [h.members_eq ht, mem_listedMembers_iff, hkind, parent?_of_mem_children h.child]
  constructor
  · exact fun hmem => parent?_of_mem_children hmem.1
  · exact fun hparent => ⟨(mem_children_of_parent? hn hparent).2, hnode, rfl⟩

theorem mem_root_of_mem_members (h : MemberOf t m l c) (ht : t.Parsed) (hd : d ∈ c.members) :
    d ∈ (root t).descendants := by
  rw [h.members_eq ht] at hd
  exact mem_descendants_trans (mem_descendants_of_mem_children (mem_listedMembers_iff.mp hd).1)
    h.list_mem

/-- Members stand one behind the other. -/
theorem pairwise_members (h : MemberOf t m l c) (ht : t.Parsed) :
    c.members.Pairwise fun a b => a.span.stop ≤ b.span.start := by
  rw [h.members_eq ht]
  exact pairwise_row.filter _

/-- No member is listed twice, since children have different places. -/
theorem nodup_members (h : MemberOf t m l c) (ht : t.Parsed) : c.members.Nodup := by
  rw [h.members_eq ht]
  exact (nodup_children l).filter _

end MemberOf

/-! ## Overloads -/

def methodsNamed (x : String) (c : Site) : List Site :=
  c.members.filter fun m => m.isNode .methodDecl && m.isNamed x

theorem mem_methodsNamed_iff : m ∈ c.methodsNamed x ↔
    m ∈ c.members ∧ m.isNode .methodDecl = true ∧ m.name? = some x := by
  rw [methodsNamed, List.mem_filter, Bool.and_eq_true, isNamed, beq_iff_eq]

theorem overloads_of_name?_eq_none (h : m.name? = none) : m.overloads = [] := by
  rw [overloads, h]

namespace MemberOf

/-- The overloads of a method are the methods of its class with its name, without itself. -/
theorem overloads_eq (h : MemberOf t m l c) (ht : t.Parsed) (hname : m.name? = some x) :
    m.overloads = (c.methodsNamed x).filter (· ≠ m) := by
  obtain ⟨hnode, hkind⟩ := isNode_iff.mp h.isMethod
  have hpos : 0 < m.tree.size := by
    refine size_pos_of_isNamed (ht.wellFormed_site h.mem) (ht.solid_site h.mem) hnode ?_
    rw [hkind]
    rfl
  rw [overloads, hname, h.neighbours_eq ht, methodsNamed, List.filter_filter]
  refine List.filter_congr fun d hd => ?_
  have hsame := ht.same_iff h.mem (h.mem_root_of_mem_members ht hd) hnode hpos
  rw [Bool.eq_iff_iff]
  simp only [Bool.and_eq_true, Bool.not_eq_true', decide_eq_true_eq, ← Bool.not_eq_true, hsame]
  tauto

/-- A method and its overloads are all methods of the class that have its name, each once. -/
theorem perm_overloads (h : MemberOf t m l c) (ht : t.Parsed) (hname : m.name? = some x) :
    (m :: m.overloads).Perm (c.methodsNamed x) := by
  have hm : m ∈ c.methodsNamed x := by
    rw [mem_methodsNamed_iff, h.mem_members_iff ht h.mem h.isMethod]
    exact ⟨rfl, h.isMethod, hname⟩
  have hnodup : (c.methodsNamed x).Nodup := (h.nodup_members ht).filter _
  have hrest : m.overloads = (c.methodsNamed x).erase m := by
    rw [h.overloads_eq ht hname, hnodup.erase_eq_filter]
    refine List.filter_congr fun d _ => ?_
    rw [Bool.eq_iff_iff, decide_eq_true_eq, bne_iff_ne]
  rw [hrest]
  exact (List.perm_cons_erase hm).symm

/-- Overloads are other methods in the same node that have the same name. -/
theorem mem_overloads_iff (h : MemberOf t m l c) (ht : t.Parsed)
    (hn : n ∈ (root t).descendants) (hmethod : n.isNode .methodDecl = true) :
    n ∈ m.overloads ↔
      n ≠ m ∧ n.parent? = m.parent? ∧ n.name? = m.name? ∧ m.name? ≠ none := by
  cases hname : m.name? with
  | none =>
    rw [overloads_of_name?_eq_none hname]
    simp
  | some x =>
    rw [h.overloads_eq ht hname, List.mem_filter, mem_methodsNamed_iff,
      h.mem_members_iff ht hn hmethod, decide_eq_true_eq]
    constructor
    · rintro ⟨⟨hparent, _, hsame⟩, hne⟩
      exact ⟨hne, hparent, hsame, nofun⟩
    · rintro ⟨hne, hparent, hsame, _⟩
      exact ⟨⟨hparent, hmethod, hsame⟩, hne⟩

/-- A method is an overload of its overloads. -/
theorem mem_overloads_comm {l' c' : Site} (h : MemberOf t m l c) (h' : MemberOf t n l' c')
    (ht : t.Parsed) : n ∈ m.overloads ↔ m ∈ n.overloads := by
  rw [h.mem_overloads_iff ht h'.mem h'.isMethod, h'.mem_overloads_iff ht h.mem h.isMethod]
  constructor
  · rintro ⟨hne, hparent, hname, hsome⟩
    exact ⟨hne.symm, hparent.symm, hname.symm, hname ▸ hsome⟩
  · rintro ⟨hne, hparent, hname, hsome⟩
    exact ⟨hne.symm, hparent.symm, hname.symm, hname ▸ hsome⟩

end MemberOf

/-- Every method in the tree of a text stands in a member list of a class, which is the class that
the walk outwards finds. Its neighbours are the members of that class, in the order of the text, and
it is one of them. If it has a name, its overloads are the other methods of the class with that
name, and with the method itself they are all of that name; a method without name has none. No
method overloads itself, and overloading goes both ways. -/
theorem overloads_parse {text : String} {m : Site}
    (hm : m ∈ (root (parse text).tree).descendants) (hmethod : m.isNode .methodDecl = true) :
    ∃ l c, m.memberList? = some l ∧ m.owner? = some c ∧ m.enclosingClass? true = some c ∧
      m.neighbours = c.members ∧ m ∈ c.members ∧
      c.members.Pairwise (fun a b => a.span.stop ≤ b.span.start) ∧
      (m.name? = none → m.overloads = []) ∧
      (∀ x, m.name? = some x → m.overloads = (c.methodsNamed x).filter (· ≠ m) ∧
        (m :: m.overloads).Perm (c.methodsNamed x)) ∧
      m ∉ m.overloads ∧
      ∀ n ∈ (root (parse text).tree).descendants, n.isNode .methodDecl = true →
        (n ∈ m.overloads ↔ m ∈ n.overloads) := by
  have ht : (parse text).tree.Parsed := ⟨text, rfl⟩
  obtain ⟨l, c, h⟩ := exists_memberOf ht hm hmethod
  refine ⟨l, c, h.memberList?_eq, h.owner?_eq, h.owns.enclosingClass?_eq ht hm hmethod h.child,
    h.neighbours_eq ht, (h.mem_members_iff ht hm hmethod).mpr rfl, h.pairwise_members ht,
    overloads_of_name?_eq_none, ?_, ?_, ?_⟩
  · exact fun x hname => ⟨h.overloads_eq ht hname, h.perm_overloads ht hname⟩
  · intro hself
    exact ((h.mem_overloads_iff ht hm hmethod).mp hself).1 rfl
  · intro n hn hnmethod
    obtain ⟨l', c', h'⟩ := exists_memberOf ht hn hnmethod
    exact h.mem_overloads_comm h' ht

theorem overloads_parse_of_unclosed_class :
    let text :=
      "class A \x7b function f() \x7b\x7d var p:\x7b function f(; function g(x) \x7d function f("
    ∃ m ∈ (root (parse text).tree).descendants, ∃ c, m.isNode .methodDecl = true ∧
      m.span = ⟨10, 25⟩ ∧ m.overloads.map span = [⟨63, 74⟩] ∧ m.enclosingClass? true = some c ∧
      (m :: m.overloads).Perm (c.methodsNamed "f") ∧ ∀ n ∈ m.overloads, m ∈ n.overloads := by
  intro text
  have hany : ((root (parse text).tree).descendants.any fun m => m.isNode .methodDecl &&
      decide (m.span = ⟨10, 25⟩) && decide (m.overloads.map span = [⟨63, 74⟩]) &&
      decide (m.name? = some "f") && m.overloads.all fun n => n.isNode .methodDecl &&
        (root (parse text).tree).descendants.contains n) = true := by
    decide +kernel
  obtain ⟨m, hm, h⟩ := List.any_eq_true.mp hany
  simp only [Bool.and_eq_true, decide_eq_true_eq, List.all_eq_true, List.contains_iff_mem] at h
  obtain ⟨⟨⟨⟨hmethod, hspan⟩, hoverloads⟩, hname⟩, hin⟩ := h
  obtain ⟨l, c, _, _, hclass, _, _, _, _, hnamed, _, hcomm⟩ := overloads_parse hm hmethod
  refine ⟨m, hm, c, hmethod, hspan, hoverloads, hclass, (hnamed "f" hname).2, fun n hn => ?_⟩
  exact (hcomm n (hin n hn).2 (hin n hn).1).mp hn

end Site

end ClassNav
