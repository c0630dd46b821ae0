import ClassNav.Proofs.Grammar.Children
import ClassNav.Proofs.Symbols.Innermost

/-!
# Pointers find their declarations

A pointer to an element that is not empty leads to the innermost node with its kind and range
(`DeclPtr.resolve?_eq_some_iff`). In the tree of a text no part of a node has the kind and the range
of the whole (`Site.eq_of_span_eq`): most nodes have a token of their own, a call has arguments in
parentheses, and files, statements and parameters stand nowhere but in nodes with a token of their
own. So a pointer to a node that is not empty leads to that node (`DeclPtr.resolve?_node`), also in
the tree of a damaged text.
-/

namespace ClassNav

/-- A tree that was made of a text. -/
def Tree.Parsed (t : Tree) : Prop := ∃ text : String, t = (parse text).tree

theorem Tree.Parsed.wellFormed {t : Tree} (h : t.Parsed) : t.WellFormed := by
  obtain ⟨text, rfl⟩ := h
  exact wellFormed_parse text

theorem Tree.Parsed.solid {t : Tree} (h : t.Parsed) : t.Solid := by
  obtain ⟨text, rfl⟩ := h
  intro u hu
  rw [tokens_parse] at hu
  exact Token.size_pos_of_mem_scan hu

theorem Tree.Parsed.isNode {t : Tree} (h : t.Parsed) : t.isNode .sourceFile = true := by
  obtain ⟨text, rfl⟩ := h
  rfl

theorem Tree.Parsed.wellFormed_site {t : Tree} (h : t.Parsed) {e : Site}
    (he : e ∈ (Site.root t).descendants) : e.tree.WellFormed :=
  Site.wellFormed_of_mem_descendants (s := Site.root t) h.wellFormed he

theorem Tree.Parsed.solid_site {t : Tree} (h : t.Parsed) {e : Site}
    (he : e ∈ (Site.root t).descendants) : e.tree.Solid :=
  Site.solid_of_mem_descendants (s := Site.root t) h.solid he

/-! ## What tells a node from its parts -/

namespace Kind

/-- Whether a row of children of a node of this kind has a token in it. -/
def isFramed (k : Kind) : Bool := k.shape.demands isTerminal

/-- Nodes of which no token is required are calls, or stand only in nodes of which one is. -/
theorem isFramed_of_allows {k k' : Kind} (hk : k.isFramed = false) (hcall : k ≠ .callExpr)
    (h : k'.shape.avoids k = false) : k'.isFramed = true := by
  have hcases : k = .sourceFile ∨ k = .exprStmt ∨ k = .param := by
    revert hk hcall
    cases k <;> decide
  rcases hcases with rfl | rfl | rfl
  all_goals
    revert h
    cases k' <;> decide

/-- Every declaration has a token or a name of its own. -/
theorem demands_of_isNamed {k : Kind} (h : k.isNamed = true) :
    k.shape.demands (fun k' => k'.isTerminal || k' == .name) = true := by
  revert h
  cases k <;> decide

end Kind

namespace Site

variable {s e c m : Site}

theorem exists_child_of_demands {p : Kind → Bool} (hp : s.kind.shape.demands p = true)
    (hshape : Form.Derives 0 s.kind.shape (Tree.forestKinds s.tree.children)) :
    ∃ m ∈ s.children, p m.kind = true := by
  obtain ⟨k, hmem, hk⟩ := Form.exists_mem_of_demands hp hshape
  obtain ⟨⟨t, ht, rfl⟩, _⟩ := Tree.mem_forestKinds.mp hmem
  rw [← map_tree_row s.above (.first s.tree s.start) s.start s.tree.children] at ht
  obtain ⟨m, hm, rfl⟩ := List.mem_map.mp ht
  exact ⟨m, hm, hk⟩

/-- No node has the kind of a token. -/
theorem isToken_of_isTerminal (hs : s.tree.WellFormed) (hk : s.kind.isTerminal = true) :
    s.isToken = true := by
  cases hnode : s.isToken with
  | true => rfl
  | false =>
    rw [tree_eq_node hnode] at hs
    rw [hs.admits.1] at hk
    cases hk

theorem shape_of_admits {k : Kind} (hs : s.tree.WellFormed) (hnode : s.isToken = false)
    (hk : s.kind = k)
    (hadmits : ∀ cs, k.Admits cs → Form.Derives 0 k.shape (Tree.forestKinds cs)) :
    Form.Derives 0 s.kind.shape (Tree.forestKinds s.tree.children) := by
  rw [tree_eq_node hnode] at hs
  rw [hk] at hs ⊢
  exact hadmits _ hs.admits.2

/-- A node whose shape asks for a token has one, and it is not empty. -/
theorem exists_own_token (hs : s.tree.WellFormed) (hsolid : s.tree.Solid)
    (hk : s.kind.isFramed = true)
    (hshape : Form.Derives 0 s.kind.shape (Tree.forestKinds s.tree.children)) :
    ∃ m ∈ s.children, m.isToken = true ∧ 0 < m.tree.size := by
  obtain ⟨m, hm, hterminal⟩ := exists_child_of_demands hk hshape
  have hbelow := mem_descendants_of_mem_children hm
  have htoken := isToken_of_isTerminal (wellFormed_of_mem_descendants hs hbelow) hterminal
  exact ⟨m, hm, htoken, size_pos_of_isToken (solid_of_mem_descendants hsolid hbelow) htoken⟩

/-- A declaration is not empty. -/
theorem size_pos_of_isNamed (hs : s.tree.WellFormed) (hsolid : s.tree.Solid)
    (hnode : s.isToken = false) (hk : s.kind.isNamed = true) : 0 < s.tree.size := by
  have hshape : Form.Derives 0 s.kind.shape (Tree.forestKinds s.tree.children) := by
    have hwf := hs
    rw [tree_eq_node hnode] at hwf
    exact hwf.shape_of_isNamed hk
  obtain ⟨m, hm, hmark⟩ := exists_child_of_demands (Kind.demands_of_isNamed hk) hshape
  have hbelow := mem_descendants_of_mem_children hm
  have hmwf := wellFormed_of_mem_descendants hs hbelow
  have hmsolid := solid_of_mem_descendants hsolid hbelow
  refine Nat.lt_of_lt_of_le ?_ (size_le_of_mem_descendants hbelow)
  -- The child that is sure to be there is a token, or a name, which has a token.
  cases hmtoken : m.isToken with
  | true => exact size_pos_of_isToken hmsolid hmtoken
  | false =>
    have hname : m.kind = .name := by
      rw [tree_eq_node hmtoken] at hmwf
      rw [hmwf.admits.1, Bool.false_or] at hmark
      exact eq_of_beq hmark
    obtain ⟨i, hchildren, hi, _⟩ := exists_identifier hmwf hmtoken (.inl hname)
    have hin : i ∈ m.descendants := by
      refine mem_descendants_of_mem_children ?_
      rw [hchildren]
      exact List.mem_singleton_self i
    exact Nat.lt_of_lt_of_le (size_pos_of_isToken (solid_of_mem_descendants hmsolid hin) hi)
      (size_le_of_mem_descendants hin)

/-- In a node with a token of its own, every other node is smaller. -/
theorem size_lt_of_isFramed (hs : s.tree.WellFormed) (hsolid : s.tree.Solid)
    (hk : s.kind.isFramed = true) (he : e ∈ s.descendants) (henode : e.isToken = false)
    (hne : e ≠ s) : e.tree.size < s.tree.size := by
  obtain ⟨c, hc, hec⟩ := (mem_descendants_iff.mp he).resolve_left hne
  have hcnode : c.isToken = false := by
    cases hctoken : c.isToken with
    | false => rfl
    | true =>
      rw [descendants_of_isToken hctoken, List.mem_singleton] at hec
      rw [hec, hctoken] at henode
      cases henode
  have hwf := hs
  rw [tree_eq_node (isToken_of_mem_children hc)] at hwf
  -- The token of the node is beside the child that the other node is in.
  rcases hwf.tokens_or_shape with htokens | hshape
  · have htoken : c.isToken = true := htokens c.tree (tree_mem_of_mem_children hc)
    rw [hcnode] at htoken
    cases htoken
  · obtain ⟨m, hm, hmtoken, hpos⟩ := exists_own_token hs hsolid hk hshape
    have hcm : c ≠ m := by
      rintro rfl
      rw [hcnode] at hmtoken
      cases hmtoken
    exact Nat.lt_of_le_of_lt (size_le_of_mem_descendants hec)
      (size_lt_of_mem_children hc hm hcm hpos)

/-- A call in a call is smaller: it is not the arguments, and these have a parenthesis. -/
theorem size_lt_of_callExpr (hs : s.tree.WellFormed) (hsolid : s.tree.Solid)
    (hnode : s.isToken = false) (hk : s.kind = .callExpr) (he : e ∈ s.descendants)
    (henode : e.isToken = false) (hekind : e.kind = .callExpr) (hne : e ≠ s) :
    e.tree.size < s.tree.size := by
  have hshape := shape_of_admits hs hnode hk fun _ h => h
  obtain ⟨m, hm, hmkind⟩ := exists_child_of_demands (p := (· == .argList)) (by rw [hk]; rfl) hshape
  have hmkind : m.kind = .argList := eq_of_beq hmkind
  have hbelow := mem_descendants_of_mem_children hm
  have hmwf := wellFormed_of_mem_descendants hs hbelow
  have hmsolid := solid_of_mem_descendants hsolid hbelow
  have hsmaller : ∀ d ∈ m.descendants, d.isToken = false → d ≠ m → d.tree.size < m.tree.size :=
    fun d hd => size_lt_of_isFramed hmwf hmsolid (by rw [hmkind]; rfl) hd
  obtain ⟨c, hc, hec⟩ := (mem_descendants_iff.mp he).resolve_left hne
  -- The inner call is in the arguments, or beside them.
  by_cases hcm : c = m
  · have hem : e ≠ m := by
      rintro rfl
      rw [hekind] at hmkind
      cases hmkind
    exact Nat.lt_of_lt_of_le (hsmaller e (hcm ▸ hec) henode hem) (size_le_of_mem_descendants hbelow)
  · have hpos : 0 < m.tree.size := by
      cases hmtoken : m.isToken with
      | true => exact size_pos_of_isToken hmsolid hmtoken
      | false =>
        have hmshape := shape_of_admits hmwf hmtoken hmkind fun _ h => h
        obtain ⟨i, hi, _, hipos⟩ := exists_own_token hmwf hmsolid (by rw [hmkind]; rfl) hmshape
        exact Nat.lt_of_lt_of_le hipos
          (size_le_of_mem_descendants (mem_descendants_of_mem_children hi))
    exact Nat.lt_of_le_of_lt (size_le_of_mem_descendants hec)
      (size_lt_of_mem_children hc hm hcm hpos)

/-- No part of a node has the kind and the range of the whole. -/
theorem eq_of_span_eq (hs : s.tree.WellFormed) (hsolid : s.tree.Solid) (he : e ∈ s.descendants)
    (hekind : e.kind = s.kind) (henode : e.isToken = false) (hspan : e.span = s.span) : e = s := by
  have hsize : e.tree.size = s.tree.size := by
    simp only [span, Span.mk.injEq] at hspan
    omega
  by_contra hne
  refine Nat.ne_of_lt ?_ hsize
  cases hframed : s.kind.isFramed with
  | true => exact size_lt_of_isFramed hs hsolid hframed he henode hne
  | false =>
    obtain ⟨q, hq, heq⟩ := (exists_parent_of_mem_descendants he).resolve_left hne
    by_cases hcall : s.kind = .callExpr
    · have hnode : s.isToken = false := by
        obtain ⟨c, hc, _⟩ := (mem_descendants_iff.mp he).resolve_left hne
        exact isToken_of_mem_children hc
      exact size_lt_of_callExpr hs hsolid hnode hcall he henode (hekind.trans hcall) hne
    · -- The node around the part has a token of its own, which is not in the part.
      have hqwf := wellFormed_of_mem_descendants hs hq
      have hqframed : q.kind.isFramed = true := by
        refine Kind.isFramed_of_allows hframed hcall ?_
        rw [← hekind]
        exact shape_allows hqwf heq henode
      have hbelow := mem_descendants_of_mem_children heq
      have hneq : e ≠ q := by
        rintro rfl
        exact not_mem_descendants_child heq e.self_mem_descendants
      exact Nat.lt_of_lt_of_le (size_lt_of_isFramed hqwf (solid_of_mem_descendants hsolid hq)
        hqframed hbelow henode hneq) (size_le_of_mem_descendants hq)

theorem isEmpty_span_eq_false_iff : s.span.isEmpty = false ↔ 0 < s.tree.size := by
  simp [Span.isEmpty, span, Nat.pos_iff_ne_zero]

end Site

/-- Nodes of one tree that have the same kind and the same range, which is not empty, are one. -/
theorem Tree.Parsed.eq_of_kind_span {t : Tree} (ht : t.Parsed) {d e : Site}
    (hd : d ∈ (Site.root t).descendants) (he : e ∈ (Site.root t).descendants)
    (hnode : d.isToken = false) (henode : e.isToken = false) (hpos : 0 < d.tree.size)
    (hkind : e.kind = d.kind) (hspan : e.span = d.span) : e = d := by
  rcases Site.below_or_below_of_span_eq he hd hpos hspan with hbelow | hbelow
  · exact Site.eq_of_span_eq (ht.wellFormed_site hd) (ht.solid_site hd) hbelow hkind henode hspan
  · exact (Site.eq_of_span_eq (ht.wellFormed_site he) (ht.solid_site he) hbelow hkind.symm hnode
      hspan.symm).symm

namespace DeclPtr

variable {t : Tree} {d : Site}

/-- A pointer to a node that is not empty leads to that node, if no part of it has its kind and
range. -/
theorem resolve?_ofSite (file : FileId) (hd : d ∈ (Site.root t).descendants)
    (hnode : d.isToken = false) (hpos : 0 < d.tree.size)
    (hinner : ∀ e ∈ d.descendants, e.isToken = false → e.kind = d.kind → e.span = d.span → e = d) :
    (ofSite file d).resolve? (Site.root t) = some d := by
  have hr : d.span.start < d.span.stop := Nat.lt_add_of_pos_right hpos
  refine (resolve?_eq_some_iff hr).mpr ⟨hd, denotes_ofSite file hnode, fun e he hdenotes => ?_⟩
  obtain ⟨henode, hkind, hspan⟩ := denotes_iff.mp hdenotes
  rcases Site.below_or_below_of_span_eq he hd hpos hspan with hbelow | hbelow
  · rw [hinner e hbelow henode hkind hspan]
    exact Site.self_mem_descendants d
  · exact hbelow

/-- In the tree of a text, a pointer to a node that is not empty leads to that node. -/
theorem resolve?_node (file : FileId) (ht : t.Parsed) (hd : d ∈ (Site.root t).descendants)
    (hnode : d.isToken = false) (hpos : 0 < d.tree.size) :
    (ofSite file d).resolve? (Site.root t) = some d := by
  refine resolve?_ofSite file hd hnode hpos ?_
  intro e he henode hkind hspan
  exact Site.eq_of_span_eq (ht.wellFormed_site hd) (ht.solid_site hd) he hkind henode hspan

/-- In the tree of a text, a pointer to a declaration leads to that declaration. -/
theorem resolve?_declaration (file : FileId) (ht : t.Parsed) (hd : d ∈ (Site.root t).descendants)
    (hnode : d.isToken = false) (hk : d.kind.isNamed = true) :
    (ofSite file d).resolve? (Site.root t) = some d := by
  have hwf := ht.wellFormed_site hd
  have hsolid := ht.solid_site hd
  exact resolve?_node file ht hd hnode (Site.size_pos_of_isNamed hwf hsolid hnode hk)

/-- In the tree of every text, a pointer to a node that is not empty leads to that node, since no
other node has its kind and its range. Declarations are never empty, so a pointer to one always
leads to it. -/
theorem resolve?_parse (text : String) (file : FileId) :
    (∀ d ∈ (Site.root (parse text).tree).descendants, d.isToken = false →
      d.span.isEmpty = false →
        (ofSite file d).resolve? (Site.root (parse text).tree) = some d ∧
          ∀ e ∈ (Site.root (parse text).tree).descendants, e.isToken = false →
            e.kind = d.kind → e.span = d.span → e = d) ∧
    ∀ d ∈ (Site.root (parse text).tree).descendants, d.isToken = false →
      d.kind.isNamed = true → d.span.isEmpty = false ∧
        (ofSite file d).resolve? (Site.root (parse text).tree) = some d := by
  have ht : (parse text).tree.Parsed := ⟨text, rfl⟩
  refine ⟨fun d hd hnode hempty => ?_, fun d hd hnode hk => ?_⟩
  · have hpos := Site.isEmpty_span_eq_false_iff.mp hempty
    refine ⟨resolve?_node file ht hd hnode hpos, fun e he henode hkind hspan => ?_⟩
    exact ht.eq_of_kind_span hd he hnode henode hpos hkind hspan
  · have hpos := Site.size_pos_of_isNamed (ht.wellFormed_site hd) (ht.solid_site hd) hnode hk
    exact ⟨Site.isEmpty_span_eq_false_iff.mpr hpos, resolve?_node file ht hd hnode hpos⟩

theorem resolve?_of_nested_calls :
    ∃ d ∈ (Site.root (parse "class A { var x = f()(); }").tree).descendants,
      d.isNode .callExpr = true ∧ d.span = ⟨18, 23⟩ ∧
        (ofSite ⟨0⟩ d).resolve? (Site.root (parse "class A { var x = f()(); }").tree) = some d := by
  have hany : ((Site.root (parse "class A { var x = f()(); }").tree).descendants.any fun d =>
      d.isNode .callExpr && decide (d.span = ⟨18, 23⟩)) = true := by
    decide +kernel
  obtain ⟨d, hd, h⟩ := List.any_eq_true.mp hany
  simp only [Bool.and_eq_true, decide_eq_true_eq] at h
  refine ⟨d, hd, h.1, h.2, ?_⟩
  exact ((resolve?_parse _ ⟨0⟩).1 d hd (Site.isNode_iff.mp h.1).1 (by rw [h.2]; rfl)).1

end DeclPtr

end ClassNav
