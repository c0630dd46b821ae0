import ClassNav.Outline.Declaration
import ClassNav.Proofs.Grammar.Shape
import ClassNav.Proofs.Syntax.Place

/-!
# Declarations of well-formed trees

What the shapes of nodes mean for reading declarations. In a well-formed tree a name or a reference
is one identifier (`Site.exists_identifier`), a name is the only one of a declaration
(`Site.nameNode?_of_mem_children`), and parameters stand in parameter lists (`Site.kind_of_param`).
So the readers of declarations, which take the first child of a kind, miss nothing.
-/

namespace ClassNav

open Form (Derives)

/-! ## Shapes -/

namespace Kind

theorem isNamed_of_avoids (k : Kind) (h : k.shape.avoids .name = false) : k.isNamed = true := by
  revert h
  cases k <;> decide

theorem atMostOnce_name (k : Kind) : k.shape.atMostOnce .name = true := by
  cases k <;> decide

theorem eq_paramList_of_avoids (k : Kind) (h : k.shape.avoids .param = false) :
    k = .paramList := by
  revert h
  cases k <;> decide

end Kind

/-! ## Well-formed nodes -/

namespace Tree

theorem WellFormed.of_mem {k : Kind} {cs : List Tree} {c : Tree} (h : (Tree.node k cs).WellFormed)
    (hc : c ∈ cs) : c.WellFormed := by
  cases h with
  | word _ =>
    obtain rfl := List.mem_singleton.mp hc
    exact .leaf _
  | error ts =>
    obtain ⟨t, _, rfl⟩ := List.mem_map.mp hc
    exact .leaf t
  | node _ hall => exact hall c hc

/-- A node has only tokens, or a row of its shape. -/
theorem WellFormed.tokens_or_shape {k : Kind} {cs : List Tree} (h : (Tree.node k cs).WellFormed) :
    (∀ c ∈ cs, c.isToken = true) ∨ Derives 0 k.shape (forestKinds cs) := by
  cases h with
  | word _ =>
    refine .inl fun c hc => ?_
    obtain rfl := List.mem_singleton.mp hc
    rfl
  | error ts =>
    refine .inl fun c hc => ?_
    obtain ⟨t, _, rfl⟩ := List.mem_map.mp hc
    rfl
  | node hshape _ => exact .inr hshape

theorem WellFormed.isTrivia_kind {k : Kind} {cs : List Tree} (h : (Tree.node k cs).WellFormed) :
    k.isTrivia = false := by
  cases h with
  | word hs =>
    rcases Kind.spells_cases hs with ⟨rfl | rfl, _⟩ | ⟨rfl, _⟩
    all_goals rfl
  | error ts => rfl
  | node hshape _ =>
    have hnone : k.isTrivia = true → k.shape = .anyOf [] := by
      cases k <;> simp [Kind.isTrivia, Kind.shape]
    cases hk : k.isTrivia with
    | false => rfl
    | true =>
      rw [hnone hk] at hshape
      generalize forestKinds cs = w at hshape
      cases hshape with
      | one ht => cases ht

/-- The kind of a node under a node is one that the shape of the upper one allows. -/
theorem WellFormed.not_avoids {k : Kind} {cs : List Tree} {c : Tree}
    (h : (Tree.node k cs).WellFormed) (hc : c ∈ cs) (hnode : c.isToken = false) :
    k.shape.avoids c.kind = false := by
  rcases h.tokens_or_shape with htokens | hshape
  · rw [htokens c hc] at hnode
    cases hnode
  · have htrivia : c.kind.isTrivia = false := by
      have hwf := h.of_mem hc
      cases c with
      | leaf t => cases hnode
      | node k' cs' => exact hwf.isTrivia_kind
    have hmem : c.kind ∈ forestKinds cs := mem_forestKinds.mpr ⟨⟨c, hc, rfl⟩, htrivia⟩
    cases havoids : k.shape.avoids c.kind with
    | false => rfl
    | true => exact absurd hmem (Form.not_mem_of_avoids havoids hshape)

theorem length_filter_isNode_le {k : Kind} (hk : k.isTrivia = false) (cs : List Tree) :
    (cs.filter (isNode k)).length ≤ (forestKinds cs).count k := by
  induction cs with
  | nil => exact Nat.le_refl 0
  | cons c cs ih =>
    have hcons : forestKinds (c :: cs) = forestKinds [c] ++ forestKinds cs :=
      forestKinds_append [c] cs
    rw [List.filter_cons, hcons, List.count_append]
    split
    · next hnode =>
      have hkind : forestKinds [c] = [k] := by
        cases c with
        | leaf t => cases hnode
        | node k' cs' =>
          obtain rfl := eq_of_beq hnode
          simp [forestKinds, kind, hk]
      rw [hkind, List.count_singleton_self, List.length_cons]
      omega
    · omega

theorem WellFormed.length_filter_isNode {k k' : Kind} {cs : List Tree}
    (h : (Tree.node k cs).WellFormed) (hk : k'.isTrivia = false)
    (honce : k.shape.atMostOnce k' = true) :
    (cs.filter (isNode k')).length ≤ 1 := by
  rcases h.tokens_or_shape with htokens | hshape
  · have hnone : cs.filter (isNode k') = [] := by
      refine List.filter_eq_nil_iff.mpr fun c hc hnode => ?_
      have htoken := htokens c hc
      cases c with
      | leaf t => cases hnode
      | node k cs => cases htoken
    rw [hnone]
    exact Nat.zero_le 1
  · exact Nat.le_trans (length_filter_isNode_le hk cs)
      (Form.count_le_one_of_atMostOnce honce hshape)

/-- A node of a kind that has no shape of its own is a single token. -/
theorem WellFormed.exists_spells {k : Kind} {cs : List Tree} (h : (Tree.node k cs).WellFormed)
    (hshape : k.shape = .anyOf []) (hk : k ≠ .errorNode) :
    ∃ t : Token, cs = [Tree.leaf t] ∧ k.spells t.kind = true := by
  cases h with
  | @word _ t hs => exact ⟨t, rfl, hs⟩
  | error ts => exact absurd rfl hk
  | node hd _ =>
    rw [hshape] at hd
    generalize forestKinds cs = w at hd
    cases hd with
    | one ht => cases ht

/-- Named declarations are no error nodes and no single tokens, so they have a shape. -/
theorem WellFormed.shape_of_isNamed {k : Kind} {cs : List Tree} (h : (Tree.node k cs).WellFormed)
    (hk : k.isNamed = true) : Derives 0 k.shape (forestKinds cs) := by
  cases h with
  | word hs =>
    rcases Kind.spells_cases hs with ⟨rfl | rfl, _⟩ | ⟨rfl, _⟩
    all_goals cases hk
  | error ts => cases hk
  | node hshape _ => exact hshape

/-- A tree without empty tokens. -/
def Solid (t : Tree) : Prop := ∀ u ∈ t.tokens, 0 < u.size

end Tree

namespace Site

variable {s e c : Site} {k : Kind}

/-! ## Elements of well-formed trees -/

theorem map_tree_row (above : List Step) (step : Step) (start : Nat) (ts : List Tree) :
    (row above step start ts).map tree = ts := by
  induction ts generalizing step start with
  | nil => rfl
  | cons t ts ih => rw [row, List.map_cons, ih]

theorem isNode_iff : s.isNode k = true ↔ s.isToken = false ∧ s.kind = k := by
  obtain ⟨t, start, above⟩ := s
  cases t with
  | leaf t => simp [isNode, isToken, Tree.isNode, Tree.isToken]
  | node k' cs => simp [isNode, isToken, kind, Tree.isNode, Tree.isToken, Tree.kind]

theorem tree_eq_node (h : s.isToken = false) : s.tree = .node s.kind s.tree.children := by
  obtain ⟨t, start, above⟩ := s
  cases t with
  | leaf t => cases h
  | node k cs => rfl

theorem wellFormed_of_mem_descendants (hs : s.tree.WellFormed) (he : e ∈ s.descendants) :
    e.tree.WellFormed := by
  induction s using children_induction with
  | h s ih =>
    rcases mem_descendants_iff.mp he with rfl | ⟨c, hc, he⟩
    · exact hs
    · refine ih c hc ?_ he
      rw [tree_eq_node (isToken_of_mem_children hc)] at hs
      exact hs.of_mem (tree_mem_of_mem_children hc)

theorem mem_forestTokens {t : Tree} {ts : List Tree} {u : Token} (ht : t ∈ ts)
    (hu : u ∈ t.tokens) : u ∈ Tree.forestTokens ts := by
  induction ts with
  | nil => cases ht
  | cons t' ts ih =>
    rw [Tree.forestTokens, List.mem_append]
    rcases List.mem_cons.mp ht with rfl | ht
    · exact .inl hu
    · exact .inr (ih ht)

theorem solid_of_mem_descendants (hs : s.tree.Solid) (he : e ∈ s.descendants) : e.tree.Solid := by
  induction s using children_induction with
  | h s ih =>
    rcases mem_descendants_iff.mp he with rfl | ⟨c, hc, he⟩
    · exact hs
    · refine ih c hc (fun u hu => hs u ?_) he
      rw [tree_eq_node (isToken_of_mem_children hc), Tree.tokens]
      exact mem_forestTokens (tree_mem_of_mem_children hc) hu

theorem exists_leaf (h : s.isToken = true) : ∃ u, s.tree = .leaf u ∧ u.kind = s.kind := by
  obtain ⟨t, start, above⟩ := s
  cases t with
  | leaf u => exact ⟨u, rfl, rfl⟩
  | node k cs => cases h

theorem size_pos_of_isToken (hs : s.tree.Solid) (h : s.isToken = true) : 0 < s.tree.size := by
  obtain ⟨u, hu, _⟩ := exists_leaf h
  rw [Tree.Solid, hu] at hs
  rw [hu, Tree.size]
  exact hs u (List.mem_singleton_self u)

/-- A node stands only where the shape of its parent has a place for it. -/
theorem shape_allows (hs : s.tree.WellFormed) (hc : c ∈ s.children) (hnode : c.isToken = false) :
    s.kind.shape.avoids c.kind = false := by
  rw [tree_eq_node (isToken_of_mem_children hc)] at hs
  exact hs.not_avoids (tree_mem_of_mem_children hc) hnode

/-- A kind that a shape has once at most is found by any way of looking for it. -/
theorem nodes_eq_singleton (hs : s.tree.WellFormed) (hk : k.isTrivia = false)
    (honce : s.kind.shape.atMostOnce k = true) (hc : c ∈ s.children) (hnode : c.isNode k = true) :
    s.nodes k = [c] := by
  have hmem : c ∈ s.nodes k := List.mem_filter.mpr ⟨hc, hnode⟩
  have hlength : (s.nodes k).length ≤ 1 := by
    have htree : (s.nodes k).length = (s.tree.children.filter (Tree.isNode k)).length := by
      have hmap : s.children.map tree = s.tree.children := map_tree_row _ _ _ _
      rw [nodes, ← hmap, List.filter_map, List.length_map]
      rfl
    rw [htree]
    rw [tree_eq_node (isToken_of_mem_children hc)] at hs
    exact hs.length_filter_isNode hk honce
  match hl : s.nodes k, hmem, hlength with
  | [d], hmem, _ => rw [List.mem_singleton.mp hmem]

theorem node?_eq_head? (s : Site) (k : Kind) : s.node? k = (s.nodes k).head? :=
  (List.head?_filter (p := isNode k) (l := s.children)).symm

/-! ## Names -/

/-- A name or a reference is one identifier. -/
theorem exists_identifier (hs : s.tree.WellFormed) (hnode : s.isToken = false)
    (hk : s.kind = .name ∨ s.kind = .reference) :
    ∃ i, s.children = [i] ∧ i.isToken = true ∧ i.kind = .ident ∧ i.span = s.span ∧
      i.text = s.text := by
  rw [tree_eq_node hnode] at hs
  obtain ⟨t, hcs, hspells⟩ := hs.exists_spells
    (by rcases hk with h | h <;> rw [h] <;> rfl) (by rcases hk with h | h <;> rw [h] <;> nofun)
  have htree : s.tree = .node s.kind [.leaf t] := by rw [← hcs, ← tree_eq_node hnode]
  refine ⟨⟨.leaf t, s.start, .first s.tree s.start :: s.above⟩, ?_, rfl, ?_, ?_, ?_⟩
  · rw [children, hcs]
    rfl
  · show t.kind = .ident
    rcases Kind.spells_cases hspells with ⟨_, h⟩ | ⟨h, _⟩
    · exact h
    · rcases hk with hk | hk
      all_goals
        rw [hk] at h
        cases h
  · simp [span, htree, Tree.size, Tree.forestSize]
  · simp [text, Tree.text, htree, Tree.tokens, Tree.forestTokens]

theorem identifier?_eq {i : Site} (h : s.children = [i]) (hi : i.isToken = true)
    (hk : i.kind = .ident) : s.identifier? = some i := by
  simp [identifier?, token?, h, hi, hk]

/-- A name and a reference are their identifier and nothing else. -/
theorem identifierText?_eq (hs : s.tree.WellFormed) (hnode : s.isToken = false)
    (hk : s.kind = .name ∨ s.kind = .reference) : s.identifierText? = some s.text := by
  obtain ⟨i, hchildren, htoken, hident, _, htext⟩ := exists_identifier hs hnode hk
  rw [identifierText?, identifier?_eq hchildren htoken hident, Option.map_some, htext]

/-- What has a name is a declaration, and the name is the one that is read. -/
theorem nameNode?_of_mem_children {n : Site} (hs : s.tree.WellFormed) (hn : n ∈ s.children)
    (hname : n.isNode .name = true) : s.kind.isNamed = true ∧ s.nameNode? = some n := by
  obtain ⟨hnode, hkind⟩ := isNode_iff.mp hname
  constructor
  · refine Kind.isNamed_of_avoids _ ?_
    rw [← hkind]
    exact shape_allows hs hn hnode
  · rw [nameNode?, node?_eq_head?, nodes_eq_singleton hs rfl (Kind.atMostOnce_name _) hn hname]
    rfl

/-- Whether an element has a name node that spells `x`. -/
def hasName (x : String) (s : Site) : Bool :=
  s.children.any fun n => n.isNode .name && n.text == x

/-- To ask for the name of a node is to look for a name node that spells it, as there is one at
most. -/
theorem isNamed_eq_hasName (hs : s.tree.WellFormed) (x : String) : s.isNamed x = s.hasName x := by
  rw [Bool.eq_iff_iff, isNamed, hasName, List.any_eq_true, beq_iff_eq, name?, nameNode?]
  cases hfind : s.node? .name with
  | none =>
    have hnone := List.find?_eq_none.mp hfind
    simp only [Option.map_none, reduceCtorEq, Bool.and_eq_true, false_iff, not_exists, not_and]
    exact fun n hn hname => absurd hname (hnone n hn)
  | some n =>
    have hn : n ∈ s.children := List.mem_of_find?_eq_some hfind
    have hname : n.isNode .name = true := List.find?_some hfind
    have htext : n.nameText = n.text := by
      obtain ⟨hnode, hkind⟩ := isNode_iff.mp hname
      have hwf := wellFormed_of_mem_descendants hs (mem_descendants_of_mem_children hn)
      rw [nameText, identifierText?_eq hwf hnode (.inl hkind), Option.getD_some]
    rw [Option.map_some, Option.some.injEq, htext]
    constructor
    · rintro rfl
      exact ⟨n, hn, by simp [hname]⟩
    · rintro ⟨n', hn', h⟩
      simp only [Bool.and_eq_true, beq_iff_eq] at h
      have huniq := (nameNode?_of_mem_children hs hn' h.1).2
      rw [nameNode?, hfind] at huniq
      rw [Option.some.inj huniq]
      exact h.2

/-! ## Parameters -/

/-- Parameters stand in parameter lists only. -/
theorem kind_of_param {l : Site} (hl : l.tree.WellFormed) (hc : c ∈ l.children)
    (hparam : c.isNode .param = true) : l.kind = .paramList := by
  obtain ⟨hnode, hkind⟩ := isNode_iff.mp hparam
  have hallows := shape_allows hl hc hnode
  rw [hkind] at hallows
  exact Kind.eq_paramList_of_avoids _ hallows

end Site

end ClassNav
