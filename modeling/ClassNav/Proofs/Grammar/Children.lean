import ClassNav.Proofs.Grammar.Lossless
import ClassNav.Proofs.Grammar.WellFormed
import ClassNav.Proofs.Outline.Declaration

/-!
# The children of every node

`Kind.Admits` says which children a node of a kind may have. Names, references and literals are one
token and nothing else, error nodes hold tokens only, and all other nodes have a row of children of
the shape of their kind, trivia aside. Since a shape speaks of kinds, `Kind.isTerminal` tells the
kinds of tokens from those of nodes: in the tree of a text, no node has the kind of a token and no
token that of a node.

Every node in the tree of every text has children that its kind admits (`admits_children_parse`).
-/

namespace ClassNav

/-! ## Kinds of tokens and kinds of nodes -/

/-- The kinds that tokens of a text have. -/
def Kind.isTerminal : Kind → Bool
  | whitespace | comment
  | ident | number | string
  | classKw | interfaceKw | extendsKw | implementsKw | functionKw | varKw | newKw | returnKw
  | staticKw | publicKw | privateKw | overrideKw | inlineKw
  | lBrace | rBrace | lParen | rParen | semicolon | colon | comma | dot | eq | op | error => true
  | _ => false

namespace Token

theorem isTerminal_punctuation? {c : Char} {k : Kind} (h : punctuation? c = some k) :
    k.isTerminal = true := by
  unfold punctuation? at h
  split at h
  all_goals first
    | cases Option.some.inj h; rfl
    | cases h

theorem isTerminal_ofWord (w : String) : (Kind.ofWord w).isTerminal = true := by
  unfold Kind.ofWord Kind.ofKeyword?
  split <;> rfl

/-- No rule of the lexer makes a token of a kind that is kept for nodes. -/
theorem isTerminal_extent (c : Char) (cs : List Char) : (extent c cs).1.isTerminal = true := by
  unfold extent
  split
  · rfl
  split
  · exact isTerminal_ofWord _
  split
  · rfl
  split
  · split <;> rfl
  split
  · rfl
  · rfl
  · cases h : punctuation? c with
    | none => rfl
    | some k => exact isTerminal_punctuation? h

theorem isTerminal_of_mem_scan {text : String} {t : Token} (h : t ∈ scan text) :
    t.kind.isTerminal = true := by
  obtain ⟨c, rest, rfl⟩ := exists_extent_of_mem h
  exact isTerminal_extent c rest

end Token

/-! ## Admitted children -/

/-- Whether some trees may be the children of a node of kind `k`. -/
def Kind.Admits (k : Kind) (cs : List Tree) : Prop :=
  match k with
  | name | reference => ∃ t : Token, cs = [.leaf t] ∧ t.kind = ident
  | literal => ∃ t : Token, cs = [.leaf t] ∧ (t.kind = number ∨ t.kind = string)
  | errorNode => ∀ c ∈ cs, c.isToken = true
  | k => Form.Derives 0 k.shape (Tree.forestKinds cs)

namespace Tree

/-- A node of a well-formed tree has the kind of a node and children that this kind admits. -/
theorem WellFormed.admits {k : Kind} {cs : List Tree} (h : (Tree.node k cs).WellFormed) :
    k.isTerminal = false ∧ k.Admits cs := by
  cases h with
  | @word _ t hs =>
    rcases Kind.spells_cases hs with ⟨rfl | rfl, ht⟩ | ⟨rfl, ht⟩
    · exact ⟨rfl, t, rfl, ht⟩
    · exact ⟨rfl, t, rfl, ht⟩
    · exact ⟨rfl, t, rfl, ht⟩
  | error ts =>
    refine ⟨rfl, fun c hc => ?_⟩
    obtain ⟨t, _, rfl⟩ := List.mem_map.mp hc
    rfl
  | node hshape _ =>
    -- Where a kind has no shape of its own, there is no row to derive.
    have hnone : ¬ Form.Derives 0 (.anyOf []) (forestKinds cs) := by
      generalize forestKinds cs = w
      rintro ⟨⟩
      next ht => cases ht
    cases k
    all_goals first
      | exact absurd hshape hnone
      | exact ⟨rfl, hshape⟩

end Tree

theorem Site.tokens_subset_of_mem_descendants {s e : Site} (he : e ∈ s.descendants) :
    e.tree.tokens ⊆ s.tree.tokens := by
  induction s using children_induction with
  | h s ih =>
    rcases mem_descendants_iff.mp he with rfl | ⟨c, hc, he⟩
    · exact fun _ hu => hu
    · intro u hu
      rw [tree_eq_node (isToken_of_mem_children hc), Tree.tokens]
      exact mem_forestTokens (tree_mem_of_mem_children hc) (ih c hc he hu)

/-- In the tree of a text, tokens and nodes are told apart by their kinds. -/
theorem isToken_eq_isTerminal {text : String} {s : Site}
    (hs : s ∈ (Site.root (parse text).tree).descendants) : s.isToken = s.kind.isTerminal := by
  have hwf := Site.wellFormed_of_mem_descendants (s := Site.root _) (wellFormed_parse text) hs
  have htokens := Site.tokens_subset_of_mem_descendants hs
  obtain ⟨t, start, above⟩ := s
  cases t with
  | leaf u =>
    have hu : u ∈ Token.scan text := by
      rw [← tokens_parse text]
      exact htokens (List.mem_singleton_self u)
    exact (Token.isTerminal_of_mem_scan hu).symm
  | node k cs => exact hwf.admits.1.symm

/-- Every node in the tree of a text, whatever is missing or unexpected in the text, has children
that its kind admits, and each of them is a token or a node as its own kind says. -/
theorem admits_children_parse {text : String} {s : Site}
    (hs : s ∈ (Site.root (parse text).tree).descendants) (hnode : s.isToken = false) :
    s.kind.isTerminal = false ∧ s.kind.Admits s.tree.children ∧
      ∀ c ∈ s.children, c.isToken = c.kind.isTerminal := by
  have hwf := Site.wellFormed_of_mem_descendants (s := Site.root _) (wellFormed_parse text) hs
  rw [Site.tree_eq_node hnode] at hwf
  refine ⟨hwf.admits.1, hwf.admits.2, fun c hc => ?_⟩
  exact isToken_eq_isTerminal
    (Site.mem_descendants_trans (Site.mem_descendants_of_mem_children hc) hs)

theorem admits_children_of_damaged_class :
    ∃ s ∈ (Site.root (parse "static class { var x } ) ").tree).descendants,
      s.isNode .classDecl = true ∧
      Tree.forestKinds s.tree.children = [.staticKw, .classKw, .classBody] ∧
      Kind.Admits .classDecl s.tree.children := by
  have hany : ((Site.root (parse "static class { var x } ) ").tree).descendants.any fun s =>
      s.isNode .classDecl &&
        Tree.forestKinds s.tree.children == [.staticKw, .classKw, .classBody]) = true := by
    decide +kernel
  obtain ⟨s, hs, h⟩ := List.any_eq_true.mp hany
  simp only [Bool.and_eq_true, beq_iff_eq] at h
  obtain ⟨hnode, hkind⟩ := Site.isNode_iff.mp h.1
  exact ⟨s, hs, h.1, h.2, hkind ▸ (admits_children_parse hs hnode).2.1⟩

end ClassNav
