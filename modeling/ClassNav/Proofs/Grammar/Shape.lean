import ClassNav.Proofs.Grammar.Form
import ClassNav.Syntax.Tree

/-!
# The shapes of nodes

Which children a node has, in which order, depends on its kind alone, whatever is missing or
unexpected in the text. `Kind.shape` is the form of the kinds of the children, trivia aside, and a
tree is `Tree.WellFormed` if every node in it has the shape of its kind.

A form is data, so that much of what its rows have in common can be read off by evaluation:

* `Form.avoids`: a kind occurs in no row.
* `Form.atMostOnce`: a kind occurs at most once in every row.
* `Form.demands`: every row has a kind that passes a test.
-/

namespace ClassNav

/-! ## Shapes -/

namespace Form

def anyOf (ks : List Kind) : Form := one (ks.contains ·)

/-- Operators and what they stand before, or a field access or a call. -/
def selectableParts : Form :=
  alt (seq (many (token .op)) (anyOf [.reference, .literal, .newExpr, .parenExpr]))
    (anyOf [.fieldExpr, .callExpr])

/-- An operand; where none was found, perhaps something that was refused in its place. -/
def operandParts : Form := alt selectableParts (seq (many (token .op)) (opt (token .errorNode)))

/-- An expression, which has no node of its own. -/
def expressionParts : Form := alt operandParts (token .binExpr)

def initialParts : Form := seq (token .eq) expressionParts

/-- Braces around some nodes. -/
def bracedParts (ks : List Kind) : Form :=
  row [token .lBrace, many (anyOf ks), opt (token .rBrace)]

end Form

open Form in
/-- The kinds of the children of a node, trivia aside. -/
def Kind.shape : Kind → Form
  | sourceFile => many (anyOf [classDecl, errorNode])
  | classDecl =>
    row [modifiers, anyOf [classKw, interfaceKw], opt (token name), opt (token extendsClause),
      opt (token implementsClause), opt (token classBody)]
  | extendsClause => row [token extendsKw, opt (token reference)]
  | implementsClause =>
    row [token implementsKw, opt (token reference),
      many (seq (token comma) (opt (token reference)))]
  | classBody | anonymousType => bracedParts [methodDecl, varDecl, classDecl, errorNode]
  | methodDecl =>
    row [modifiers, token functionKw, opt (token name), opt (token paramList), opt (token typeTag),
      opt (anyOf [block, errorNode, semicolon])]
  | varDecl =>
    row [modifiers, token varKw, opt (token name), opt (token typeTag), opt initialParts,
      opt (token semicolon)]
  | paramList =>
    row [token lParen,
      opt (row [token param, many (seq (token comma) (token param)), opt (token comma)]),
      opt (token rParen)]
  | param => row [token name, opt (token typeTag), opt initialParts]
  | typeTag => row [token colon, opt (anyOf [reference, anonymousType, errorNode])]
  | block => bracedParts [varDecl, block, returnStmt, exprStmt, errorNode, semicolon]
  | exprStmt => row [expressionParts, opt (token semicolon)]
  | returnStmt => row [token returnKw, expressionParts, opt (token semicolon)]
  | callExpr => seq selectableParts (token argList)
  | newExpr => row [token newKw, opt (token reference), opt (token argList)]
  | fieldExpr => row [selectableParts, token dot, opt (token reference)]
  | parenExpr => row [token lParen, expressionParts, opt (token rParen)]
  | binExpr => row [expressionParts, anyOf [op, eq], operandParts]
  | argList => row [token lParen, opt (commaList expressionParts), opt (token rParen)]
  | _ => anyOf []

/-- Whether a node of kind `k` holds one token of kind `t` and nothing else. -/
def Kind.spells (k t : Kind) : Bool :=
  match k, t with
  | name, ident | reference, ident | literal, number | literal, string => true
  | _, _ => false

/-- Only names, references and literals are single tokens. -/
theorem Kind.spells_cases {k t : Kind} (h : k.spells t = true) :
    (k = .name ∨ k = .reference) ∧ t = .ident ∨ k = .literal ∧ (t = .number ∨ t = .string) := by
  unfold spells at h
  split at h
  · exact .inl ⟨.inl rfl, rfl⟩
  · exact .inl ⟨.inr rfl, rfl⟩
  · exact .inr ⟨rfl, .inl rfl⟩
  · exact .inr ⟨rfl, .inr rfl⟩
  · cases h

namespace Tree

/-- The kinds of some trees, trivia aside. -/
def forestKinds (ts : List Tree) : List Kind := (ts.map kind).filter (!·.isTrivia)

theorem forestKinds_append (ts us : List Tree) :
    forestKinds (ts ++ us) = forestKinds ts ++ forestKinds us := by
  simp [forestKinds]

theorem mem_forestKinds {ts : List Tree} {k : Kind} :
    k ∈ forestKinds ts ↔ (∃ t ∈ ts, t.kind = k) ∧ k.isTrivia = false := by
  simp [forestKinds]

/-- Every node in a tree has the children that its kind asks for: some single token, any tokens in
an error node, and else a row of its shape. -/
inductive WellFormed : Tree → Prop
  | leaf (t : Token) : WellFormed (leaf t)
  | word {k : Kind} {t : Token} : k.spells t.kind = true → WellFormed (node k [leaf t])
  | error (ts : List Token) : WellFormed (node .errorNode (ts.map leaf))
  | node {k : Kind} {cs : List Tree} : Form.Derives 0 k.shape (forestKinds cs) →
      (∀ c ∈ cs, WellFormed c) → WellFormed (node k cs)

end Tree

/-! ## What the rows of a form have in common -/

namespace Form

/-- Whether a kind is in no row of a form. -/
def avoids (k : Kind) : Form → Bool
  | empty => true
  | one test => !test k
  | seq f g => f.avoids k && g.avoids k
  | alt f g => f.avoids k && g.avoids k
  | many f => f.avoids k
  | nested _ => true

/-- Whether a kind is at most once in every row of a form. -/
def atMostOnce (k : Kind) : Form → Bool
  | seq f g => f.atMostOnce k && g.avoids k || f.avoids k && g.atMostOnce k
  | alt f g => f.atMostOnce k && g.atMostOnce k
  | many f => f.avoids k
  | _ => true

/-- Whether every row of a form has a kind that passes a test. -/
def demands (p : Kind → Bool) : Form → Bool
  | one test => Kind.all.all fun k => !test k || p k
  | seq f g => f.demands p || g.demands p
  | alt f g => f.demands p && g.demands p
  | nested _ => true
  | _ => false

variable {k : Kind} {f : Form} {w : List Kind}

theorem not_mem_of_avoids (h : f.avoids k = true) (hw : Derives 0 f w) : k ∉ w := by
  generalize hn : 0 = n at hw
  induction hw with
  | empty => exact List.not_mem_nil
  | one ht =>
    intro hk
    obtain rfl := List.mem_singleton.mp hk
    simp [avoids, ht] at h
  | seq _ _ ihf ihg =>
    simp only [avoids, Bool.and_eq_true] at h
    exact fun hk => (List.mem_append.mp hk).elim (ihf h.1 hn) (ihg h.2 hn)
  | altLeft _ ih =>
    simp only [avoids, Bool.and_eq_true] at h
    exact ih h.1 hn
  | altRight _ ih =>
    simp only [avoids, Bool.and_eq_true] at h
    exact ih h.2 hn
  | manyNil => exact List.not_mem_nil
  | manyCons _ _ ihf ihr => exact fun hk => (List.mem_append.mp hk).elim (ihf h hn) (ihr h hn)
  | nested => cases hn

/-- A kind that a form has in one place only, outside repetitions, comes once at most. -/
theorem count_le_one_of_atMostOnce (h : f.atMostOnce k = true) (hw : Derives 0 f w) :
    w.count k ≤ 1 := by
  generalize hn : 0 = n at hw
  induction hw with
  | empty => exact Nat.zero_le 1
  | one ht => exact List.count_le_length
  | seq hu hv ihf ihg =>
    subst hn
    simp only [atMostOnce, Bool.or_eq_true, Bool.and_eq_true] at h
    rw [List.count_append]
    -- One of the two forms does not mention the kind.
    rcases h with ⟨hf, hg⟩ | ⟨hf, hg⟩
    · rw [List.count_eq_zero.mpr (not_mem_of_avoids hg hv)]
      exact ihf hf rfl
    · rw [List.count_eq_zero.mpr (not_mem_of_avoids hf hu), Nat.zero_add]
      exact ihg hg rfl
  | altLeft _ ih =>
    simp only [atMostOnce, Bool.and_eq_true] at h
    exact ih h.1 hn
  | altRight _ ih =>
    simp only [atMostOnce, Bool.and_eq_true] at h
    exact ih h.2 hn
  | manyNil => exact Nat.zero_le 1
  | manyCons hu hv =>
    subst hn
    rw [List.count_eq_zero.mpr (not_mem_of_avoids (f := many _) h (.manyCons hu hv))]
    exact Nat.zero_le 1
  | nested => cases hn

/-- Something that a form asks for is in every row of it. -/
theorem exists_mem_of_demands {p : Kind → Bool} (h : f.demands p = true) (hw : Derives 0 f w) :
    ∃ k ∈ w, p k = true := by
  generalize hn : 0 = n at hw
  induction hw with
  | empty => cases h
  | @one _ test k ht =>
    have hk := List.all_eq_true.mp h k (Kind.mem_all k)
    exact ⟨k, List.mem_singleton_self k, by simpa [ht] using hk⟩
  | seq _ _ ihf ihg =>
    simp only [demands, Bool.or_eq_true] at h
    rcases h with h | h
    · obtain ⟨k, hk, hp⟩ := ihf h hn
      exact ⟨k, List.mem_append_left _ hk, hp⟩
    · obtain ⟨k, hk, hp⟩ := ihg h hn
      exact ⟨k, List.mem_append_right _ hk, hp⟩
  | altLeft _ ih =>
    simp only [demands, Bool.and_eq_true] at h
    exact ih h.1 hn
  | altRight _ ih =>
    simp only [demands, Bool.and_eq_true] at h
    exact ih h.2 hn
  | manyNil => cases h
  | manyCons => cases h
  | nested => cases hn

end Form

end ClassNav
