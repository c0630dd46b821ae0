import ClassNav.Proofs.Grammar.Cursor
import ClassNav.Proofs.Syntax.Place

/-!
# How deep trees are nested

Nodes that may contain their like again are those of classes, structures and blocks, and of
parentheses and argument lists for expressions. `Tree.nesting` is the greatest number of them on a
way down through a tree. A rule adds few of them to what the constructs in it come to (`Rule.adds`
can be evaluated): the rule of a construct one, and that of a file none. So each level of the limit
on constructs allows for one more such node, and there are no more than `maxDepth` of them around
any element of any text (`countP_isNesting_parse`).
-/

namespace ClassNav

/-! ## Nodes that may contain their like -/

/-- Kinds of nodes that may contain nodes of their kind again, at any depth. -/
def Kind.isNesting : Kind → Bool
  | classDecl | block | anonymousType | parenExpr | argList => true
  | _ => false

namespace Tree

def isNesting (t : Tree) : Bool := !t.isToken && t.kind.isNesting

mutual

/-- The greatest number of nesting nodes on a way down through a tree. -/
def nesting : Tree → Nat
  | leaf _ => 0
  | node k cs => forestNesting cs + k.isNesting.toNat

def forestNesting : List Tree → Nat
  | [] => 0
  | t :: ts => max t.nesting (forestNesting ts)

end

theorem forestNesting_append (ts us : List Tree) :
    forestNesting (ts ++ us) = max (forestNesting ts) (forestNesting us) := by
  induction ts with
  | nil => simp [forestNesting]
  | cons t ts ih => rw [List.cons_append, forestNesting, forestNesting, ih, Nat.max_assoc]

theorem forestNesting_leaves (ts : List Token) : forestNesting (ts.map leaf) = 0 := by
  induction ts with
  | nil => simp [forestNesting]
  | cons t ts ih => simp [forestNesting, nesting, ih]

theorem nesting_le_of_mem {t : Tree} {ts : List Tree} (h : t ∈ ts) :
    t.nesting ≤ forestNesting ts := by
  induction h with
  | head ts => exact Nat.le_max_left _ _
  | tail u _ ih => exact Nat.le_trans ih (Nat.le_max_right _ _)

theorem nesting_eq (t : Tree) : t.nesting = forestNesting t.children + t.isNesting.toNat := by
  cases t with
  | leaf t => simp [nesting, children, forestNesting, isNesting, isToken]
  | node k cs => simp [nesting, children, isNesting, isToken, kind]

end Tree

def Site.isNesting (s : Site) : Bool := s.tree.isNesting

/-- Around an element below `s` there are no more nesting nodes than around `s` and on a way down
through it together. -/
theorem Site.countP_isNesting_le {s e : Site} (he : e ∈ s.descendants) :
    e.ancestors.countP isNesting ≤ s.tree.nesting + (climb s.above).countP isNesting := by
  induction s using children_induction with
  | h s ih =>
    have hself : s.ancestors.countP isNesting =
        (climb s.above).countP isNesting + s.tree.isNesting.toNat := by
      rw [ancestors, List.countP_cons]
      cases h : s.tree.isNesting <;> simp [isNesting, h]
    rw [Tree.nesting_eq]
    rcases mem_descendants_iff.mp he with rfl | ⟨c, hc, he⟩
    · rw [hself]
      omega
    · obtain ⟨i, habove⟩ := above_of_mem_children hc
      have hbelow := ih c hc he
      have hchild := Tree.nesting_le_of_mem (tree_mem_of_mem_children hc)
      have hclimb : climb c.above = s.ancestors := by rw [habove]; rfl
      rw [hclimb, hself] at hbelow
      omega

/-! ## What rules add -/

/-- Whether a rule puts at most `m` nesting nodes around what the constructs in it come to. -/
def Rule.adds : (m : Nat) → Rule → Bool
  | m, seq a b => a.adds m && b.adds m
  | m, node k body => if k.isNesting then 0 < m && body.adds (m - 1) else body.adds m
  | m, look _ next => Kind.all.all fun k => (next k).adds m
  | m, loop _ body => body.adds m
  | m, chain first wrap next => first.adds m &&
      Kind.all.all fun k => (next k).adds m && (wrap k).all fun k' => !k'.isNesting
  | m, progress body _ => body.adds m
  | _, _ => true

/-- The trees of an outcome are nested at most `n` deep. -/
def Outcome.NestsWithin (o : Outcome) (n : Nat) : Prop := Tree.forestNesting o.trees ≤ n

namespace Outcome

variable {o : Outcome} {n : Nat}

theorem NestsWithin.andThen {next : Cursor → Outcome} (h : o.NestsWithin n)
    (hnext : (next o.cursor).NestsWithin n) : (o.andThen next).NestsWithin n := by
  show Tree.forestNesting (o.trees ++ (next o.cursor).trees) ≤ n
  rw [Tree.forestNesting_append]
  exact Nat.max_le.mpr ⟨h, hnext⟩

/-- Enclosing trees in a nesting node adds one to the nesting, and in any other node nothing. -/
theorem NestsWithin.enclose {k : Kind} (h : o.NestsWithin n) :
    (o.enclose k).NestsWithin (n + k.isNesting.toNat) := by
  show Tree.forestNesting [.node k o.trees] ≤ _
  simp only [Tree.forestNesting, Tree.nesting, Nat.max_zero]
  exact Nat.add_le_add_right h _

theorem NestsWithin.wrapWhile {wrap : Kind → Option Kind} {next : Kind → Cursor → Outcome}
    (hwrap : ∀ k k', wrap k = some k' → k'.isNesting = false)
    (hnext : ∀ k c, (next k c).NestsWithin n) (bound : Nat) (h : o.NestsWithin n) :
    (wrapWhile wrap next bound o).NestsWithin n := by
  induction bound generalizing o with
  | zero => exact h
  | succ bound ih =>
    unfold Outcome.wrapWhile
    split
    · exact h
    · next k hk =>
      have henclosed := (h.andThen (hnext o.cursor.current o.cursor)).enclose (k := k)
      rw [hwrap _ _ hk] at henclosed
      exact ih henclosed

end Outcome

namespace Cursor

variable {n : Nat}

theorem nestsWithin_take (m : Nat) (c : Cursor) : (c.take m).NestsWithin n := by
  show Tree.forestNesting ((c.rest.take m).map .leaf) ≤ n
  rw [Tree.forestNesting_leaves]
  exact Nat.zero_le n

theorem nestsWithin_stay (c : Cursor) : c.stay.NestsWithin n := Nat.zero_le n

theorem nestsWithin_report (f : Fault) (c : Cursor) : (c.report f).NestsWithin n := Nat.zero_le n

theorem nestsWithin_reject (f : Fault) (c : Cursor) : (c.reject f).NestsWithin n :=
  (nestsWithin_report f c).andThen
    ((nestsWithin_take _ _).andThen (nestsWithin_take (n := n) _ _).enclose)

/-- What is cut off is flat. -/
theorem nestsWithin_cutOff (c : Cursor) : c.cutOff.NestsWithin n :=
  (nestsWithin_report _ c).andThen
    ((nestsWithin_take _ _).andThen (nestsWithin_take (n := n) _ _).enclose)

theorem nestsWithin_repeatWhile {test : Cursor → Bool} {body : Cursor → Outcome}
    (hbody : ∀ c, (body c).NestsWithin n) (bound : Nat) (c : Cursor) :
    (repeatWhile test body bound c).NestsWithin n := by
  induction bound generalizing c with
  | zero => exact nestsWithin_stay c
  | succ bound ih =>
    unfold repeatWhile
    split
    · exact (hbody c).andThen (ih _)
    · exact nestsWithin_stay c

end Cursor

/-- What a rule comes to is nested as deep as the constructs in it and the nodes it adds. -/
theorem Rule.nestsWithin_run {deeper : Construct → Cursor → Outcome} {n : Nat}
    (hdeeper : ∀ k c, (deeper k c).NestsWithin n) {m : Nat} {r : Rule} (hr : r.adds m = true)
    (c : Cursor) : (r.run deeper c).NestsWithin (n + m) := by
  induction r generalizing m c with
  | done => exact c.nestsWithin_stay
  | gap => exact c.nestsWithin_take _
  | bump => exact c.nestsWithin_take _
  | report f => exact c.nestsWithin_report f
  | seq a b iha ihb =>
    obtain ⟨ha, hb⟩ := Bool.and_eq_true_iff.mp hr
    exact (iha ha c).andThen (ihb hb _)
  | node k body ih =>
    refine (c.nestsWithin_take _).andThen ?_
    -- A nesting node uses up one of the `m` that the rule may add.
    unfold adds at hr
    cases hk : k.isNesting with
    | false =>
      have hbody := (ih (by simpa [hk] using hr) c.gap.cursor).enclose (k := k)
      rw [hk] at hbody
      exact hbody
    | true =>
      obtain ⟨hpos, hbody⟩ : 0 < m ∧ body.adds (m - 1) = true := by simpa [hk] using hr
      have hbody := (ih hbody c.gap.cursor).enclose (k := k)
      rw [hk, Nat.add_assoc, Bool.toNat_true, Nat.sub_add_cancel hpos] at hbody
      exact hbody
  | look skip next ih => exact ih _ (List.all_eq_true.mp hr _ (Kind.mem_all _)) c
  | loop test body ih => exact Cursor.nestsWithin_repeatWhile (ih hr) _ c
  | chain first wrap next ihf ihn =>
    obtain ⟨hf, hall⟩ := Bool.and_eq_true_iff.mp hr
    have hall : ∀ k, (next k).adds m = true ∧ ((wrap k).all fun k' => !k'.isNesting) = true :=
      fun k => Bool.and_eq_true_iff.mp (List.all_eq_true.mp hall k (Kind.mem_all k))
    refine (ihf hf c).wrapWhile (fun k k' hk => ?_) (fun k c => ihn k (hall k).1 c) _
    simpa [hk] using (hall k).2
  | progress body f ih =>
    simp only [run]
    split
    · exact (ih hr c).andThen (Cursor.nestsWithin_reject f _)
    · exact ih hr c
  | nest k => exact Nat.le_trans (hdeeper k c) (Nat.le_add_right n m)

/-! ## Constructs and texts -/

/-- No production puts two nesting nodes around one construct. -/
theorem Construct.adds_rule (k : Construct) : k.rule.adds 1 = true := by
  cases k <;> decide +kernel

/-- A construct is nested as deep as the limit allows for. -/
theorem Construct.nestsWithin_parse (n : Nat) (k : Construct) (c : Cursor) :
    (parse n k c).NestsWithin n := by
  induction n generalizing k c with
  | zero => exact c.nestsWithin_cutOff
  | succ n ih => exact Rule.nestsWithin_run ih k.adds_rule c

/-- No way down through the tree of a text passes through more than 256 nesting nodes. -/
theorem nesting_parse (text : String) : (parse text).tree.nesting ≤ maxDepth := by
  have hfile : Rule.file.adds 0 = true := by decide +kernel
  exact Rule.nestsWithin_run (Construct.nestsWithin_parse maxDepth) hfile ⟨0, Token.scan text⟩

/-- On the way from the root of the tree of a text to any element of it, that element included,
there are no more than `maxDepth` nodes of classes, blocks, structures, parentheses and argument
lists. -/
theorem countP_isNesting_parse (text : String) {s : Site}
    (hs : s ∈ (Site.root (parse text).tree).descendants) :
    s.ancestors.countP Site.isNesting ≤ maxDepth :=
  Nat.le_trans (Site.countP_isNesting_le hs) (nesting_parse text)

theorem countP_isNesting_of_call :
    ∃ s ∈ (Site.root (parse "class A { function f() { f((x)); } }").tree).descendants,
      s.kind = .ident ∧ s.ancestors.countP Site.isNesting = 4 ∧
      s.ancestors.countP Site.isNesting ≤ maxDepth := by
  have hany : ((Site.root (parse "class A { function f() { f((x)); } }").tree).descendants.any
      fun s => s.kind == .ident && s.ancestors.countP Site.isNesting == 4) = true := by
    decide +kernel
  obtain ⟨s, hs, h⟩ := List.any_eq_true.mp hany
  simp only [Bool.and_eq_true, beq_iff_eq] at h
  exact ⟨s, hs, h.1, h.2, countP_isNesting_parse _ hs⟩

end ClassNav
