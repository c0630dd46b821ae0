import ClassNav.Proofs.Grammar.Unlimited

/-!
# Constructs past the limit

A construct that is nested too deeply is to be put whole into one error node, and the rest of the
text parsed as if there were no limit. `marked` says where these nodes belong: it parses without a
limit, and encloses each construct one level past it. `CutsWhole` says that parsing puts them there,
and reports nothing else.

It does so exactly if each of these constructs is compact (`cutsWhole_iff`): the end of a construct
is found by counting brackets, which stops behind the first group, as in `a()+1`, and before a
separator outside all groups, as in `class A implements B, C { }`.

* What is enclosed has the form of a construct, and taking the enclosing nodes away again gives
  the tree that there is without a limit (`Construct.marks_mark`).
* Parsing agrees with marking where all enclosed rows are compact (`Construct.cuts_parse`), and
  every row that parsing encloses is compact, unless something else is reported
  (`Construct.encloses_parse`).
-/

namespace ClassNav

/-! ## Error nodes in trees -/

namespace Tree

mutual

/-- A tree in which the error nodes hold nothing but their tokens. -/
def flatten : Tree → Tree
  | leaf t => leaf t
  | node k cs => node k (if k = .errorNode then (forestTokens cs).map leaf else forestFlatten cs)

def forestFlatten : List Tree → List Tree
  | [] => []
  | t :: ts => t.flatten :: forestFlatten ts

end

mutual

/-- What a tree comes to if its outermost error nodes are replaced by what they hold. -/
def dissolve : Tree → List Tree
  | leaf t => [leaf t]
  | node k cs => if k = .errorNode then cs else [node k (forestDissolve cs)]

def forestDissolve : List Tree → List Tree
  | [] => []
  | t :: ts => t.dissolve ++ forestDissolve ts

end

mutual

/-- The tokens of each outermost error node of a tree. -/
def errorRows : Tree → List (List Token)
  | leaf _ => []
  | node k cs => if k = .errorNode then [forestTokens cs] else forestErrorRows cs

def forestErrorRows : List Tree → List (List Token)
  | [] => []
  | t :: ts => t.errorRows ++ forestErrorRows ts

end

mutual

def count (k : Kind) : Tree → Nat
  | leaf _ => 0
  | node j cs => (if j = k then 1 else 0) + forestCount k cs

def forestCount (k : Kind) : List Tree → Nat
  | [] => 0
  | t :: ts => t.count k + forestCount k ts

end

theorem forestFlatten_append (ts us : List Tree) :
    forestFlatten (ts ++ us) = forestFlatten ts ++ forestFlatten us := by
  induction ts with
  | nil => simp [forestFlatten]
  | cons t ts ih => simp [forestFlatten, ih]

theorem forestFlatten_leaves (ts : List Token) : forestFlatten (ts.map leaf) = ts.map leaf := by
  induction ts with
  | nil => simp [forestFlatten]
  | cons t ts ih => simp [forestFlatten, flatten, ih]

theorem forestDissolve_append (ts us : List Tree) :
    forestDissolve (ts ++ us) = forestDissolve ts ++ forestDissolve us := by
  induction ts with
  | nil => simp [forestDissolve]
  | cons t ts ih => simp [forestDissolve, ih]

theorem forestDissolve_leaves (ts : List Token) : forestDissolve (ts.map leaf) = ts.map leaf := by
  induction ts with
  | nil => simp [forestDissolve]
  | cons t ts ih => simp [forestDissolve, dissolve, ih]

theorem forestErrorRows_append (ts us : List Tree) :
    forestErrorRows (ts ++ us) = forestErrorRows ts ++ forestErrorRows us := by
  induction ts with
  | nil => simp [forestErrorRows]
  | cons t ts ih => simp [forestErrorRows, ih]

theorem forestErrorRows_leaves (ts : List Token) : forestErrorRows (ts.map leaf) = [] := by
  induction ts with
  | nil => simp [forestErrorRows]
  | cons t ts ih => simp [forestErrorRows, errorRows, ih]

theorem forestCount_append (k : Kind) (ts us : List Tree) :
    forestCount k (ts ++ us) = forestCount k ts + forestCount k us := by
  induction ts with
  | nil => simp [forestCount]
  | cons t ts ih => simp [forestCount, ih, Nat.add_assoc]

theorem forestCount_leaves (k : Kind) (ts : List Token) : forestCount k (ts.map leaf) = 0 := by
  induction ts with
  | nil => simp [forestCount]
  | cons t ts ih => simp [forestCount, count, ih]

mutual

/-- Flat error nodes hold the same tokens. -/
theorem errorRows_flatten : (t : Tree) → t.flatten.errorRows = t.errorRows
  | leaf t => by simp [flatten]
  | node k cs => by
    by_cases hk : k = .errorNode
    · simp [flatten, errorRows, hk, forestTokens_leaves]
    · simp [flatten, errorRows, hk, forestErrorRows_forestFlatten cs]

/-- Flattening an error node keeps its tokens. -/
theorem forestErrorRows_forestFlatten : (ts : List Tree) →
    forestErrorRows (forestFlatten ts) = forestErrorRows ts
  | [] => by simp [forestFlatten]
  | t :: ts => by
    simp [forestFlatten, forestErrorRows, errorRows_flatten t, forestErrorRows_forestFlatten ts]

end

end Tree

/-! ## Marking -/

/-- Parses a construct without a limit, and encloses the constructs that are nested more than
`levels` deep. -/
def Construct.mark : (levels : Nat) → Construct → Cursor → Outcome
  | 0, k, c => c.gap.andThen fun c => (k.parseFreely c).enclose .errorNode
  | n + 1, k, c => k.rule.run (mark n) c

/-- The tree of a text without a limit on the nesting, in which the constructs one level past the
limit are enclosed in error nodes. -/
def marked (text : String) : Tree :=
  .node .sourceFile (Rule.file.run (Construct.mark maxDepth) ⟨0, Token.scan text⟩).trees

/-- A row of kinds is a class, a block, a structure or an expression. -/
def Kind.IsConstruct (ks : List Kind) : Prop := ∃ n k, Form.Derives n (.nested k) ks

/-- Parsing reports nothing but that constructs are nested too deeply, once for each error node of
the tree, and the error nodes hold the constructs one level past the limit, in a tree that is
otherwise the one without a limit. -/
structure CutsWhole (text : String) : Prop where
  faults : ∀ p ∈ (parse text).problems, p.message = "nesting too deep"
  count : (parse text).problems.length = (parse text).tree.count .errorNode
  tree : (parse text).tree = (marked text).flatten

namespace Construct

/-- What is parsed as a construct without problems is one. -/
theorem derives_parseFreely {k : Construct} {c : Cursor} (hopens : k.Opens c.kinds)
    (h : (k.parseFreely c).Clean) :
    ∃ n, Form.Derives n (.nested k) (Token.kinds (Tree.forestTokens (k.parseFreely c).trees)) := by
  have hreads := (reads_iff _ k c _).mpr ⟨h, rfl⟩
  obtain ⟨w, hw, hderives⟩ := sound _ k _ _ hopens hreads
  have hcovers : Token.kinds _ ++ Token.kinds _ = c.kinds :=
    Token.kinds_append _ _ ▸ congrArg Token.kinds (lively_parseFreely.covers k c)
  obtain rfl := List.append_cancel_right (hw.symm.trans hcovers.symm)
  exact ⟨_, hderives⟩

/-- A construct that the screen lets pass without a report opened here and ended before a kind that
it precedes. -/
theorem screen_of_clean {deeper : Construct → Cursor → Outcome} {k : Construct} {c : Cursor}
    (h : (screen deeper k c).Clean) : screen deeper k c = deeper k c ∧ k.Opens c.kinds ∧
      k.precedes (deeper k c).cursor.current = true := by
  unfold screen at h ⊢
  split at h
  · next hfits => exact ⟨if_pos hfits, hfits⟩
  · cases h

end Construct

/-! ## What is enclosed -/

/-- All rows that an outcome encloses in error nodes satisfy `P`. -/
def Outcome.Encloses (P : List Kind → Prop) (o : Outcome) : Prop :=
  ∀ row ∈ Tree.forestErrorRows o.trees, P (Token.kinds row)

/-- One outcome is another with constructs enclosed in error nodes, and nothing is reported. -/
structure Outcome.Marks (o o' : Outcome) : Prop where
  cursor : o.cursor = o'.cursor
  clean : o.Clean
  dissolve : Tree.forestDissolve o.trees = o'.trees
  encloses : o.Encloses Kind.IsConstruct

namespace Outcome

variable {P : List Kind → Prop} {o : Outcome}

theorem encloses_take (n : Nat) (c : Cursor) : (c.take n).Encloses P := by
  show ∀ row ∈ Tree.forestErrorRows ((c.rest.take n).map .leaf), _
  rw [Tree.forestErrorRows_leaves]
  exact nofun

theorem encloses_andThen_iff {next : Cursor → Outcome} :
    (o.andThen next).Encloses P ↔ o.Encloses P ∧ (next o.cursor).Encloses P := by
  show (∀ row ∈ Tree.forestErrorRows (o.trees ++ (next o.cursor).trees), _) ↔ _
  rw [Tree.forestErrorRows_append]
  exact List.forall_mem_append

theorem encloses_enclose_iff {k : Kind} (hk : k ≠ .errorNode) :
    (o.enclose k).Encloses P ↔ o.Encloses P := by
  show (∀ row ∈ Tree.forestErrorRows [.node k o.trees], _) ↔ _
  simp only [Tree.forestErrorRows, Tree.errorRows, hk, if_false, List.append_nil]
  rfl

theorem carried_marks : Carried fun _ => Marks where
  cursor h := h.cursor
  take n c := ⟨rfl, rfl, Tree.forestDissolve_leaves _, encloses_take n c⟩
  andThen := by
    rintro c ⟨ts, ps, d⟩ ⟨ts', ps', _⟩ next next' ⟨rfl, hclean, hdissolve, hrows⟩ hnext
    refine ⟨hnext.cursor, List.append_eq_nil_iff.mpr ⟨hclean, hnext.clean⟩, ?_,
      encloses_andThen_iff.mpr ⟨hrows, hnext.encloses⟩⟩
    show Tree.forestDissolve (ts ++ (next d).trees) = ts' ++ (next' d).trees
    rw [Tree.forestDissolve_append, hdissolve, hnext.dissolve]
  enclose := by
    rintro c ⟨ts, ps, d⟩ ⟨ts', ps', _⟩ k hk ⟨rfl, hclean, hdissolve, hrows⟩
    refine ⟨rfl, hclean, ?_, (encloses_enclose_iff hk).mpr hrows⟩
    show Tree.forestDissolve [.node k ts] = [.node k ts']
    simpa [Tree.forestDissolve, Tree.dissolve, hk] using hdissolve

end Outcome

namespace Construct

/-- Below the last level a construct is parsed to its end and then enclosed. -/
theorem trees_mark_zero (k : Construct) (c : Cursor) : (mark 0 k c).trees =
    c.gap.trees ++ [.node .errorNode (k.parseFreely c.gap.cursor).trees] := rfl

theorem encloses_mark_zero_iff {P : List Kind → Prop} {k : Construct} {c : Cursor} :
    (mark 0 k c).Encloses P ↔
      P (Token.kinds (Tree.forestTokens (k.parseFreely c.gap.cursor).trees)) := by
  rw [Outcome.Encloses, trees_mark_zero, Tree.forestErrorRows_append, Cursor.trees_gap,
    Tree.forestErrorRows_leaves]
  simp [Tree.forestErrorRows, Tree.errorRows]

/-- What is enclosed is the construct as it would be without a limit. -/
theorem marks_mark_zero {k : Construct} {c : Cursor} (hopens : k.Opens c.kinds)
    (h : (k.parseFreely c).Clean) : (mark 0 k c).Marks (k.parseFreely c) := by
  rw [← gap_andThen_parseFreely] at h ⊢
  obtain ⟨_, hclean⟩ := List.append_eq_nil_iff.mp h
  refine ⟨rfl, h, ?_, ?_⟩
  · show _ = c.gap.trees ++ _
    rw [trees_mark_zero, Tree.forestDissolve_append, Cursor.trees_gap, Tree.forestDissolve_leaves]
    simp [Tree.forestDissolve, Tree.dissolve]
  · obtain ⟨n, hderives⟩ := derives_parseFreely (c.kinds_gap ▸ hopens) hclean
    exact encloses_mark_zero_iff.mpr ⟨n, k, hderives⟩

/-- Marking encloses constructs in what is parsed without a limit. -/
theorem marks_mark (n : Nat) {k : Construct} {c : Cursor} (h : (k.parseFreely c).Clean) :
    (mark (n + 1) k c).Marks (k.parseFreely c) := by
  induction n generalizing k c with
  | zero =>
    rw [parseFreely_eq] at h ⊢
    have hscreen := run_screen_rule h
    rw [← hscreen] at h ⊢
    refine Rule.transfer Outcome.inherited_clean Outcome.carried_marks ?_ k.isTidy_rule h
    intro k c hk
    obtain ⟨heq, hopens, _⟩ := screen_of_clean hk
    rw [heq] at hk ⊢
    exact marks_mark_zero hopens hk
  | succ n ih =>
    rw [parseFreely_eq] at h ⊢
    exact Rule.transfer Outcome.inherited_clean Outcome.carried_marks (fun _ _ => ih)
      k.isTidy_rule h

end Construct

/-! ## What is cut off -/

theorem Cursor.trees_cutOff (c : Cursor) : c.cutOff.trees = c.gap.trees ++
    [.node .errorNode ((c.gap.cursor.rest.take (Token.swallow 0 c.gap.cursor.rest)).map .leaf)] :=
  rfl

/-- Nothing is reported but that constructs are nested too deeply. -/
def Outcome.Mild (o : Outcome) : Prop := ∀ p ∈ o.problems, p.fault = .nestingTooDeep

theorem Outcome.inherited_mild : Inherited Mild where
  andThen h := List.forall_mem_append.mp h
  enclose _ h := h
  report hf h := hf (h _ List.mem_cons_self)

theorem Outcome.inherited_encloses (P : List Kind → Prop) :
    Inherited fun o => o.Clean ∧ o.Encloses P where
  andThen := by
    rintro o next ⟨hclean, hrows⟩
    obtain ⟨hfirst, hsecond⟩ := List.append_eq_nil_iff.mp hclean
    obtain ⟨hrows, hrows'⟩ := encloses_andThen_iff.mp hrows
    exact ⟨⟨hfirst, hrows⟩, hsecond, hrows'⟩
  enclose hk h := ⟨h.1, (encloses_enclose_iff hk).mp h.2⟩
  report _ := nofun

/-- To do the same, and to enclose only what satisfies `P`, goes over from the parts to the
whole. -/
theorem Outcome.carried_encloses (P : List Kind → Prop) :
    Carried fun _ o o' => o = o' ∧ o.Encloses P where
  cursor h := h.1 ▸ rfl
  take n c := ⟨rfl, encloses_take n c⟩
  andThen := by
    rintro c o _ next next' ⟨rfl, ho⟩ ⟨hnext, hrows⟩
    exact ⟨Outcome.andThen_congr hnext, encloses_andThen_iff.mpr ⟨ho, hrows⟩⟩
  enclose hk h := ⟨h.1 ▸ rfl, (encloses_enclose_iff hk).mpr h.2⟩

/-- One outcome is another with flat error nodes, each of which is reported as nested too deeply. -/
structure Outcome.Cuts (o o' : Outcome) : Prop where
  cursor : o.cursor = o'.cursor
  trees : o.trees = Tree.forestFlatten o'.trees
  mild : o.Mild
  count : o.problems.length = Tree.forestCount .errorNode o.trees

theorem Outcome.carried_cuts : Carried fun _ => Cuts where
  cursor h := h.cursor
  take n c :=
    ⟨rfl, (Tree.forestFlatten_leaves _).symm, nofun, (Tree.forestCount_leaves _ _).symm⟩
  andThen := by
    rintro c ⟨ts, ps, d⟩ ⟨ts', ps', _⟩ next next' ⟨rfl, htrees, hmild, hcount⟩ hnext
    refine ⟨hnext.cursor, ?_, List.forall_mem_append.mpr ⟨hmild, hnext.mild⟩, ?_⟩
    · show ts ++ (next d).trees = Tree.forestFlatten (ts' ++ (next' d).trees)
      rw [Tree.forestFlatten_append, ← hnext.trees]
      exact congrArg (· ++ _) htrees
    · show (ps ++ (next d).problems).length = Tree.forestCount _ (ts ++ (next d).trees)
      rw [Tree.forestCount_append, List.length_append, ← hnext.count]
      exact congrArg (· + _) hcount
  enclose := by
    rintro c ⟨ts, ps, d⟩ ⟨ts', ps', _⟩ k hk ⟨rfl, htrees, hmild, hcount⟩
    refine ⟨rfl, ?_, hmild, ?_⟩
    · show [.node k ts] = Tree.forestFlatten [.node k ts']
      simpa [Tree.forestFlatten, Tree.flatten, hk] using htrees
    · show ps.length = Tree.forestCount .errorNode [.node k ts]
      simpa [Tree.forestCount, Tree.count, hk] using hcount

namespace Construct

/-- Counting brackets finds the end of a compact construct. -/
theorem swallow_parseFreely {k : Construct} {c : Cursor} (hopens : k.Opens c.kinds)
    (hclean : (k.parseFreely c).Clean)
    (hprecedes : k.precedes (k.parseFreely c).cursor.current = true)
    (hcompact : Kind.Compact (Token.kinds (Tree.forestTokens (k.parseFreely c).trees))) :
    Token.swallow 0 c.rest = (Tree.forestTokens (k.parseFreely c).trees).length := by
  have hkinds : (k.parseFreely c).cursor.kinds ≠ [] := by
    intro hnil
    rw [Cursor.current_eq, hnil] at hprecedes
    cases k <;> cases hprecedes
  obtain ⟨htight, _⟩ := endsTight_parse _ k c hclean hkinds
  obtain ⟨n, hderives⟩ := derives_parseFreely hopens hclean
  have hcovers : _ ++ (k.parseFreely c).cursor.rest = c.rest := lively_parseFreely.covers k c
  rw [← hcovers]
  refine Token.swallow_eq_length htight (Form.level_nested hderives) hcompact fun hplain => ?_
  by_cases hk : k = .expression
  · subst hk
    rw [Cursor.current_eq] at hprecedes
    exact hprecedes
  · obtain ⟨j, hj, hopensGroup⟩ := Form.exists_opensGroup hderives hk
    rw [hplain j hj] at hopensGroup
    cases hopensGroup

/-- A compact construct is cut off at its end, so the error node holds all of it. -/
theorem cuts_cutOff {k : Construct} {c : Cursor} (hopens : k.Opens c.kinds)
    (h : (mark 0 k c).Clean ∧ (mark 0 k c).Encloses Kind.Compact)
    (hprecedes : k.precedes (mark 0 k c).cursor.current = true) :
    c.cutOff.Cuts (mark 0 k c) := by
  obtain ⟨hclean, hrows⟩ := h
  obtain ⟨_, hclean⟩ := List.append_eq_nil_iff.mp hclean
  have hcompact := encloses_mark_zero_iff.mp hrows
  -- Counting brackets ends where the construct ends.
  have hswallow := swallow_parseFreely (c.kinds_gap ▸ hopens) hclean hprecedes hcompact
  have hcovers := lively_parseFreely.covers k c.gap.cursor
  have htrees : c.cutOff.trees = c.gap.trees ++
      [.node .errorNode ((Tree.forestTokens (k.parseFreely c.gap.cursor).trees).map .leaf)] := by
    rw [Cursor.trees_cutOff, hswallow]
    rw [Outcome.Covers] at hcovers
    rw [← hcovers, List.take_left]
  refine ⟨?_, ?_, ?_, ?_⟩
  · show c.gap.cursor.advance (Token.swallow 0 c.gap.cursor.rest) = _
    rw [hswallow]
    exact (hcovers.cursor_eq (located_parse hclean)).symm
  · rw [htrees, trees_mark_zero, Tree.forestFlatten_append, Cursor.trees_gap,
      Tree.forestFlatten_leaves]
    simp [Tree.forestFlatten, Tree.flatten]
  · intro p hp
    obtain rfl := List.mem_singleton.mp hp
    rfl
  · show 1 = _
    rw [htrees, Tree.forestCount_append, Cursor.trees_gap, Tree.forestCount_leaves]
    simp [Tree.forestCount, Tree.count, Tree.forestCount_leaves]

/-- Where all enclosed rows are compact, parsing cuts off what marking encloses. -/
theorem cuts_parse (n : Nat) {k : Construct} {c : Cursor}
    (h : (mark (n + 1) k c).Clean ∧ (mark (n + 1) k c).Encloses Kind.Compact) :
    (parse (n + 1) k c).Cuts (mark (n + 1) k c) := by
  induction n generalizing k c with
  | zero =>
    have hscreen : k.rule.run (screen (mark 0)) c = mark 1 k c := run_screen_rule h.1
    rw [← hscreen] at h ⊢
    refine Rule.transfer (Outcome.inherited_encloses _) Outcome.carried_cuts ?_ k.isTidy_rule h
    intro k c hk
    obtain ⟨heq, hopens, hprecedes⟩ := screen_of_clean hk.1
    rw [heq] at hk ⊢
    exact cuts_cutOff hopens hk hprecedes
  | succ n ih =>
    exact Rule.transfer (Outcome.inherited_encloses _) Outcome.carried_cuts (fun _ _ => ih)
      k.isTidy_rule h

end Construct

/-- What is cut off is compact. -/
theorem Construct.encloses_parse (n : Nat) {k : Construct} {c : Cursor} (h : (parse n k c).Mild) :
    (parse n k c).Encloses Kind.Compact := by
  induction n generalizing k c with
  | zero =>
    show c.cutOff.Encloses Kind.Compact
    rw [Outcome.Encloses, Cursor.trees_cutOff, Tree.forestErrorRows_append, Cursor.trees_gap,
      Tree.forestErrorRows_leaves]
    simpa [Tree.forestErrorRows, Tree.errorRows, Tree.forestTokens_leaves, -List.map_take] using
      Token.compact_take_swallow c.gap.cursor.rest
  | succ n ih =>
    exact (Rule.transfer Outcome.inherited_mild (Outcome.carried_encloses _)
      (fun _ _ h => ⟨rfl, ih h⟩) k.isTidy_rule h).2

/-! ## Whole texts -/

/-- Marking encloses constructs in the tree without a limit, and takes nothing else away. -/
theorem marks_file {c : Cursor} (h : (Rule.file.run Construct.parseFreely c).Clean) :
    (Rule.file.run (Construct.mark maxDepth) c).Marks (Rule.file.run Construct.parseFreely c) :=
  Rule.transfer Outcome.inherited_clean Outcome.carried_marks
    (fun _ _ => Construct.marks_mark (maxDepth - 1)) Rule.isTidy_file h

/-- If all constructs past the limit are compact, each is cut off as a whole. -/
theorem cuts_file {c : Cursor} (hclean : (Rule.file.run (Construct.mark maxDepth) c).Clean)
    (hrows : (Rule.file.run (Construct.mark maxDepth) c).Encloses Kind.Compact) :
    (Rule.file.run (Construct.parse maxDepth) c).Cuts
      (Rule.file.run (Construct.mark maxDepth) c) :=
  Rule.transfer (Outcome.inherited_encloses _) Outcome.carried_cuts
    (fun _ _ => Construct.cuts_parse (maxDepth - 1)) Rule.isTidy_file ⟨hclean, hrows⟩

/-- If nothing but the nesting is reported, each construct past the limit was cut off where counting
brackets ends, so it is compact. -/
theorem encloses_file {c : Cursor} (h : (Rule.file.run (Construct.parse maxDepth) c).Mild) :
    (Rule.file.run (Construct.parse maxDepth) c).Encloses Kind.Compact :=
  (Rule.transfer Outcome.inherited_mild (Outcome.carried_encloses _)
    (fun _ _ h => ⟨rfl, Construct.encloses_parse maxDepth h⟩) Rule.isTidy_file h).2

theorem Fault.message_eq_iff {f : Fault} :
    f.message = "nesting too deep" ↔ f = .nestingTooDeep := by
  cases f <;> decide

theorem Tree.errorRows_file (ts : List Tree) :
    (node .sourceFile ts).errorRows = forestErrorRows ts := by
  simp [errorRows]

theorem Tree.flatten_file (ts : List Tree) :
    (node .sourceFile ts).flatten = node .sourceFile (forestFlatten ts) := by
  simp [flatten]

/-- In a text that has the form of a file, however deep, marking finds the constructs one level past
the limit: its error nodes hold whole constructs, and apart from them its tree is the one without a
limit, where nothing is reported. Parsing cuts off exactly these constructs, and reports nothing
else, if and only if all of them are compact. -/
theorem cutsWhole_iff (text : String)
    (h : ∃ n, Form.Derives n .file (Token.kinds (Token.scan text))) :
    (parseFreely text).problems = [] ∧
    (marked text).dissolve = [(parseFreely text).tree] ∧
    (∀ row ∈ (marked text).errorRows, Kind.IsConstruct (Token.kinds row)) ∧
    (CutsWhole text ↔ ∀ row ∈ (marked text).errorRows, Kind.Compact (Token.kinds row)) := by
  have hfree := (problems_parseFreely_eq_nil_iff text).mpr h
  have hmarks := marks_file hfree
  have hrows : (marked text).errorRows = Tree.forestErrorRows _ := Tree.errorRows_file _
  refine ⟨hfree, ?_, ?_, ?_, ?_⟩
  · show Tree.dissolve (.node .sourceFile _) = [.node .sourceFile _]
    simp only [Tree.dissolve, hmarks.dissolve, reduceCtorEq, if_false]
  · rw [hrows]
    exact hmarks.encloses
  -- What was cut off is compact, and flattening leaves the rows as they are.
  · intro hcuts
    rw [← Tree.errorRows_flatten, ← hcuts.tree]
    refine Tree.errorRows_file _ ▸ encloses_file fun p hp => ?_
    exact Fault.message_eq_iff.mp (hcuts.faults p hp)
  · intro hcompact
    rw [hrows] at hcompact
    have hcuts := cuts_file hmarks.clean hcompact
    refine ⟨fun p hp => Fault.message_eq_iff.mpr (hcuts.mild p hp), ?_, ?_⟩
    · refine hcuts.count.trans ?_
      show _ = Tree.count .errorNode (.node .sourceFile _)
      simp [Tree.count]
    · rw [marked, Tree.flatten_file, ← hcuts.trees]
      rfl

/-! ## Towers of parentheses -/

/-- A variable whose initial value stands in so many parentheses that what is inside is one level
past the limit. -/
def tower (value : String) : String :=
  String.ofList ("class A\x7bvar x=".toList ++ List.replicate (maxDepth - 1) '(' ++ value.toList ++
    List.replicate (maxDepth - 1) ')' ++ ";\x7d".toList)

theorem scan_tower (value : String) : Token.scan (tower value) =
    Token.scanChars ("class A\x7bvar x=".toList ++ List.replicate (maxDepth - 1) '(' ++
      value.toList ++ List.replicate (maxDepth - 1) ')' ++ ";\x7d".toList) :=
  congrArg Token.scanChars String.toList_ofList

set_option maxRecDepth 100000 in
/-- Nothing else is reported if the innermost expression is a call, whose end is that of a group. -/
theorem cutsWhole_of_call :
    (∃ n, Form.Derives n .file (Token.kinds (Token.scan (tower "f(x, y)")))) ∧
    CutsWhole (tower "f(x, y)") := by
  have hfree : (parseFreely (tower "f(x, y)")).problems = [] := by
    rw [parseFreely, scan_tower]
    decide +kernel
  have hderives := (problems_parseFreely_eq_nil_iff _).mp hfree
  have hrows : (marked (tower "f(x, y)")).errorRows = [Token.scan "f(x, y)"] := by
    rw [marked, scan_tower]
    decide +kernel
  refine ⟨hderives, (cutsWhole_iff _ hderives).2.2.2.mpr ?_⟩
  rw [hrows, List.forall_mem_singleton]
  have hswallow : Token.swallow 0 (Token.scan "f(x, y)") = (Token.scan "f(x, y)").length := by
    decide +kernel
  have htake := Token.compact_take_swallow (Token.scan "f(x, y)")
  rwa [hswallow, List.take_length] at htake

set_option maxRecDepth 100000 in
/-- Counting brackets stops behind the call, and what is left of the sum is refused. -/
theorem not_cutsWhole_of_sum :
    (∃ n, Form.Derives n .file (Token.kinds (Token.scan (tower "a()+1")))) ∧
    (parse (tower "a()+1")).problems.map Problem.fault =
      [.nestingTooDeep, .missingCloseParen, .missingSemicolon, .missingMember, .missingMember] ∧
    ¬ CutsWhole (tower "a()+1") := by
  have hfree : (parseFreely (tower "a()+1")).problems = [] := by
    rw [parseFreely, scan_tower]
    decide +kernel
  have hfaults : (parse (tower "a()+1")).problems.map Problem.fault =
      [.nestingTooDeep, .missingCloseParen, .missingSemicolon, .missingMember, .missingMember] := by
    rw [parse, scan_tower]
    decide +kernel
  refine ⟨(problems_parseFreely_eq_nil_iff _).mp hfree, hfaults, fun h => ?_⟩
  have hmem : Fault.missingCloseParen ∈ (parse (tower "a()+1")).problems.map Problem.fault := by
    rw [hfaults]
    decide
  obtain ⟨p, hp, hfault⟩ := List.mem_map.mp hmem
  have hdeep := Fault.message_eq_iff.mp (h.faults p hp)
  rw [hfault] at hdeep
  cases hdeep

end ClassNav
