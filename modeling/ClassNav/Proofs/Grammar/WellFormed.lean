import ClassNav.Proofs.Grammar.Progress
import ClassNav.Proofs.Grammar.Shape

/-!
# Parsing makes well-formed trees

An outcome `Outcome.Makes` a form if its trees are well-formed and their kinds are a row of the
form. Each rule makes its form where the rules around it go on to it (`Rule.makes_classDecl` and so
on), if the constructs one level deeper do; so the tree of every text is well-formed
(`wellFormed_parse`), also where something is missing, refused or nested too deeply.
-/

namespace ClassNav

open Form (anyOf opt row seq token many alt empty one Derives)

/-- The trees of an outcome are well-formed, and their kinds are a row of a form. -/
def Outcome.Makes (o : Outcome) (f : Form) : Prop :=
  Derives 0 f (Tree.forestKinds o.trees) ∧ ∀ t ∈ o.trees, t.WellFormed

/-- What a construct comes to where it is nested. -/
def Construct.parts : Construct → Form
  | classDecl => anyOf [.classDecl, .errorNode]
  | anonymousType => anyOf [.anonymousType, .errorNode]
  | block => anyOf [.block, .errorNode]
  | expression => .expressionParts

/-! ## Steps -/

namespace Outcome

variable {o : Outcome} {f g : Form}

theorem Makes.andThen {next : Cursor → Outcome} (h : o.Makes f)
    (hnext : (next o.cursor).Makes g) : (o.andThen next).Makes (seq f g) := by
  refine ⟨?_, fun t ht => (List.mem_append.mp ht).elim (h.2 t) (hnext.2 t)⟩
  show Derives 0 _ (Tree.forestKinds (o.trees ++ (next o.cursor).trees))
  rw [Tree.forestKinds_append]
  exact .seq h.1 hnext.1

theorem Makes.many_andThen {next : Cursor → Outcome} (h : o.Makes (many f))
    (hnext : (next o.cursor).Makes (many f)) : (o.andThen next).Makes (many f) := by
  obtain ⟨hw, hall⟩ := h.andThen hnext
  refine ⟨?_, hall⟩
  generalize Tree.forestKinds (o.andThen next).trees = w at hw
  cases hw with
  | seq hu hv => exact hu.many_append hv

theorem Makes.many_one (h : o.Makes f) : o.Makes (many f) := ⟨h.1.many_one, h.2⟩

theorem Makes.left (h : o.Makes f) : o.Makes (alt f g) := ⟨.altLeft h.1, h.2⟩

theorem Makes.right (h : o.Makes g) : o.Makes (alt f g) := ⟨.altRight h.1, h.2⟩

theorem Makes.imp {test test' : Kind → Bool} (h : o.Makes (one test))
    (himp : ∀ k, test k = true → test' k = true) : o.Makes (one test') := by
  refine ⟨?_, h.2⟩
  have hone := h.1
  generalize Tree.forestKinds o.trees = w at hone
  cases hone with
  | one ht => exact .one (himp _ ht)

theorem Makes.anyOf {k : Kind} {ks : List Kind} (h : o.Makes (token k))
    (hk : ks.contains k = true) : o.Makes (anyOf ks) :=
  h.imp fun _ ht => eq_of_beq ht ▸ hk

theorem Makes.widen {ks ks' : List Kind} (h : o.Makes (Form.anyOf ks)) (hsub : ks ⊆ ks') :
    o.Makes (Form.anyOf ks') :=
  h.imp fun _ ht => List.contains_iff_mem.mpr (hsub (List.contains_iff_mem.mp ht))

/-- A well-formed node counts as one of its kind to the node around it, whatever is in it. -/
theorem makes_enclose {k : Kind} (hk : k.isTrivia = false) (h : (Tree.node k o.trees).WellFormed) :
    (o.enclose k).Makes (token k) := by
  refine ⟨?_, fun t ht => ?_⟩
  · have hkinds : Tree.forestKinds (o.enclose k).trees = [k] := by
      simp [enclose, Tree.forestKinds, Tree.kind, hk]
    rw [hkinds]
    exact .one (beq_self_eq_true k)
  · obtain rfl := List.mem_singleton.mp ht
    exact h

end Outcome

namespace Cursor

variable {c : Cursor} {f : Form}

theorem makes_leaves {ts : List Token} {ps : List Problem} {c' : Cursor}
    (h : Derives 0 f (Token.kinds ts)) : (Outcome.mk (ts.map .leaf) ps c').Makes f := by
  refine ⟨?_, fun t ht => ?_⟩
  · have hkinds : Tree.forestKinds (ts.map .leaf) = Token.kinds ts := by
      rw [Tree.forestKinds, Token.kinds, List.map_map, List.filter_map]
      rfl
    show Derives 0 f (Tree.forestKinds (ts.map .leaf))
    rw [hkinds]
    exact h
  · obtain ⟨u, _, rfl⟩ := List.mem_map.mp ht
    exact .leaf u

theorem makes_stay (h : Derives 0 f []) : c.stay.Makes f := ⟨h, fun _ => nofun⟩

theorem makes_report {fault : Fault} (h : Derives 0 f []) : (c.report fault).Makes f :=
  ⟨h, fun _ => nofun⟩

theorem kinds_take_triviaCount : Token.kinds (c.rest.take c.triviaCount) = [] := by
  have htake : c.rest.take c.triviaCount = c.rest.takeWhile Token.isTrivia := by
    conv_lhs => rw [← List.takeWhile_append_dropWhile (p := Token.isTrivia) (l := c.rest)]
    exact List.take_left
  rw [htake, Token.kinds_takeWhile]

theorem makes_gap (h : Derives 0 f []) : c.gap.Makes f :=
  makes_leaves (by rw [kinds_take_triviaCount]; exact h)

/-- Trivia in front are no part of a shape. -/
theorem makes_gap_andThen {next : Cursor → Outcome} (h : (next c.gap.cursor).Makes f) :
    (c.gap.andThen next).Makes f := by
  obtain ⟨hw, hall⟩ := (makes_gap .empty).andThen h
  refine ⟨?_, hall⟩
  generalize Tree.forestKinds (c.gap.andThen next).trees = w at hw
  cases hw with
  | seq hu hv =>
    cases hu
    exact hv

/-- The next significant token is all that a step over it takes, trivia aside. -/
theorem kinds_take_bump {k : Kind} (h : Kind.front c.kinds = k) (hk : k ≠ .eof) :
    Token.kinds (c.rest.take (c.triviaCount + 1)) = [k] := by
  have hsplit := congrArg Token.kinds (List.take_append_drop (c.triviaCount + 1) c.rest)
  rw [Token.kinds_append, drop_triviaCount_succ, Token.kinds_tail_dropWhile] at hsplit
  have hcons : Token.kinds c.rest = k :: (Token.kinds c.rest).tail := by
    cases hks : Token.kinds c.rest with
    | nil =>
      rw [kinds, hks] at h
      exact absurd h.symm hk
    | cons k' ks =>
      rw [kinds, hks] at h
      rw [← h]
      rfl
  have happend : Token.kinds (c.rest.take (c.triviaCount + 1)) ++ (Token.kinds c.rest).tail =
      [k] ++ (Token.kinds c.rest).tail := by
    rw [hsplit]
    exact hcons
  exact List.append_cancel_right happend

theorem makes_bump {test : Kind → Bool} (h : test (Kind.front c.kinds) = true)
    (heof : test .eof = false) : c.bump.Makes (one test) := by
  have hk : Kind.front c.kinds ≠ .eof := fun hk => by simp [hk, heof] at h
  exact makes_leaves (by rw [kinds_take_bump rfl hk]; exact .one h)

theorem makes_bump_token {k : Kind} (h : Kind.front c.kinds = k) (hk : k ≠ .eof) :
    c.bump.Makes (token k) :=
  makes_leaves (by rw [kinds_take_bump h hk]; exact .one (beq_self_eq_true k))

/-- After a gap, a step over the next significant token takes one token. -/
theorem exists_take_one {k : Kind} (h : Kind.front c.kinds = k) (hk : k ≠ .eof) :
    ∃ t : Token, t.kind = k ∧ c.gap.cursor.bump.trees = [.leaf t] := by
  have hrest : c.gap.cursor.rest = c.rest.dropWhile Token.isTrivia := drop_triviaCount c
  rw [kinds, ← Token.kinds_dropWhile] at h
  cases hts : c.rest.dropWhile Token.isTrivia with
  | nil =>
    rw [hts] at h
    exact absurd h.symm hk
  | cons t ts =>
    have htrivia : t.isTrivia = false := by
      have hhead := List.head_dropWhile_not Token.isTrivia (l := c.rest) (by simp [hts])
      simpa [hts] using hhead
    rw [hts, Token.kinds_cons, htrivia] at h
    have hcount : c.gap.cursor.triviaCount = 0 := by
      rw [triviaCount, hrest, hts, List.takeWhile_cons_of_neg (by simp [htrivia])]
      rfl
    refine ⟨t, h, ?_⟩
    show (c.gap.cursor.rest.take (c.gap.cursor.triviaCount + 1)).map Tree.leaf = _
    rw [hcount, hrest, hts]
    rfl

theorem makes_reject {fault : Fault} : (c.reject fault).Makes (token .errorNode) := by
  have herror : ∀ c : Cursor, (c.gap.andThen fun c => c.bump.enclose .errorNode).Makes
      (token .errorNode) :=
    fun c => makes_gap_andThen (Outcome.makes_enclose rfl (.error _))
  exact herror c

/-- A construct that is cut off is an error node to the rule around it. -/
theorem makes_cutOff : c.cutOff.Makes (token .errorNode) := by
  have herror : ∀ c : Cursor, (c.gap.andThen fun c =>
      (c.take (Token.swallow 0 c.rest)).enclose .errorNode).Makes (token .errorNode) :=
    fun c => makes_gap_andThen (Outcome.makes_enclose rfl (.error _))
  exact herror c

theorem makes_repeatWhile {test : Cursor → Bool} {body : Cursor → Outcome}
    (hbody : ∀ c, test c = true → (body c).Makes (many f)) (n : Nat) (c : Cursor) :
    (repeatWhile test body n c).Makes (many f) := by
  induction n generalizing c with
  | zero => exact makes_stay .manyNil
  | succ n ih =>
    unfold repeatWhile
    split
    · next ht => exact (hbody c ht).many_andThen (ih _)
    · exact makes_stay .manyNil

end Cursor

namespace Outcome

variable {f : Form}

theorem Makes.enclose {o : Outcome} {k : Kind} (h : o.Makes k.shape) (hk : k.isTrivia = false) :
    (o.enclose k).Makes (token k) :=
  makes_enclose hk (.node h.1 h.2)

theorem makes_wrapWhile {wrap : Kind → Option Kind} {next : Kind → Cursor → Outcome}
    (hwrap : ∀ (o : Outcome) (k : Kind), o.Makes f → wrap o.cursor.current = some k →
      ((o.andThen (next o.cursor.current)).enclose k).Makes f)
    (n : Nat) {o : Outcome} (h : o.Makes f) : (wrapWhile wrap next n o).Makes f := by
  induction n generalizing o with
  | zero => exact h
  | succ n ih =>
    unfold wrapWhile
    split
    · exact h
    · next k hk => exact ih (hwrap o k h hk)

end Outcome

/-! ## Combinations -/

namespace Rule

variable {deeper : Construct → Cursor → Outcome} {c : Cursor} {f : Form}

theorem run_look {skip : Kind → Bool} {next : Kind → Rule} :
    (look skip next).run deeper c =
      (next (Kind.front (c.kinds.dropWhile skip))).run deeper c := by
  rw [run, Cursor.peek_eq]

theorem run_peek {next : Kind → Rule} :
    (peek next).run deeper c = (next (Kind.front c.kinds)).run deeper c := by
  rw [← Cursor.current_eq]
  rfl

theorem makes_seq {a b : Rule} {g : Form} (ha : (a.run deeper c).Makes f)
    (hb : (b.run deeper (a.run deeper c).cursor).Makes g) :
    ((seq a b).run deeper c).Makes (.seq f g) :=
  ha.andThen hb

theorem makes_take {k : Kind} (h : Kind.front c.kinds = k) (hk : k ≠ .eof) :
    (bump.run deeper c).Makes (token k) :=
  Cursor.makes_bump_token h hk

theorem makes_whenAt {k : Kind} {r : Rule}
    (h : Kind.front c.kinds = k → (r.run deeper c).Makes f) :
    ((whenAt k r).run deeper c).Makes (opt f) := by
  rw [whenAt, run_peek]
  split
  · next hk => exact (h hk).left
  · exact Cursor.makes_stay (.altRight .empty)

/-- A token that is missing is reported and left out, so it is optional in the shape. -/
theorem makes_expect {k : Kind} {fault : Fault} (hk : k ≠ .eof) :
    ((expect k fault).run deeper c).Makes (opt (token k)) := by
  rw [expect, run_peek]
  split
  · next h => exact (Cursor.makes_bump_token h hk).left
  · exact Cursor.makes_report (.altRight .empty)

theorem makes_node {k : Kind} {body : Rule} (hk : k.isTrivia = false)
    (h : ∀ c', c'.kinds = c.kinds → (body.run deeper c').Makes k.shape) :
    ((node k body).run deeper c).Makes (token k) :=
  Cursor.makes_gap_andThen ((h _ c.kinds_gap).enclose hk)

/-- Where a token of the right kind was seen, the node of a word holds it and nothing else. -/
theorem makes_word {k t : Kind} (h : Kind.front c.kinds = t) (hs : k.spells t = true) :
    ((node k bump).run deeper c).Makes (token k) := by
  have hkinds : k.isTrivia = false ∧ t ≠ .eof := by
    rcases Kind.spells_cases hs with ⟨rfl | rfl, rfl⟩ | ⟨rfl, rfl | rfl⟩
    all_goals exact ⟨rfl, nofun⟩
  obtain ⟨u, hu, htrees⟩ := Cursor.exists_take_one h hkinds.2
  refine Cursor.makes_gap_andThen (Outcome.makes_enclose hkinds.1 ?_)
  show (Tree.node k c.gap.cursor.bump.trees).WellFormed
  rw [htrees]
  exact .word (hu ▸ hs)

theorem makes_loop {test : Kind → Kind → Bool} {body : Rule}
    (h : ∀ c : Cursor, test (Kind.front c.kinds) (Kind.front c.kinds.tail) = true →
      (body.run deeper c).Makes (many f)) :
    ((loop test body).run deeper c).Makes (many f) := by
  refine Cursor.makes_repeatWhile (fun c ht => h c ?_) _ c
  rw [Cursor.current_eq, Cursor.second_eq] at ht
  exact ht

theorem makes_manyWhile {test : Kind → Bool} {body : Rule}
    (h : ∀ c : Cursor, test (Kind.front c.kinds) = true → (body.run deeper c).Makes f) :
    ((manyWhile test body).run deeper c).Makes (many f) :=
  makes_loop fun c ht => (h c ht).many_one

/-- Parts with commas between them make a comma list, whether the parts are missing or not. -/
theorem makes_commaSeparated {r : Rule} (h : ∀ c : Cursor, (r.run deeper c).Makes f) :
    ((commaSeparated r).run deeper c).Makes (.commaList f) :=
  (h c).andThen (makes_manyWhile fun _ ht =>
    (Cursor.makes_bump_token (eq_of_beq ht) nofun).andThen (h _))

theorem makes_skip {skip : Kind → Bool} (heof : skip .eof = false) :
    ((manyWhile skip bump).run deeper c).Makes (many (one skip)) :=
  makes_manyWhile fun _ ht => Cursor.makes_bump ht heof

/-- Where tokens are passed over, the first of the others comes next. -/
theorem kinds_run_skip {skip : Kind → Bool} (heof : skip .eof = false) :
    ((manyWhile skip bump).run deeper c).cursor.kinds = c.kinds.dropWhile skip := by
  have hprod : (manyWhile skip bump).Productive deeper :=
    productive_manyWhile heof trivial eager_bump
  generalize hks : c.kinds = ks
  induction ks generalizing c with
  | nil =>
    rw [manyWhile, run_loop hprod c, Cursor.current_eq, hks]
    simpa [heof, Cursor.stay] using hks
  | cons k ks ih =>
    rw [manyWhile, run_loop hprod c, Cursor.current_eq, hks]
    cases hk : skip k with
    | false => simpa [hk, Cursor.stay] using hks
    | true =>
      rw [Kind.front_cons, hk, if_pos rfl, List.dropWhile_cons_of_pos hk]
      refine ih (c := c.bump.cursor) ?_
      rw [Cursor.kinds_bump, hks]
      rfl

/-! ## Productions -/

theorem makes_declaredName {fault : Fault} :
    ((declaredName fault).run deeper c).Makes (opt (token .name)) := by
  rw [declaredName, run_peek]
  split
  · next h => exact (makes_word h rfl).left
  · exact Cursor.makes_report (.altRight .empty)

theorem makes_reference {fault : Fault} :
    ((reference fault).run deeper c).Makes (opt (token .reference)) := by
  rw [reference, run_peek]
  split
  · next h => exact (makes_word h rfl).left
  · exact Cursor.makes_report (.altRight .empty)

section

variable (hdeeper : ∀ k (c : Cursor), k.Opens c.kinds → (deeper k c).Makes k.parts)
include hdeeper

/-- An expression has no node of its own: its nodes are children of the node around it. -/
theorem makes_expr (c : Cursor) : ((nest .expression).run deeper c).Makes .expressionParts :=
  hdeeper .expression c trivial

theorem makes_arguments (h : Kind.front c.kinds = .lParen) :
    (arguments.run deeper c).Makes (token .argList) := by
  refine makes_node rfl fun c' hc' => ?_
  refine makes_seq (makes_take (hc' ▸ h) nofun) (makes_seq ?_ (makes_expect nofun))
  rw [argumentRow, run_peek]
  split
  · exact Cursor.makes_stay (.altRight .empty)
  · exact (makes_commaSeparated (makes_expr hdeeper)).left

theorem makes_primary? {k : Kind} {r : Rule} (hr : primary? k = some r)
    (h : Kind.front c.kinds = k) :
    (r.run deeper c).Makes (anyOf [.reference, .literal, .newExpr, .parenExpr]) := by
  unfold primary? at hr
  split at hr
  · cases hr
    exact (makes_word h rfl).anyOf rfl
  · cases hr
    exact (makes_word h rfl).anyOf rfl
  · cases hr
    exact (makes_word h rfl).anyOf rfl
  · cases hr
    refine .anyOf (k := .newExpr) (makes_node rfl fun c' hc' => ?_) rfl
    exact makes_seq (makes_take (hc' ▸ h) nofun)
      (makes_seq makes_reference (makes_whenAt (makes_arguments hdeeper)))
  · cases hr
    refine .anyOf (k := .parenExpr) (makes_node rfl fun c' hc' => ?_) rfl
    exact makes_seq (makes_take (hc' ▸ h) nofun)
      (makes_seq (makes_expr hdeeper _) (makes_expect nofun))
  · cases hr

/-- A field access or a call takes what was made so far into its node. -/
theorem makes_selection {o : Outcome} {k : Kind} (ho : o.Makes .selectableParts)
    (hk : selectionKind? o.cursor.current = some k) :
    ((o.andThen ((selection o.cursor.current).run deeper)).enclose k).Makes .selectableParts := by
  rw [Cursor.current_eq] at hk ⊢
  unfold selectionKind? at hk
  split at hk
  · next hdot =>
    cases hk
    rw [hdot]
    refine (Outcome.Makes.anyOf (Outcome.Makes.enclose (ho.andThen ?_) rfl) rfl).right
    exact makes_seq (makes_take hdot nofun) makes_reference
  · next hparen =>
    cases hk
    rw [hparen]
    refine (Outcome.Makes.anyOf (Outcome.Makes.enclose (ho.andThen ?_) rfl) rfl).right
    exact makes_arguments hdeeper hparen
  · cases hk

/-- Fields and calls wrap the operand before them, so the last one is what remains. -/
theorem makes_operand : (operand.run deeper c).Makes .operandParts := by
  refine Cursor.makes_gap_andThen ?_
  generalize c.gap.cursor = c
  have hops : (unaryOperators.run deeper c).Makes (many (token .op)) := makes_skip rfl
  have hkinds : (unaryOperators.run deeper c).cursor.kinds = c.kinds.dropWhile (· == .op) :=
    kinds_run_skip rfl
  rw [run_look]
  split
  · next hsome =>
    obtain ⟨r, hr⟩ := Option.isSome_iff_exists.mp hsome
    refine (Outcome.makes_wrapWhile (fun _ _ => makes_selection hdeeper) _ ?_).left
    rw [primaryAt, hr]
    exact (hops.andThen (makes_primary? hdeeper hr (by rw [hkinds]))).left
  · next hnone =>
    rw [primaryAt, Option.not_isSome_iff_eq_none.mp hnone]
    refine (hops.andThen ?_).right
    rw [Option.getD_none]
    unfold notAnExpression
    split
    all_goals first
      | exact Cursor.makes_report (.altRight .empty)
      | exact Cursor.makes_reject.left

/-- Operators wrap the operands on both sides of them, so one node remains. -/
theorem makes_expression : (expression.run deeper c).Makes .expressionParts := by
  refine Cursor.makes_gap_andThen ?_
  refine Outcome.makes_wrapWhile ?_ _ (makes_operand hdeeper).left
  intro o k ho hk
  rw [Cursor.current_eq] at hk
  have hbin : k = .binExpr ∧ [Kind.op, .eq].contains (Kind.front o.cursor.kinds) = true := by
    unfold binaryKind? at hk
    split at hk
    · next h => exact ⟨(Option.some.inj hk).symm, by rw [h]; rfl⟩
    · next h => exact ⟨(Option.some.inj hk).symm, by rw [h]; rfl⟩
    · cases hk
  obtain ⟨rfl, hmem⟩ := hbin
  refine (Outcome.Makes.enclose (ho.andThen ?_) rfl).right
  exact (Cursor.makes_bump hmem rfl).andThen (makes_operand hdeeper)

theorem makes_optionalType : (optionalType.run deeper c).Makes (opt (token .typeTag)) := by
  refine makes_whenAt fun h => makes_node rfl fun c' hc' => ?_
  refine makes_seq (makes_take (hc' ▸ h) nofun) ?_
  rw [taggedType, run_peek]
  split
  · next hbrace => exact ((hdeeper .anonymousType _ hbrace).widen (by decide)).left
  · rw [typeName, reference, run_peek]
    split
    · next hident => exact ((makes_word hident rfl).anyOf rfl).left
    · exact Cursor.makes_report (.altRight .empty)

theorem makes_initialiser : (initialiser.run deeper c).Makes (opt .initialParts) :=
  makes_whenAt fun h => makes_seq (makes_take h nofun) (makes_expr hdeeper _)

omit hdeeper in
theorem makes_modifiers : (modifiers.run deeper c).Makes .modifiers := makes_skip rfl

omit hdeeper in
theorem kinds_run_modifiers :
    (modifiers.run deeper c).cursor.kinds = c.kinds.dropWhile Kind.isModifier :=
  kinds_run_skip rfl

theorem makes_varDecl (h : Kind.front (c.kinds.dropWhile Kind.isModifier) = .varKw) :
    (varDecl.run deeper c).Makes (token .varDecl) := by
  refine makes_node rfl fun c' hc' => ?_
  have hvar : Kind.front (modifiers.run deeper c').cursor.kinds = .varKw := by
    rw [kinds_run_modifiers, hc', h]
  exact makes_seq makes_modifiers (makes_seq (makes_take hvar nofun) (makes_seq makes_declaredName
    (makes_seq (makes_optionalType hdeeper) (makes_seq (makes_initialiser hdeeper)
      (makes_expect nofun)))))

theorem makes_parameter (h : Kind.front c.kinds = .ident) :
    (parameter.run deeper c).Makes (token .param) := by
  refine makes_node rfl fun c' hc' => ?_
  refine makes_seq ?_ (makes_seq (makes_optionalType hdeeper) (makes_initialiser hdeeper))
  rw [declaredName, run_peek, hc', h]
  exact makes_word (hc' ▸ h) rfl

theorem makes_parameters : (parameters.run deeper c).Makes
    (opt (row [token .param, many (.seq (token .comma) (token .param)), opt (token .comma)])) := by
  refine makes_whenAt fun hident => ?_
  refine makes_seq (makes_parameter hdeeper hident) (makes_seq (makes_loop fun c ht => ?_)
    (makes_whenAt fun hcomma => makes_take hcomma nofun))
  simp only [Bool.and_eq_true, beq_iff_eq] at ht
  refine (makes_seq (makes_take ht.1 nofun) (makes_parameter hdeeper ?_)).many_one
  show Kind.front c.bump.cursor.kinds = .ident
  rw [Cursor.kinds_bump, ht.2]

theorem makes_parameterList :
    (parameterList.run deeper c).Makes (opt (token .paramList)) := by
  rw [parameterList, run_peek]
  split
  · next hparen =>
    refine (makes_node rfl fun c' hc' => ?_).left
    exact makes_seq (makes_take (hc' ▸ hparen) nofun)
      (makes_seq (makes_parameters hdeeper) (makes_expect nofun))
  · exact Cursor.makes_report (.altRight .empty)

theorem makes_methodDecl (h : Kind.front (c.kinds.dropWhile Kind.isModifier) = .functionKw) :
    (methodDecl.run deeper c).Makes (token .methodDecl) := by
  refine makes_node rfl fun c' hc' => ?_
  have hfunction : Kind.front (modifiers.run deeper c').cursor.kinds = .functionKw := by
    rw [kinds_run_modifiers, hc', h]
  refine makes_seq makes_modifiers (makes_seq (makes_take hfunction nofun) (makes_seq
    makes_declaredName (makes_seq (makes_parameterList hdeeper) (makes_seq
      (makes_optionalType hdeeper) ?_))))
  show (methodBody.run deeper _).Makes _
  rw [methodBody, run_peek]
  split
  · next hbrace => exact ((hdeeper .block _ hbrace).widen (by decide)).left
  · rw [expect, run_peek]
    split
    · next hsemi => exact ((makes_take hsemi nofun).anyOf rfl).left
    · exact Cursor.makes_report (.altRight .empty)

/-- What starts no member is refused and leaves an error node. -/
theorem makes_member : (member.run deeper c).Makes
    (anyOf [.methodDecl, .varDecl, .classDecl, .errorNode]) := by
  rw [member, run_look]
  split
  · next h => exact (makes_methodDecl hdeeper h).anyOf rfl
  · next h => exact (makes_varDecl hdeeper h).anyOf rfl
  · next h => exact (hdeeper .classDecl c (.inl h)).widen (by decide)
  · next h => exact (hdeeper .classDecl c (.inr h)).widen (by decide)
  · exact Cursor.makes_reject.anyOf rfl

theorem makes_memberList (h : Kind.front c.kinds = .lBrace) :
    (memberList.run deeper c).Makes
      (.bracedParts [.methodDecl, .varDecl, .classDecl, .errorNode]) :=
  makes_seq (makes_take h nofun)
    (makes_seq (makes_manyWhile fun _ _ => makes_member hdeeper) (makes_expect nofun))

theorem makes_classBody : (classBody.run deeper c).Makes (opt (token .classBody)) := by
  rw [classBody, run_peek]
  split
  · next hbrace => exact (makes_node rfl fun _ hc' => makes_memberList hdeeper (hc' ▸ hbrace)).left
  · exact Cursor.makes_report (.altRight .empty)

omit hdeeper in
theorem makes_extendsClause (h : Kind.front c.kinds = .extendsKw) :
    (extendsClause.run deeper c).Makes (token .extendsClause) :=
  makes_node rfl fun _ hc' => makes_seq (makes_take (hc' ▸ h) nofun) makes_reference

omit hdeeper in
theorem makes_implementsClause (h : Kind.front c.kinds = .implementsKw) :
    (implementsClause.run deeper c).Makes (token .implementsClause) :=
  makes_node rfl fun _ hc' => makes_seq (makes_take (hc' ▸ h) nofun)
    (makes_commaSeparated fun _ => makes_reference)

theorem makes_classDecl (h : Construct.classDecl.Opens c.kinds) :
    (classDecl.run deeper c).Makes (token .classDecl) := by
  refine makes_node rfl fun c' hc' => ?_
  have hkinds : (modifiers.run deeper c').cursor.kinds = c.kinds.dropWhile Kind.isModifier := by
    rw [kinds_run_modifiers, hc']
  have hclass : (bump.run deeper (modifiers.run deeper c').cursor).Makes
      (anyOf [.classKw, .interfaceKw]) := by
    rcases h with h | h
    · rw [← hkinds] at h
      exact (makes_take h nofun).anyOf rfl
    · rw [← hkinds] at h
      exact (makes_take h nofun).anyOf rfl
  exact makes_seq makes_modifiers (makes_seq hclass (makes_seq makes_declaredName
    (makes_seq (makes_whenAt makes_extendsClause) (makes_seq (makes_whenAt makes_implementsClause)
      (makes_classBody hdeeper)))))

theorem makes_anonymousType (h : Kind.front c.kinds = .lBrace) :
    (anonymousType.run deeper c).Makes (token .anonymousType) :=
  makes_node rfl fun _ hc' => makes_memberList hdeeper (hc' ▸ h)

theorem makes_returnStmt (h : Kind.front c.kinds = .returnKw) :
    (returnStmt.run deeper c).Makes (token .returnStmt) := by
  refine makes_node rfl fun c' hc' => ?_
  refine makes_seq (makes_take (hc' ▸ h) nofun) (makes_seq ?_ (makes_expect nofun))
  rw [returnedValue, run_peek]
  split
  · exact Cursor.makes_stay (.altLeft (.altRight (.seq (u := []) .manyNil (.altRight .empty))))
  · exact makes_expr hdeeper _

theorem makes_statement : (statement.run deeper c).Makes
    (anyOf [.varDecl, .block, .returnStmt, .exprStmt, .errorNode, .semicolon]) := by
  rw [statement, run_peek]
  split
  · next h =>
    refine (makes_varDecl hdeeper ?_).anyOf rfl
    cases hks : c.kinds with
    | nil => simp [hks] at h
    | cons k ks =>
      rw [hks, Kind.front_cons] at h
      rw [h]
      rfl
  · next h => exact (hdeeper .block c h).widen (by decide)
  · next h => exact (makes_take h nofun).anyOf rfl
  · next h => exact (makes_returnStmt hdeeper h).anyOf rfl
  · exact Cursor.makes_reject.anyOf rfl
  · exact Cursor.makes_reject.anyOf rfl
  · refine .anyOf (k := .exprStmt) (makes_node rfl fun c' _ => ?_) rfl
    exact makes_seq (makes_expr hdeeper c') (makes_expect nofun)

/-- A statement that takes nothing has the refused token behind it. -/
theorem makes_guardedStatement : (guardedStatement.run deeper c).Makes
    (many (anyOf [.varDecl, .block, .returnStmt, .exprStmt, .errorNode, .semicolon])) := by
  -- A statement that takes nothing is followed by what is refused in its place.
  have hstatement := makes_statement hdeeper (c := c)
  simp only [guardedStatement, run]
  split
  · exact hstatement.many_one.many_andThen (Cursor.makes_reject.anyOf rfl).many_one
  · exact hstatement.many_one

theorem makes_block (h : Kind.front c.kinds = .lBrace) :
    (block.run deeper c).Makes (token .block) :=
  makes_node rfl fun _ hc' => makes_seq (makes_take (hc' ▸ h) nofun)
    (makes_seq (makes_loop fun _ _ => makes_guardedStatement hdeeper) (makes_expect nofun))

theorem makes_file : (file.run deeper c).Makes (Kind.shape .sourceFile) := by
  refine Outcome.Makes.many_andThen (makes_manyWhile fun c _ => ?_) (Cursor.makes_gap .manyNil)
  rw [topLevel, run_look]
  split
  · next h => exact hdeeper .classDecl c (.inl h)
  · next h => exact hdeeper .classDecl c (.inr h)
  · exact Cursor.makes_reject.anyOf rfl

end

end Rule

/-! ## Whole texts -/

/-- At every level, a construct comes to what its shape says, be it cut off or not. -/
theorem Construct.parse_makes (n : Nat) (k : Construct) (c : Cursor) (h : k.Opens c.kinds) :
    (parse n k c).Makes k.parts := by
  induction n generalizing k c with
  | zero =>
    have hcut := Cursor.makes_cutOff (c := c)
    cases k with
    | classDecl => exact hcut.anyOf rfl
    | anonymousType => exact hcut.anyOf rfl
    | block => exact hcut.anyOf rfl
    | expression =>
      exact (Outcome.Makes.right ⟨.seq (u := []) .manyNil (.altLeft hcut.1), hcut.2⟩).left
  | succ n ih =>
    cases k with
    | classDecl => exact (Rule.makes_classDecl ih h).anyOf rfl
    | anonymousType => exact (Rule.makes_anonymousType ih h).anyOf rfl
    | block => exact (Rule.makes_block ih h).anyOf rfl
    | expression => exact Rule.makes_expression ih

/-- Every node in the tree of a text has the shape of its kind. -/
theorem wellFormed_parse (text : String) : (parse text).tree.WellFormed := by
  have hfile := Rule.makes_file (Construct.parse_makes maxDepth) (c := ⟨0, Token.scan text⟩)
  exact .node hfile.1 hfile.2

end ClassNav
