import ClassNav.Proofs.Grammar.Lossless
import ClassNav.Proofs.Machine.Runs

/-!
# Open nodes and depth

Programs open and close nodes, enter and leave levels and use checkpoints by hand, over early
returns and loops. Here each program is tied to the rule of the grammar that it follows, so that all
of these pair up on every way through it.

* The programs take how to parse a construct one level deeper as a parameter. Given what that does,
  each program does what its rule says (`Program.does_inside`), so at depth `d` every construct is
  parsed as `Construct.parse (maxDepth - d)` has it (`Program.does_program`). Only loops and levels
  need an induction.
* `Production.does_outcome` has all productions at once, and `Program.runs_file` a whole file.
-/

namespace ClassNav

namespace Program

variable {m : Machine} {x y : Program Unit} {d : Nat} {f : Cursor → Outcome}

/-! ## Levels -/

/-- A construct is parsed one level deeper, if there is one. -/
theorem Does.nested (hd : d < maxDepth) (hx : Does (d + 1) x f) :
    Does d (enter >>= fun inside => if inside = true then x >>= fun _ => leave else pure ()) f := by
  intro m hm hm_d
  let m₁ : Machine := { m with depth := m.depth + 1 }
  have hdown : m.Above m₁ :=
    ⟨List.suffix_refl _, List.prefix_refl _, Nat.le_succ _,
      ⟨by show m.depth + 1 ≤ maxDepth; omega, hm.offset_eq, hm.first_le, hm.kind_ne⟩⟩
  have henter : Runs m enter m true m₁ := by
    refine (runs_ask (.refl hm) _).bind ?_
    rw [if_neg (by omega)]
    refine Runs.bind (runs_act rfl hdown) ?_
    exact .pure hdown true
  have hrun := hx m₁ hdown.sound (congrArg (· + 1) hm_d)
  have hback : m.Above (m.after (f m.cursor)) :=
    ⟨hrun.1.parents, hrun.1.children, Nat.le_refl _,
      ⟨hm.depth_le, hrun.1.sound.offset_eq, hrun.1.sound.first_le, hrun.1.sound.kind_ne⟩⟩
  exact henter.bind ((hrun.mono hdown).bind (runs_act rfl hback))

/-- A construct that would be too deep is passed over. -/
theorem Does.tooDeep (hd : maxDepth ≤ d) (x : Program Unit) :
    Does d (enter >>= fun inside => if inside = true then x else pure ()) Cursor.cutOff := by
  intro m hm hm_d
  have hskip := does_skipTooDeep m hm hm_d
  have henter : Runs m enter m false (m.after m.cursor.cutOff) := by
    refine (runs_ask (.refl hm) _).bind ?_
    rw [if_pos (by omega)]
    exact hskip.bind (.pure hskip.1 false)
  exact henter.bind (.pure hskip.1 ())

end Program

theorem Outcome.andThen_stay (o : Outcome) : o.andThen Cursor.stay = o := by
  simp [andThen, Cursor.stay]

namespace Rule

/-- An operand without the field accesses and calls after it. -/
def primary : Rule := look (· == .op) primaryAt

/-- Field accesses and calls are read only where there is an operand. -/
theorem run_operand (deeper : Construct → Cursor → Outcome) (c : Cursor) :
    operand.run deeper c = c.gap.andThen fun c =>
      if (primary? (c.peek (· == .op))).isSome = true then
        (primary.run deeper c).wrapAll selectionKind? fun k => (selection k).run deeper
      else primary.run deeper c := by
  refine congrArg c.gap.andThen (funext fun c' => ?_)
  show (if _ then _ else _ : Rule).run deeper c' = _
  split
  · rfl
  · rfl

/-- Where a parameter starts, the others come behind it with a comma before each, and perhaps a
comma at last. -/
theorem run_parameters_eq (deeper : Construct → Cursor → Outcome) (c : Cursor) :
    parameters.run deeper c =
      if c.current = .ident then (parameter.run deeper c).andThen
        ((seq moreParameters trailingComma).run deeper)
      else c.stay := by
  show (if c.current = .ident then _ else _ : Rule).run deeper c = _
  split
  · rfl
  · rfl

/-- The rule looks two tokens ahead for another parameter. It is the same to take the comma first.
-/
theorem run_moreParameters {deeper : Construct → Cursor → Outcome} (hd : Lively deeper)
    (c : Cursor) : (seq moreParameters trailingComma).run deeper c =
      if c.current = .comma then c.bump.andThen (parameters.run deeper) else c.stay := by
  have hprod := productive_moreParameters hd
  have hsecond : c.bump.cursor.current = c.second := by
    rw [Cursor.current_eq, Cursor.kinds_bump, Cursor.second_eq]
  have hlast : trailingComma.run deeper c =
      (if c.current = .comma then bump else done).run deeper c := rfl
  rw [run, moreParameters, run_loop hprod]
  by_cases hcomma : c.current = .comma
  · rw [if_pos hcomma]
    by_cases hident : c.second = .ident
    · rw [if_pos (by simp [hcomma, hident])]
      calc _ = c.bump.andThen fun c' => (parameter.run deeper c').andThen
              ((seq moreParameters trailingComma).run deeper) :=
            (Outcome.andThen_assoc _ _ _).trans (Outcome.andThen_assoc _ _ _)
        _ = _ := Outcome.andThen_congr (by rw [run_parameters_eq, if_pos (hsecond.trans hident)])
    · rw [if_neg (by simp [hident])]
      rw [if_pos hcomma] at hlast
      calc _ = c.bump := hlast
        _ = c.bump.andThen Cursor.stay := c.bump.andThen_stay.symm
        _ = _ := Outcome.andThen_congr
          (by rw [run_parameters_eq, if_neg (hsecond.trans_ne hident)])
  · rw [if_neg hcomma, if_neg (by simp [hcomma])]
    rw [if_neg hcomma] at hlast
    exact hlast

end Rule

namespace Program

/-! ## Clauses -/

section

variable {d : Nat} {deeper : Construct → Cursor → Outcome}

theorem does_typeReference : Does d typeReference (Rule.typeName.run deeper) :=
  does_reference .missingTypeName

theorem does_extendsClause : Does d extendsClause
    ((Rule.whenAt .extendsKw .extendsClause).run deeper) := by
  have h : Does d _ ((Rule.whenAt .extendsKw .extendsClause).run deeper) :=
    .whenAt ((does_bump.seq does_typeReference).node .extendsClause)
  rw [extendsClause]
  simpa only [bind_assoc] using h

theorem does_implementsClause (hd : Rule.Lively deeper) : Does d implementsClause
    ((Rule.whenAt .implementsKw .implementsClause).run deeper) := by
  have hmore := Does.afterCommas (d := d) hd (Rule.productive_reference _) does_typeReference
  have h : Does d _ ((Rule.whenAt .implementsKw .implementsClause).run deeper) :=
    .whenAt ((does_bump.seq (does_typeReference.seq hmore)).node .implementsClause)
  rw [implementsClause]
  simpa only [bind_assoc] using h

end

section

variable {m : Machine} {d : Nat} {nest : Construct → Program Unit}
  {deeper : Construct → Cursor → Outcome}
  (hnest : ∀ k : Construct, Does d (nest k) (deeper k)) (hd : Rule.Lively deeper)

include hnest

/-! ## Variables and parameters -/

theorem does_initialiser : Does d (initialiser nest) (Rule.initialiser.run deeper) := by
  have h : Does d _ (Rule.initialiser.run deeper) := .whenAt (does_bump.seq (hnest .expression))
  rw [initialiser, eat_bind]
  exact h

theorem does_typeTag : Does d (typeTag nest) (Rule.typeTag.run deeper) := by
  have hbody : Does d (typeBody nest) (Rule.taggedType.run deeper) :=
    .branch (a := .nest .anonymousType) (b := .typeName) (fun k => by cases k <;> rfl)
      (hnest .anonymousType) does_typeReference
  have h : Does d _ (Rule.typeTag.run deeper) := (does_bump.seq hbody).node .typeTag
  rw [typeTag]
  simpa only [bind_assoc] using h

theorem does_optionalType : Does d (optionalType nest) (Rule.optionalType.run deeper) :=
  .whenAt (does_typeTag hnest)

theorem does_varDecl : Does d (varDecl nest) (Rule.varDecl.run deeper) := by
  have h : Does d _ (Rule.varDecl.run deeper) :=
    does_modifiers.lateNode (does_bump.seq ((does_name .missingVariableName).seq
      ((does_optionalType hnest).seq ((does_initialiser hnest).seq
        (does_expect .semicolon .missingSemicolon))))) .varDecl
  rw [varDecl]
  simpa only [bind_assoc] using h

theorem does_param : Does d (param nest) (Rule.parameter.run deeper) := by
  have h : Does d _ (Rule.parameter.run deeper) :=
    ((does_name .missingParameterName).seq
      ((does_optionalType hnest).seq (does_initialiser hnest))).node .param
  rw [param]
  simpa only [bind_assoc] using h

/-! ## Statements -/

theorem does_stmt : Does d (stmt nest) (Rule.statement.run deeper) := by
  have hvar := does_varDecl hnest
  have hvalue : Does d (returnValue nest) (Rule.returnedValue.run deeper) :=
    .branch (b := .nest .expression) (fun k => by cases k <;> rfl) does_done (hnest .expression)
  have hreturn : Does d _ (Rule.returnStmt.run deeper) :=
    (does_bump.seq (hvalue.seq (does_expect .semicolon .missingSemicolon))).node .returnStmt
  have hmisplaced : Does d _ ((Rule.reject .misplacedDeclaration).run deeper) :=
    does_bumpError .misplacedDeclaration
  have hexpr : Does d _ (Rule.exprStmt.run deeper) :=
    ((hnest .expression).seq (does_expect .semicolon .missingSemicolon)).node .exprStmt
  simp only [bind_assoc] at hreturn hexpr
  refine .peek fun k => ?_
  cases k with
  | varKw => exact hvar
  | lBrace => exact hnest .block
  | semicolon => exact does_bump
  | returnKw => exact hreturn
  | functionKw => exact hmisplaced
  | classKw => exact hmisplaced
  | _ => exact hexpr

/-- Whether a statement took a token is seen by counting those that are left. -/
theorem does_guardedStmt :
    Does d (guardedStmt nest) (Rule.guardedStatement.run deeper) := by
  intro m hm hm_d
  have hstmt := does_stmt hnest m hm hm_d
  rw [guardedStmt, Rule.guardedStatement, Rule.run]
  refine (runs_ask (.refl hm) _).bind (hstmt.bind ((runs_ask hstmt.1 _).bind ?_))
  rw [Machine.cursor_after]
  split
  · rw [Machine.after_andThen]
    exact (does_bumpError .unexpectedToken _ hstmt.1.sound hm_d).mono hstmt.1
  · exact .pure hstmt.1 ()

include hd

/-- The program compares how much input is left before and after a statement, the rule asks for
progress. -/
theorem does_blockParts : Does d (blockParts nest) (Rule.block.run deeper) := by
  have hstatements := Does.whileAt (Rule.productive_statements hd) (does_guardedStmt hnest)
  have h : Does d _ (Rule.block.run deeper) :=
    (does_bump.seq (hstatements.seq (does_expect .rBrace .missingCloseBrace))).node .block
  rw [blockParts]
  simpa only [bind_assoc] using h

/-! ## Expressions -/

theorem does_argList : Does d (argList nest) (Rule.arguments.run deeper) := by
  have hmore := Does.afterCommas (r := .nest .expression) hd trivial (hnest .expression)
  have hargs : Does d (args nest) (Rule.argumentRow.run deeper) :=
    .branch (b := .commaSeparated (.nest .expression)) (fun k => by cases k <;> rfl)
      does_done ((hnest .expression).seq hmore)
  have h : Does d _ (Rule.arguments.run deeper) :=
    (does_bump.seq (hargs.seq (does_expect .rParen .missingCloseParen))).node .argList
  rw [argList]
  simpa only [bind_assoc] using h

theorem does_optionalArgs :
    Does d (optionalArgs nest) ((Rule.whenAt .lParen .arguments).run deeper) :=
  .whenAt (does_argList hnest hd)

/-- Where no operand starts, there is a report, and the program says so. -/
theorem performs_primaryAt (k : Kind) : Performs d (primaryAt nest k)
    (fun _ => (Rule.primary? k).isSome)
    (((Rule.primary? k).getD (.notAnExpression k)).run deeper) := by
  have hliteral : Performs d _ _ ((Rule.node .literal .bump).run deeper) :=
    (does_single .literal).returning true
  have hnew : Performs d _ _ (Rule.newExpr.run deeper) :=
    ((does_bump.seq (does_typeReference.seq (does_optionalArgs hnest hd))).node .newExpr).returning
      true
  have hparen : Performs d _ _ (Rule.parenExpr.run deeper) :=
    ((does_bump.seq ((hnest .expression).seq (does_expect .rParen .missingCloseParen))).node
      .parenExpr).returning true
  have hmissing : Performs d _ _ ((Rule.report .missingExpression).run deeper) :=
    (does_report .missingExpression).returning false
  have hother : Performs d _ _ ((Rule.reject .missingExpression).run deeper) :=
    (does_bumpError .missingExpression).returning false
  simp only [bind_assoc] at hnew hparen
  cases k with
  | ident => exact (does_single .reference).returning true
  | number => exact hliteral
  | string => exact hliteral
  | newKw => exact hnew
  | lParen => exact hparen
  | semicolon => exact hmissing
  | rBrace => exact hmissing
  | rParen => exact hmissing
  | eof => exact hmissing
  | _ => exact hother

/-- An operand without fields and calls says whether there is one. -/
theorem performs_primaryExpr : Performs d (primaryExpr nest)
    (fun c => (Rule.primary? (c.peek (· == .op))).isSome) (Rule.primary.run deeper) := by
  intro m hm hm_d
  have hops : Runs m prefixOperators m () (m.after (Rule.unaryOperators.run deeper m.cursor)) :=
    does_prefixOperators m hm hm_d
  have hcurrent : (Rule.unaryOperators.run deeper m.cursor).cursor.current =
      m.cursor.peek (· == .op) := by
    rw [Cursor.current_eq, Cursor.peek_eq, Rule.unaryOperators, Rule.kinds_run_skip rfl]
  have hrest := performs_primaryAt hnest hd (m.cursor.peek (· == .op)) _ hops.1.sound hm_d
  rw [Machine.cursor_after, ← Machine.after_andThen] at hrest
  rw [primaryExpr]
  refine hops.bind ((runs_ask hops.1 _).bind ?_)
  rw [Machine.cursor_after, hcurrent]
  exact hrest.mono hops.1

theorem does_selection (k : Kind) : Does d (match k with
      | .dot => bump >>= fun _ => reference .missingFieldName
      | _ => argList nest)
    ((Rule.selection k).run deeper) := by
  have harguments := does_argList hnest hd
  cases k with
  | dot => exact does_bump.seq (does_reference .missingFieldName)
  | _ => exact harguments

/-- Field accesses and calls wrap the operand before them, one after the other. -/
theorem runs_postfixSteps (hm : m.Sound) (hm_d : m.depth = d) {o : Outcome}
    (ho : m.Above (m.after o)) :
    Runs m (untilDone (postfixStep nest m.builder.checkpoint)) (m.after o) ()
      (m.after (o.wrapAll Rule.selectionKind? fun k => (Rule.selection k).run deeper)) := by
  refine runs_tail (fun p => ?_) ((Rule.productive_operand hd).2 .ident) (does_selection hnest hd)
    hm hm_d ho
  rw [postfixStep]
  congr 1
  funext k
  cases k <;> simp only [Rule.selectionKind?, bind_assoc]

/-- What follows an operand is only looked for if there is one. -/
theorem does_postfixExpr : Does d (postfixExpr nest) (Rule.operand.run deeper) := by
  intro m hm hm_d
  have hgap := does_eatTrivia m hm hm_d
  have hfirst := performs_primaryExpr hnest hd _ hgap.1.sound hm_d
  rw [postfixExpr, Rule.run_operand, Machine.after_andThen]
  refine (hgap.bind (runs_ask hgap.1 _)).bind (.mono hgap.1 (hfirst.bind ?_))
  beta_reduce
  rw [Machine.cursor_after]
  split
  · exact runs_postfixSteps hnest hd hgap.1.sound hm_d hfirst.1
  · exact .pure hfirst.1 ()

/-- Operators wrap what stands before them, so that all associate to the left. -/
theorem runs_binarySteps (hm : m.Sound) (hm_d : m.depth = d) {o : Outcome}
    (ho : m.Above (m.after o)) :
    Runs m (untilDone (binaryStep nest m.builder.checkpoint)) (m.after o) ()
      (m.after (o.wrapAll Rule.binaryKind? fun _ => (Rule.seq .bump .operand).run deeper)) := by
  have hoperand := does_postfixExpr hnest hd
  refine runs_tail (fun p => ?_) (Rule.productive_expression hd).2
    (fun _ => does_bump.seq hoperand) hm hm_d ho
  rw [binaryStep]
  congr 1
  funext k
  cases k <;> simp only [Rule.binaryKind?, bind_assoc]

/-- The program wraps from a checkpoint taken before the first operand, the rule wraps what it has
so far. -/
theorem does_exprParts : Does d (exprParts nest) (Rule.expression.run deeper) := by
  intro m hm hm_d
  have hgap := does_eatTrivia m hm hm_d
  have hfirst := does_postfixExpr hnest hd _ hgap.1.sound hm_d
  have hsplit : m.after (Rule.expression.run deeper m.cursor) = (m.after m.cursor.gap).after _ :=
    m.after_andThen _ _
  rw [exprParts, hsplit]
  refine (hgap.bind (runs_ask hgap.1 _)).bind (.mono hgap.1 (hfirst.bind ?_))
  exact runs_binarySteps hnest hd hgap.1.sound hm_d hfirst.1

/-! ## Methods -/

/-- After a parameter, a comma is taken before it is known whether another parameter follows. -/
theorem does_params : Does d (params nest) (Rule.parameters.run deeper) := by
  have hrow := Does.bind (does_param hnest) (performs_eat .comma)
  have hpass : Performs d (current >>= fun k =>
        if k = .ident then param nest >>= fun _ => eat .comma else pure false)
      (fun c => c.current == .ident &&
        (Rule.parameter.run deeper c).cursor.current == .comma)
      (fun c => if c.current = .ident then (Rule.parameter.run deeper c).andThen fun c' =>
        if (c'.current == .comma) = true then c'.bump else c'.stay else c.stay) := by
    intro m hm hm_d
    refine (runs_ask (.refl hm) _).bind ?_
    beta_reduce
    by_cases hident : m.cursor.current = .ident
    · rw [if_pos hident, if_pos hident, hident, beq_self_eq_true, Bool.true_and]
      exact hrow m hm hm_d
    · rw [if_neg hident, if_neg hident, beq_false_of_ne hident, Bool.false_and, m.after_stay]
      exact .pure (.refl hm) false
  refine .loop hpass (fun c h => ?_) fun c => ?_
  · obtain ⟨hident, hcomma⟩ := Bool.and_eq_true_iff.mp h
    have hbump : Rule.bump.Takes deeper (Rule.parameter.run deeper c).cursor :=
      Rule.eager_bump _ (Cursor.rest_ne_nil (by rw [beq_iff_eq.mp hcomma]; decide))
    have htakes := hbump.seq_right hd.covers
    rw [if_pos (beq_iff_eq.mp hident), Outcome.cursor_andThen, if_pos hcomma]
    exact htakes
  · rw [Rule.run_parameters_eq]
    by_cases hident : c.current = .ident
    · have hmore := Rule.run_moreParameters hd (Rule.parameter.run deeper c).cursor
      rw [if_pos hident, if_pos hident, hident, beq_self_eq_true, Bool.true_and]
      -- What a parameter is does not matter from here on.
      generalize Rule.parameter.run deeper c = o at hmore ⊢
      by_cases hcomma : o.cursor.current = .comma
      · rw [if_pos hcomma] at hmore
        rw [if_pos (beq_iff_eq.mpr hcomma), Outcome.andThen_assoc]
        refine Outcome.andThen_congr ?_
        rw [hmore, if_pos (beq_iff_eq.mpr hcomma)]
      · rw [if_neg hcomma] at hmore
        rw [if_neg (by simpa using hcomma)]
        refine Outcome.andThen_congr ?_
        rw [hmore, if_neg (by simpa using hcomma)]
    · rw [if_neg hident, if_neg hident, if_neg (by simp [hident])]

/-- The program takes a comma and then looks for a parameter, the rule looks behind the comma. -/
theorem does_paramList : Does d (paramList nest) (Rule.parameterList.run deeper) := by
  have hlist : Does d _ ((Rule.parenthesized .paramList .parameters).run deeper) :=
    (does_bump.seq ((does_params hnest hd).seq (does_expect .rParen .missingCloseParen))).node
      .paramList
  simp only [bind_assoc] at hlist
  exact .branch (fun k => by cases k <;> rfl) hlist (does_report .missingParameterList)

theorem does_methodDecl : Does d (methodDecl nest) (Rule.methodDecl.run deeper) := by
  have hbody : Does d (methodBody nest) (Rule.methodBody.run deeper) :=
    .branch (a := .nest .block) (fun k => by cases k <;> rfl) (hnest .block)
      (does_expect .semicolon .missingMethodBody)
  have h : Does d _ (Rule.methodDecl.run deeper) :=
    does_modifiers.lateNode (does_bump.seq ((does_name .missingMethodName).seq
      ((does_paramList hnest hd).seq ((does_optionalType hnest).seq hbody)))) .methodDecl
  rw [methodDecl]
  simpa only [bind_assoc] using h

/-! ## Classes -/

theorem does_members : Does d (members nest) (Rule.members.run deeper) := by
  have hmethod := does_methodDecl hnest hd
  have hvar := does_varDecl hnest
  have hother : Does d (bumpError .missingMember) (Cursor.reject .missingMember) :=
    does_bumpError .missingMember
  refine .whileAt (Rule.productive_members hd) (.look Kind.isModifier fun k => ?_)
  cases k with
  | functionKw => exact hmethod
  | varKw => exact hvar
  | classKw => exact hnest .classDecl
  | interfaceKw => exact hnest .classDecl
  | _ => exact hother

theorem does_anonymousTypeParts :
    Does d (anonymousTypeParts nest) (Rule.anonymousType.run deeper) := by
  have h : Does d _ (Rule.anonymousType.run deeper) :=
    (does_bump.seq ((does_members hnest hd).seq (does_expect .rBrace .missingCloseBrace))).node
      .anonymousType
  rw [anonymousTypeParts]
  simpa only [bind_assoc] using h

theorem does_classParts : Does d (classParts nest) (Rule.classDecl.run deeper) := by
  have hbraces : Does d _ ((Rule.node .classBody .memberList).run deeper) :=
    (does_bump.seq ((does_members hnest hd).seq (does_expect .rBrace .missingCloseBrace))).node
      .classBody
  simp only [bind_assoc] at hbraces
  have hbody : Does d (classBody nest) (Rule.classBody.run deeper) :=
    .branch (fun k => by cases k <;> rfl) hbraces (does_report .missingClassBody)
  have h : Does d _ (Rule.classDecl.run deeper) :=
    does_modifiers.lateNode (does_bump.seq ((does_name .missingClassName).seq
      (does_extendsClause.seq ((does_implementsClause hd).seq hbody)))) .classDecl
  rw [classParts]
  simpa only [bind_assoc] using h

/-- One level deeper, every program does what the rule of its construct says. -/
theorem does_inside (k : Construct) : Does d (k.inside nest) (k.rule.run deeper) := by
  cases k with
  | classDecl => exact does_classParts hnest hd
  | anonymousType => exact does_anonymousTypeParts hnest hd
  | block => exact does_blockParts hnest hd
  | expression => exact does_exprParts hnest hd

/-! ## Files -/

theorem does_declarations :
    Does d (declarations nest) (Rule.declarations.run deeper) := by
  refine .whileAt (Rule.productive_declarations hd) (.look Kind.isModifier fun k => ?_)
  cases k with
  | classKw => exact hnest .classDecl
  | interfaceKw => exact hnest .classDecl
  | _ => exact does_bumpError .missingDeclaration

end

/-! ## All levels -/

/-- A construct is parsed with the levels that the depth of the state leaves, if its program may go
deep enough. -/
theorem does_program (n : Nat) : ∀ {d}, d ≤ maxDepth → maxDepth < d + n → ∀ k : Construct,
    Does d (k.program n) (k.parse (maxDepth - d)) := by
  induction n with
  | zero => omega
  | succ n ih =>
    intro d hle hlt k
    obtain rfl | hdeeper := Nat.eq_or_lt_of_le hle
    · rw [Nat.sub_self]
      exact .tooDeep (Nat.le_refl _) _
    · obtain ⟨l, hl⟩ : ∃ l, maxDepth - d = l + 1 := ⟨maxDepth - (d + 1), by omega⟩
      have hnest : ∀ k : Construct, Does (d + 1) (k.program n) (k.parse l) := by
        have hl' : maxDepth - (d + 1) = l := by omega
        exact hl' ▸ ih hdeeper (by omega)
      rw [hl]
      exact .nested hdeeper (does_inside hnest (Construct.lively l) k)

/-- The depth of the state and the levels that are left add up to the limit. -/
theorem does_at_depth {d : Nat} (h : d ≤ maxDepth) (k : Construct) :
    Does d k.parser (k.parse (maxDepth - d)) :=
  does_program (maxDepth + 1) h (by omega) k

theorem sound_initial {ts : List Token} (hts : ∀ t ∈ ts, t.kind ≠ .eof) :
    (Machine.initial ts).Sound where
  depth_le := Nat.zero_le _
  offset_eq := rfl
  first_le := List.forall_mem_nil _
  kind_ne := hts

/-- A file is parsed into one root. -/
theorem runs_file {nest : Construct → Program Unit} {deeper : Construct → Cursor → Outcome}
    (hnest : ∀ k : Construct, Does 0 (nest k) (deeper k)) (hd : Rule.Lively deeper)
    {ts : List Token} (hts : ∀ t ∈ ts, t.kind ≠ .eof) :
    Runs (.initial ts) (file nest) (.initial ts)
      (.node .sourceFile (Rule.file.run deeper ⟨0, ts⟩).trees)
      ((Machine.initial ts).after ((Rule.file.run deeper ⟨0, ts⟩).enclose .sourceFile)) := by
  have hsound := sound_initial hts
  have hopen := Machine.above_opened hsound .sourceFile
  have hbody : Runs _ (declarations nest >>= fun _ => eatTrivia) _ ()
      (((Machine.initial ts).opened .sourceFile).after (Rule.file.run deeper ⟨0, ts⟩)) :=
    ((does_declarations hnest hd).seq does_eatTrivia) _ hopen.sound rfl
  have hclose := runs_finishNode hsound hbody.1.sound
  have hparts : file nest = openNode .sourceFile >>= fun _ =>
      (declarations nest >>= fun _ => eatTrivia) >>= fun _ => finishNode >>= fun _ => root := by
    rw [file]
    simp only [bind_assoc]
  rw [hparts]
  exact Runs.bind (runs_act rfl hopen)
    ((hbody.mono hopen).bind (hclose.bind (runs_root hclose.1 rfl)))

end Program

/-! ## Productions -/

/-- The programs that parse a part of a text, or pass over it. -/
inductive Production
  | classDecl
  | members
  | methodDecl
  | varDecl
  | paramList
  | typeTag
  | block
  | stmt
  | expr
  | postfixExpr
  | primaryExpr
  | argList
  | skipTooDeep
  | bumpError (fault : Fault)
deriving DecidableEq, Repr, Inhabited

namespace Production

def program : Production → Program Unit
  | classDecl => Construct.classDecl.parser
  | members => Program.members Construct.parser
  | methodDecl => Program.methodDecl Construct.parser
  | varDecl => Program.varDecl Construct.parser
  | paramList => Program.paramList Construct.parser
  | typeTag => Program.typeTag Construct.parser
  | block => Construct.block.parser
  | stmt => Program.stmt Construct.parser
  | expr => Construct.expression.parser
  | postfixExpr => Program.postfixExpr Construct.parser
  | primaryExpr => do let _ ← Program.primaryExpr Construct.parser
  | argList => Program.argList Construct.parser
  | skipTooDeep => Program.skipTooDeep
  | bumpError fault => Program.bumpError fault

/-- What a production yields with some levels left. -/
def outcome (levels : Nat) : Production → Cursor → Outcome
  | classDecl => Construct.classDecl.parse levels
  | members => Rule.members.run (Construct.parse levels)
  | methodDecl => Rule.methodDecl.run (Construct.parse levels)
  | varDecl => Rule.varDecl.run (Construct.parse levels)
  | paramList => Rule.parameterList.run (Construct.parse levels)
  | typeTag => Rule.typeTag.run (Construct.parse levels)
  | block => Construct.block.parse levels
  | stmt => Rule.statement.run (Construct.parse levels)
  | expr => Construct.expression.parse levels
  | postfixExpr => Rule.operand.run (Construct.parse levels)
  | primaryExpr => Rule.primary.run (Construct.parse levels)
  | argList => Rule.arguments.run (Construct.parse levels)
  | skipTooDeep => Cursor.cutOff
  | bumpError fault => Cursor.reject fault

/-- Every production does what the grammar says, at every depth. -/
theorem does_outcome (p : Production) {d : Nat} (h : d ≤ maxDepth) :
    Program.Does d p.program (p.outcome (maxDepth - d)) := by
  have hnest := Program.does_at_depth h
  have hd := Construct.lively (maxDepth - d)
  cases p with
  | classDecl => exact hnest .classDecl
  | members => exact Program.does_members hnest hd
  | methodDecl => exact Program.does_methodDecl hnest hd
  | varDecl => exact Program.does_varDecl hnest
  | paramList => exact Program.does_paramList hnest hd
  | typeTag => exact Program.does_typeTag hnest
  | block => exact hnest .block
  | stmt => exact Program.does_stmt hnest
  | expr => exact hnest .expression
  | postfixExpr => exact Program.does_postfixExpr hnest hd
  | primaryExpr =>
    intro m hm hm_d
    have hrun := Program.performs_primaryExpr hnest hd m hm hm_d
    exact hrun.bind (.pure hrun.1 ())
  | argList => exact Program.does_argList hnest hd
  | skipTooDeep => exact Program.does_skipTooDeep
  | bumpError fault => exact Program.does_bumpError fault

/-- From every sound state, whatever nodes are open and whatever tokens are left, every production
comes back: no step of it fails, so that no node is closed that is not open, and no checkpoint is
used that is not a place in the innermost open node. It leaves the same nodes open at the same
depth, and adds its trees behind what they had. In between, the nodes that were open stay open with
all that they had, the depth stays between the one at the start and the limit, and the offset is the
length of the leaves. So a run over a whole text, which starts with nothing, ends with the tree of
the text as its one root. -/
theorem keeps_open_nodes :
    (∀ (p : Production) (m : Machine), m.Sound → ∃ (m' : Machine) (visited : List Machine),
      p.program ⟨m, []⟩ = some ((), ⟨m', visited⟩) ∧
      m'.builder.parents = m.builder.parents ∧ m'.depth = m.depth ∧
      m'.builder.children =
        m.builder.children ++ (p.outcome (maxDepth - m.depth) m.cursor).trees ∧
      m'.cursor = (p.outcome (maxDepth - m.depth) m.cursor).cursor ∧
      m'.problems = m.problems ++ (p.outcome (maxDepth - m.depth) m.cursor).problems ∧
      m'.Sound ∧ ∀ v ∈ visited, m.Above v) ∧
    ∀ text, ∃ (final : Machine) (visited : List Machine),
      Program.file Construct.parser ⟨.initial (Token.scan text), []⟩ =
        some ((parse text).tree, ⟨final, visited⟩) ∧
      final.builder = ⟨[], [(parse text).tree]⟩ ∧ final.depth = 0 ∧ final.cursor.rest = [] ∧
      final.problems = (parse text).problems ∧ final.Sound ∧ ∀ v ∈ visited, v.Sound := by
  constructor
  · intro p m hm
    obtain ⟨habove, visited, hvisited, hrun⟩ := p.does_outcome hm.depth_le m hm rfl
    exact ⟨_, visited, hrun [], rfl, rfl, rfl, rfl, rfl, habove.sound, hvisited⟩
  · intro text
    have hts : ∀ t ∈ Token.scan text, t.kind ≠ .eof := fun _ => Token.kind_ne_eof_of_mem_scan
    have hd := Construct.lively maxDepth
    obtain ⟨habove, visited, hvisited, hrun⟩ :=
      Program.runs_file (Program.does_at_depth (Nat.zero_le _)) hd hts
    refine ⟨_, visited, hrun [], rfl, rfl, ?_, rfl, habove.sound, fun v hv => (hvisited v hv).sound⟩
    exact Rule.rest_run_file hd hts

/-- A call in a method one level above the limit: its argument is passed over, and the method and
its block are open as before. -/
theorem keeps_open_nodes_of_last_level :
    let m : Machine := ⟨⟨2, Token.scan "f(x.y);"⟩, 255, ⟨[(.block, 1), (.methodDecl, 0)],
      [.leaf ⟨.ident, "m"⟩, .leaf ⟨.lBrace, "\x7b"⟩]⟩, []⟩
    m.Sound ∧ ∃ (m' : Machine) (visited : List Machine),
      Production.stmt.program ⟨m, []⟩ = some ((), ⟨m', visited⟩) ∧
      m'.builder.parents = [(.block, 1), (.methodDecl, 0)] ∧ m'.depth = 255 ∧
      m'.problems.map Problem.fault = [.nestingTooDeep] ∧ ∀ v ∈ visited, m.Above v := by
  intro m
  have hsound : m.Sound :=
    ⟨by decide, by decide +kernel, by decide, fun _ => Token.kind_ne_eof_of_mem_scan⟩
  refine ⟨hsound, ?_⟩
  obtain ⟨m', visited, hrun, hparents, hdepth, -, -, hproblems, -, hvisited⟩ :=
    keeps_open_nodes.1 .stmt m hsound
  have hfaults : (Production.stmt.outcome (maxDepth - m.depth) m.cursor).problems.map
      Problem.fault = [.nestingTooDeep] := by decide +kernel
  have hnone : m.problems = [] := rfl
  refine ⟨m', visited, hrun, hparents, hdepth, ?_, hvisited⟩
  rw [hproblems, hnone, List.nil_append, hfaults]

end Production

end ClassNav
