import ClassNav.Proofs.Grammar.Form
import ClassNav.Proofs.Grammar.Lossless
import ClassNav.Proofs.Grammar.Reading

/-!
# Parsing accepts the grammar

A text is parsed without problems exactly if its significant tokens have the form of a file with
constructs nested at most `maxDepth` deep (`problems_parseTokens_eq_nil_iff`).

Both directions compare, rule by rule, what a rule reads with what its form splits off, given the
same comparison for the constructs one level deeper; the level is what the induction is on.

* Soundness: what is read has the form. A rule that takes a token without looking at it relies on
  the look before, so it comes with a condition on the kinds in front.
* Completeness: what has the form is read. Reading is greedy, so a form that could go on comes
  with a condition on the kind behind: `Kind.endsOperand` and `Kind.endsExpression`.
-/

namespace ClassNav

open Form (Splits)

/-! ## What the shorthands read -/

theorem Kind.eq_cons_of_front {k : Kind} {ks : List Kind} (h : Kind.front ks = k)
    (hk : k ≠ .eof) : ks = k :: ks.tail := by
  cases ks with
  | nil => exact absurd h.symm hk
  | cons k' ks => rw [← h, front_cons, List.tail_cons]

namespace Rule

variable {reader : Construct → List Kind → List Kind → Prop} {ks ks' : List Kind}

theorem reads_look {skip : Kind → Bool} {next : Kind → Rule} :
    (look skip next).Reads reader ks ks' ↔
      (next (Kind.front (ks.dropWhile skip))).Reads reader ks ks' := Iff.rfl

@[simp] theorem reads_peek {next : Kind → Rule} :
    (peek next).Reads reader ks ks' ↔ (next (Kind.front ks)).Reads reader ks ks' := by
  have hdrop : ks.dropWhile (fun _ => false) = ks := by cases ks <;> rfl
  rw [peek, reads_look, hdrop]

theorem reads_whenAt_of_eq {k : Kind} {r : Rule} (h : Kind.front ks = k) :
    (whenAt k r).Reads reader ks ks' ↔ r.Reads reader ks ks' := by
  rw [whenAt, reads_peek, if_pos h]

theorem reads_whenAt_of_ne {k : Kind} {r : Rule} (h : Kind.front ks ≠ k) :
    (whenAt k r).Reads reader ks ks' ↔ ks = ks' := by
  rw [whenAt, reads_peek, if_neg h]
  rfl

theorem reads_whenAt_skip {k : Kind} {r : Rule} (h : Kind.front ks ≠ k) :
    (whenAt k r).Reads reader ks ks :=
  (reads_whenAt_of_ne h).mpr rfl

theorem reads_expect_cons {k : Kind} {f : Fault} : (expect k f).Reads reader (k :: ks) ks := by
  rw [expect, reads_peek, Kind.front_cons, if_pos rfl]
  rfl

/-- A token whose absence would be reported is there. -/
theorem eq_of_reads_expect {k : Kind} {f : Fault} (h : (expect k f).Reads reader ks ks')
    (hk : k ≠ .eof) : ks = k :: ks' := by
  rw [expect, reads_peek] at h
  by_cases hfront : Kind.front ks = k
  · rw [if_pos hfront] at h
    rw [Kind.eq_cons_of_front hfront hk, show ks.tail = ks' from h]
  · rw [if_neg hfront] at h
    exact h.elim

/-- Both names and references are one identifier. -/
theorem reads_ident {k : Kind} {f : Fault} :
    (peek fun
      | .ident => node k bump
      | _ => report f).Reads reader ks ks' ↔ ks = .ident :: ks' := by
  rw [reads_peek]
  cases ks with
  | nil => simp [Reads]
  | cons k' ks =>
    by_cases hk : k' = .ident
    · subst hk
      simp [Reads]
    · simp only [Kind.front_cons, List.cons.injEq, hk, false_and, iff_false]
      exact id

@[simp] theorem reads_declaredName {f : Fault} :
    (declaredName f).Reads reader ks ks' ↔ ks = .ident :: ks' := reads_ident

@[simp] theorem reads_reference {f : Fault} :
    (reference f).Reads reader ks ks' ↔ ks = .ident :: ks' := reads_ident

@[simp] theorem reads_reject {f : Fault} : ¬ (reject f).Reads reader ks ks' := by
  rintro ⟨_, ⟨⟩, _⟩

/-- Tokens that are passed over one by one. -/
theorem reads_skip {skip : Kind → Bool} (heof : skip .eof = false) :
    (manyWhile skip bump).Reads reader ks ks' ↔ ks.dropWhile skip = ks' := by
  show Repeats _ _ ks ks' ↔ _
  induction ks with
  | nil => exact repeats_of_stop (by simpa using heof)
  | cons k ks ih =>
    cases hk : skip k with
    | false =>
      rw [repeats_of_stop (by simpa using hk), List.dropWhile_cons_of_neg (by simp [hk])]
    | true =>
      rw [repeats_of_pass (by simpa using hk), List.dropWhile_cons_of_pos hk]
      refine Iff.trans ⟨?_, fun h => ⟨ks, rfl, h⟩⟩ ih
      rintro ⟨ms, rfl, h⟩
      exact h

theorem reads_modifiers : modifiers.Reads reader ks ks' ↔ ks.dropWhile Kind.isModifier = ks' :=
  reads_skip rfl

theorem reads_unaryOperators :
    unaryOperators.Reads reader ks ks' ↔ ks.dropWhile (· == .op) = ks' :=
  reads_skip rfl

end Rule

namespace Form

variable {n : Nat} {ks ks' : List Kind} {test : Kind → Bool}

/-- All tokens of a kind in a row are one way to read any number of them. -/
theorem splits_skip (test : Kind → Bool) (ks : List Kind) :
    Splits n (many (one test)) ks (ks.dropWhile test) := by
  induction ks with
  | nil => exact splits_many_nil []
  | cons k ks ih =>
    cases hk : test k with
    | false =>
      rw [List.dropWhile_cons_of_neg (by simp [hk])]
      exact splits_many_nil _
    | true =>
      rw [List.dropWhile_cons_of_pos hk]
      exact splits_many_cons (splits_one.mpr ⟨k, hk, rfl⟩) ih

/-- It is the only way if none of the kind may follow. -/
theorem dropWhile_of_splits (h : Splits n (many (one test)) ks ks')
    (hstop : test (Kind.front ks') = false) : ks.dropWhile test = ks' := by
  refine splits_many_induction (P := fun ks => ks.dropWhile test = ks') h ?_ ?_
  · cases ks' with
    | nil => rfl
    | cons k ks' => exact List.dropWhile_cons_of_neg (by simpa using hstop)
  · intro ks ms hone ih
    obtain ⟨k, hk, rfl⟩ := splits_one.mp hone
    rw [List.dropWhile_cons_of_pos hk]
    exact ih

/-- A keyword behind modifiers is found by looking past them. -/
theorem front_behind_modifiers {k : Kind} {f : Form}
    (h : Splits n (seq modifiers (seq (token k) f)) ks ks') (hk : k.isModifier = false) :
    Kind.front (ks.dropWhile Kind.isModifier) = k := by
  obtain ⟨_, hmods, hrest⟩ := splits_seq.mp h
  obtain ⟨_, hkeyword, _⟩ := splits_seq.mp hrest
  obtain rfl := splits_token.mp hkeyword
  rw [dropWhile_of_splits hmods hk]
  rfl

end Form

/-! ## Soundness -/

/-- What is repeated has the form of the repetition, if each pass has the form of an item. -/
theorem Repeats.splits {test : List Kind → Bool} {body : List Kind → List Kind → Prop} {n : Nat}
    {f : Form} {ks ks' : List Kind}
    (hbody : ∀ ks ms, test ks = true → body ks ms → Splits n f ks ms)
    (h : Repeats test body ks ks') : Splits n (.many f) ks ks' := by
  induction h with
  | stop _ => exact Form.splits_many_nil _
  | pass ht hb _ ih => exact Form.splits_many_cons (hbody _ _ ht hb) ih

namespace Rule

section Soundness

open Form (splits_seq splits_token splits_opt splits_alt splits_one splits_skip)

variable {n : Nat} {reader : Construct → List Kind → List Kind → Prop} {ks ks' : List Kind}

theorem sound_commaList {r : Rule} {f : Form}
    (hr : ∀ ks ks', r.Reads reader ks ks' → Splits n f ks ks')
    (h : (commaSeparated r).Reads reader ks ks') : Splits n (.commaList f) ks ks' := by
  obtain ⟨ms, hfirst, hrest⟩ := h
  refine splits_seq.mpr ⟨ms, hr _ _ hfirst, Repeats.splits ?_ hrest⟩
  rintro ks ms ht ⟨_, rfl, hitem⟩
  have hcomma := Kind.eq_cons_of_front (eq_of_beq ht) nofun
  exact splits_seq.mpr ⟨ks.tail, splits_token.mpr hcomma, hr _ _ hitem⟩

variable (hreader : ∀ k ks ks', k.Opens ks → reader k ks ks' → Splits n (.nested k) ks ks')
include hreader

theorem sound_expr (h : (nest .expression).Reads reader ks ks') : Splits n .expr ks ks' :=
  hreader .expression ks ks' trivial h

theorem sound_arguments (hfront : Kind.front ks = .lParen)
    (h : arguments.Reads reader ks ks') : Splits n .arguments ks ks' := by
  obtain ⟨_, rfl, ms, hargs, hclose⟩ := h
  have hopen := Kind.eq_cons_of_front hfront nofun
  have hclose := eq_of_reads_expect hclose nofun
  simp only [Form.arguments, Form.row, splits_seq, splits_token, splits_opt]
  refine ⟨_, hopen, ms, ?_, hclose⟩
  replace hargs := reads_peek.mp hargs
  split at hargs
  · exact .inl hargs
  · exact .inr (sound_commaList (fun _ _ => sound_expr hreader) hargs)

theorem sound_primary? {r : Rule} (hr : primary? (Kind.front ks) = some r)
    (h : r.Reads reader ks ks') : Splits n .primary ks ks' := by
  simp only [Form.primary, Form.choice, Form.row, splits_alt, splits_seq, splits_token, splits_opt]
  unfold primary? at hr
  split at hr
  case h_1 hk =>
    cases hr
    exact .inl (h ▸ Kind.eq_cons_of_front hk nofun)
  case h_2 hk =>
    cases hr
    exact .inr (.inl (h ▸ Kind.eq_cons_of_front hk nofun))
  case h_3 hk =>
    cases hr
    exact .inr (.inr (.inl (h ▸ Kind.eq_cons_of_front hk nofun)))
  case h_4 hk =>
    cases hr
    obtain ⟨_, rfl, ms, htype, hargs⟩ := h
    have hnew := Kind.eq_cons_of_front hk nofun
    refine .inr (.inr (.inr (.inl ⟨_, hnew, ms, reads_reference.mp htype, ?_⟩)))
    by_cases hparen : Kind.front ms = .lParen
    · exact .inr (sound_arguments hreader hparen ((reads_whenAt_of_eq hparen).mp hargs))
    · exact .inl ((reads_whenAt_of_ne hparen).mp hargs)
  case h_5 hk =>
    cases hr
    obtain ⟨_, rfl, ms, hexpr, hclose⟩ := h
    have hopen := Kind.eq_cons_of_front hk nofun
    have hclose := eq_of_reads_expect hclose nofun
    exact .inr (.inr (.inr (.inr ⟨_, hopen, ms, sound_expr hreader hexpr, hclose⟩)))
  case h_6 => cases hr

theorem sound_selection (hkind : (selectionKind? (Kind.front ks)).isSome = true)
    (h : (selection (Kind.front ks)).Reads reader ks ks') : Splits n .selection ks ks' := by
  simp only [Form.selection, splits_alt, splits_seq, splits_token]
  unfold selection at h
  split at h
  · next hk =>
    obtain ⟨_, rfl, hname⟩ := h
    exact .inl ⟨_, Kind.eq_cons_of_front hk nofun, reads_reference.mp hname⟩
  · next hk =>
    have hparen : Kind.front ks = .lParen := by
      unfold selectionKind? at hkind
      split at hkind
      · next hdot => exact absurd hdot hk
      · next hparen => exact hparen
      · cases hkind
    exact .inr (sound_arguments hreader hparen h)

/-- Operators in front are skipped by a look ahead and taken by the operand itself, so the form
starts behind them. -/
theorem sound_primaryAt
    (h : (primaryAt (Kind.front (ks.dropWhile (· == .op)))).Reads reader ks ks') :
    Splits n .primary (ks.dropWhile (· == .op)) ks' := by
  obtain ⟨_, hops, h⟩ := h
  obtain rfl := reads_unaryOperators.mp hops
  cases hr : primary? (Kind.front (ks.dropWhile (· == .op))) with
  | some r =>
    rw [hr] at h
    exact sound_primary? hreader hr h
  | none =>
    -- What starts no operand is reported or refused.
    rw [hr, Option.getD_none] at h
    unfold notAnExpression at h
    split at h
    all_goals first | exact h.elim | exact absurd h reads_reject

theorem sound_operand (h : operand.Reads reader ks ks') : Splits n .operand ks ks' := by
  obtain ⟨_, rfl, h⟩ := h
  simp only [Form.operand, Form.row, splits_seq]
  replace h := reads_look.mp h
  split at h
  · obtain ⟨ms, hprimary, hselections⟩ := h
    refine ⟨_, splits_skip _ ks, ms, sound_primaryAt hreader hprimary, ?_⟩
    exact Repeats.splits (fun _ _ => sound_selection hreader) hselections
  · exact ⟨_, splits_skip _ ks, ks', sound_primaryAt hreader h, Form.splits_many_nil ks'⟩

/-- What the rule wraps pass by pass lies in a row in the form: operands with operators between. -/
theorem sound_expression (h : expression.Reads reader ks ks') : Splits n .expression ks ks' := by
  obtain ⟨_, rfl, ms, hfirst, hrest⟩ := h
  refine splits_seq.mpr ⟨ms, sound_operand hreader hfirst, Repeats.splits ?_ hrest⟩
  rintro ks ms ht ⟨_, rfl, hoperand⟩
  have hop : (Kind.front ks == .op || Kind.front ks == .eq) = true := by
    unfold binaryKind? at ht
    split at ht
    · next h => simp [h]
    · next h => simp [h]
    · cases ht
  have hne : Kind.front ks ≠ .eof := by
    intro h
    simp [h] at hop
  have hcons := Kind.eq_cons_of_front rfl hne
  exact splits_seq.mpr ⟨ks.tail, splits_one.mpr ⟨_, hop, hcons⟩, sound_operand hreader hoperand⟩

theorem sound_optionalType (h : optionalType.Reads reader ks ks') :
    Splits n (.opt .typeTag) ks ks' := by
  by_cases hcolon : Kind.front ks = .colon
  · obtain ⟨_, rfl, htype⟩ := (reads_whenAt_of_eq hcolon).mp h
    simp only [Form.typeTag, splits_opt, splits_alt, splits_seq, splits_token]
    refine .inr ⟨_, Kind.eq_cons_of_front hcolon nofun, ?_⟩
    replace htype := reads_peek.mp htype
    split at htype
    · next hbrace => exact .inr (hreader .anonymousType _ _ hbrace htype)
    · exact .inl (reads_reference.mp htype)
  · exact splits_opt.mpr (.inl ((reads_whenAt_of_ne hcolon).mp h))

theorem sound_initialiser (h : initialiser.Reads reader ks ks') :
    Splits n (.opt .initialiser) ks ks' := by
  by_cases heq : Kind.front ks = .eq
  · obtain ⟨_, rfl, hvalue⟩ := (reads_whenAt_of_eq heq).mp h
    simp only [Form.initialiser, splits_opt, splits_seq, splits_token]
    exact .inr ⟨_, Kind.eq_cons_of_front heq nofun, sound_expr hreader hvalue⟩
  · exact splits_opt.mpr (.inl ((reads_whenAt_of_ne heq).mp h))

theorem sound_varDecl (hvar : Kind.front (ks.dropWhile Kind.isModifier) = .varKw)
    (h : varDecl.Reads reader ks ks') :
    Splits n .variableDecl (ks.dropWhile Kind.isModifier) ks' := by
  obtain ⟨_, hmods, _, rfl, _, hname, _, htype, _, hvalue, hsemi⟩ := h
  obtain rfl := reads_modifiers.mp hmods
  simp only [Form.variableDecl, Form.row, splits_seq, splits_token]
  exact ⟨_, Kind.eq_cons_of_front hvar nofun, _, reads_declaredName.mp hname,
    _, sound_optionalType hreader htype, _, sound_initialiser hreader hvalue,
    eq_of_reads_expect hsemi nofun⟩

theorem sound_parameter (h : parameter.Reads reader ks ks') : Splits n .parameter ks ks' := by
  obtain ⟨_, hname, _, htype, hvalue⟩ := h
  simp only [Form.parameter, Form.row, splits_seq, splits_token]
  exact ⟨_, reads_declaredName.mp hname, _, sound_optionalType hreader htype,
    sound_initialiser hreader hvalue⟩

theorem sound_moreParameters (h : moreParameters.Reads reader ks ks') :
    Splits n (.many (.seq (.token .comma) .parameter)) ks ks' := by
  refine Repeats.splits ?_ h
  rintro ks ms ht ⟨_, rfl, hparam⟩
  have hcomma : Kind.front ks = .comma := by
    simp only [Bool.and_eq_true, beq_iff_eq] at ht
    exact ht.1
  exact splits_seq.mpr ⟨_, splits_token.mpr (Kind.eq_cons_of_front hcomma nofun),
    sound_parameter hreader hparam⟩

/-- A comma before the closing parenthesis is read as one that ends the parameters. -/
theorem sound_parameters (h : parameters.Reads reader ks ks') :
    Splits n (.opt (.seq (.commaList .parameter) (.opt (.token .comma)))) ks ks' := by
  simp only [Form.commaList, splits_opt, splits_seq, splits_token]
  by_cases hident : Kind.front ks = .ident
  · obtain ⟨ls, hfirst, ms, hrest, hcomma⟩ := (reads_whenAt_of_eq hident).mp h
    refine .inr ⟨ms, ⟨ls, sound_parameter hreader hfirst, sound_moreParameters hreader hrest⟩, ?_⟩
    by_cases hlast : Kind.front ms = .comma
    · obtain rfl := (reads_whenAt_of_eq hlast).mp hcomma
      exact .inr (Kind.eq_cons_of_front hlast nofun)
    · exact .inl ((reads_whenAt_of_ne hlast).mp hcomma)
  · exact .inl ((reads_whenAt_of_ne hident).mp h)

theorem sound_parameterList (h : parameterList.Reads reader ks ks') :
    Splits n .parameterList ks ks' := by
  rw [parameterList, reads_peek] at h
  split at h
  · next hparen =>
    obtain ⟨_, rfl, ms, hparams, hclose⟩ := h
    rw [Form.parameterList]
    simp only [Form.row, splits_seq, splits_token]
    exact ⟨_, Kind.eq_cons_of_front hparen nofun, ms, sound_parameters hreader hparams,
      eq_of_reads_expect hclose nofun⟩
  · exact h.elim

theorem sound_methodDecl (hfunction : Kind.front (ks.dropWhile Kind.isModifier) = .functionKw)
    (h : methodDecl.Reads reader ks ks') : Splits n .methodDecl ks ks' := by
  obtain ⟨_, hmods, _, rfl, _, hname, _, hparams, ms, htype, hbody⟩ := h
  obtain rfl := reads_modifiers.mp hmods
  simp only [Form.methodDecl, Form.row, splits_alt, splits_seq, splits_token]
  refine ⟨_, splits_skip _ ks, _, Kind.eq_cons_of_front hfunction nofun,
    _, reads_declaredName.mp hname, _, sound_parameterList hreader hparams,
    ms, sound_optionalType hreader htype, ?_⟩
  replace hbody := reads_peek.mp hbody
  split at hbody
  · next hbrace => exact .inl (hreader .block _ _ hbrace hbody)
  · exact .inr (eq_of_reads_expect hbody nofun)

/-- A member is told by the keyword behind its modifiers. -/
theorem sound_member (h : member.Reads reader ks ks') : Splits n .member ks ks' := by
  simp only [Form.member, Form.choice, splits_alt, splits_seq]
  replace h := reads_look.mp h
  split at h
  · next hk => exact .inr (.inl (sound_methodDecl hreader hk h))
  · next hk => exact .inr (.inr ⟨_, splits_skip _ ks, sound_varDecl hreader hk h⟩)
  · next hk => exact .inl (hreader .classDecl _ _ (.inl hk) h)
  · next hk => exact .inl (hreader .classDecl _ _ (.inr hk) h)
  · exact absurd h reads_reject

theorem sound_memberList (hbrace : Kind.front ks = .lBrace)
    (h : memberList.Reads reader ks ks') : Splits n .memberList ks ks' := by
  obtain ⟨_, rfl, ms, hmembers, hclose⟩ := h
  simp only [Form.memberList, Form.row, splits_seq, splits_token]
  exact ⟨_, Kind.eq_cons_of_front hbrace nofun, ms,
    Repeats.splits (fun _ _ _ => sound_member hreader) hmembers, eq_of_reads_expect hclose nofun⟩

/-- Where a class opens, the keyword that makes it one is there and need not be reported as
missing. -/
theorem sound_classDecl (hclass : Construct.classDecl.Opens ks)
    (h : classDecl.Reads reader ks ks') : Splits n .classDecl ks ks' := by
  obtain ⟨_, hmods, _, rfl, ls, hname, ms, hextends, ms', himplements, hbody⟩ := h
  obtain rfl := reads_modifiers.mp hmods
  simp only [Form.classDecl, Form.row, splits_opt, splits_seq, splits_token]
  refine ⟨_, splits_skip _ ks, _, splits_one.mpr ?_, _, reads_declaredName.mp hname, ms, ?_,
    ms', ?_, ?_⟩
  · rcases hclass with hk | hk
    · exact ⟨_, rfl, Kind.eq_cons_of_front hk nofun⟩
    · exact ⟨_, rfl, Kind.eq_cons_of_front hk nofun⟩
  · by_cases hk : Kind.front ls = .extendsKw
    · obtain ⟨_, rfl, htype⟩ := (reads_whenAt_of_eq hk).mp hextends
      exact .inr ⟨_, Kind.eq_cons_of_front hk nofun, reads_reference.mp htype⟩
    · exact .inl ((reads_whenAt_of_ne hk).mp hextends)
  · by_cases hk : Kind.front ms = .implementsKw
    · obtain ⟨_, rfl, htypes⟩ := (reads_whenAt_of_eq hk).mp himplements
      refine .inr ⟨_, Kind.eq_cons_of_front hk nofun, sound_commaList ?_ htypes⟩
      exact fun _ _ h => splits_token.mpr (reads_reference.mp h)
    · exact .inl ((reads_whenAt_of_ne hk).mp himplements)
  · replace hbody := reads_peek.mp hbody
    split at hbody
    · next hbrace => exact sound_memberList hreader hbrace hbody
    · exact hbody.elim

theorem sound_statement (h : statement.Reads reader ks ks') : Splits n .statement ks ks' := by
  simp only [Form.statement, Form.choice, Form.row, splits_alt, splits_opt, splits_seq,
    splits_token]
  rw [statement, reads_peek] at h
  split at h
  · next hk =>
    -- No modifiers stand before a variable in a block.
    have hks : ks.dropWhile Kind.isModifier = ks := by
      rw [Kind.eq_cons_of_front hk nofun]
      rfl
    have hvar := sound_varDecl hreader (by rw [hks]; exact hk) h
    rw [hks] at hvar
    exact .inl hvar
  · next hk => exact .inr (.inl (hreader .block _ _ hk h))
  · next hk => exact .inr (.inr (.inl (h ▸ Kind.eq_cons_of_front hk nofun)))
  · next hk =>
    obtain ⟨_, rfl, ms, hvalue, hsemi⟩ := h
    refine .inr (.inr (.inr (.inl ⟨_, Kind.eq_cons_of_front hk nofun, ms, ?_,
      eq_of_reads_expect hsemi nofun⟩)))
    replace hvalue := reads_peek.mp hvalue
    split at hvalue
    · exact .inl hvalue
    · exact .inr (sound_expr hreader hvalue)
  · exact absurd h reads_reject
  · exact absurd h reads_reject
  · obtain ⟨ms, hexpr, hsemi⟩ := h
    exact .inr (.inr (.inr (.inr ⟨ms, sound_expr hreader hexpr,
      eq_of_reads_expect hsemi nofun⟩)))

theorem sound_block (hbrace : Kind.front ks = .lBrace) (h : block.Reads reader ks ks') :
    Splits n .block ks ks' := by
  obtain ⟨_, rfl, ms, hstatements, hclose⟩ := h
  simp only [Form.block, Form.row, splits_seq, splits_token]
  refine ⟨_, Kind.eq_cons_of_front hbrace nofun, ms, ?_, eq_of_reads_expect hclose nofun⟩
  exact Repeats.splits (fun _ _ _ => sound_statement hreader) hstatements

theorem sound_topLevel (h : topLevel.Reads reader ks ks') :
    Splits n (.nested .classDecl) ks ks' := by
  replace h := reads_look.mp h
  split at h
  · next hk => exact hreader .classDecl _ _ (.inl hk) h
  · next hk => exact hreader .classDecl _ _ (.inr hk) h
  · exact absurd h reads_reject

theorem sound_file (h : file.Reads reader ks ks') : Splits n .file ks ks' := by
  obtain ⟨_, hclasses, rfl⟩ := h
  exact Repeats.splits (fun _ _ _ => sound_topLevel hreader) hclasses

end Soundness

end Rule

/-- What is read as a construct has the form of the construct. -/
theorem Construct.sound (n : Nat) (k : Construct) (ks ks' : List Kind) (hopens : k.Opens ks)
    (h : Construct.Reads n k ks ks') : Splits n (.nested k) ks ks' := by
  induction n generalizing k ks ks' with
  | zero => exact h.elim
  | succ n ih =>
    rw [Form.splits_nested]
    cases k with
    | classDecl => exact Rule.sound_classDecl ih hopens h
    | anonymousType => exact Rule.sound_memberList ih hopens h
    | block => exact Rule.sound_block ih hopens h
    | expression => exact Rule.sound_expression ih h

/-! ## Completeness -/

/-- Kinds after which an operand does not go on. -/
def Kind.endsOperand (k : Kind) : Bool := k != .dot && k != .lParen

/-- Kinds after which an expression does not go on. -/
def Kind.endsExpression (k : Kind) : Bool := k.endsOperand && k != .op && k != .eq

def Kind.startsExpression : Kind → Bool
  | op | ident | number | string | newKw | lParen => true
  | _ => false

/-- Whether a construct in front of a kind has come to its end. -/
def Construct.endsAt : Construct → Kind → Bool
  | expression, k => k.endsExpression
  | _, _ => true

/-- A repeated form is read by a repetition that goes on before each item and nowhere else. Every
item is read if `ok` holds behind it, which is so before an item and at the end. -/
theorem Repeats.of_splits {test : List Kind → Bool} {body : List Kind → List Kind → Prop} {n : Nat}
    {f : Form} {ks ks' : List Kind} (ok : List Kind → Prop)
    (hfirst : ∀ ks ms, Splits n f ks ms → test ks = true)
    (hbody : ∀ ks ms, Splits n f ks ms → ok ms → body ks ms)
    (hok : ∀ ks, test ks = true → ok ks) (h : Splits n (.many f) ks ks')
    (hstop : test ks' = false) (hend : ok ks') : Repeats test body ks ks' ∧ ok ks := by
  refine Form.splits_many_induction (P := fun ks => Repeats test body ks ks' ∧ ok ks) h ?_ ?_
  · exact ⟨.stop hstop, hend⟩
  · intro ks ms hitem ih
    have ht := hfirst ks ms hitem
    exact ⟨.pass ht (hbody ks ms hitem ih.2) ih.1, hok ks ht⟩

namespace Form

variable {n : Nat} {ks ks' : List Kind}

/-! ### What forms start with -/

theorem front_primary (h : Splits n .primary ks ks') :
    (Kind.front ks).startsExpression = true ∧ Kind.front ks ≠ .op := by
  simp only [primary, choice, row, splits_alt, splits_seq, splits_token] at h
  rcases h with rfl | rfl | rfl | ⟨_, rfl, _⟩ | ⟨_, rfl, _⟩
  all_goals exact ⟨rfl, nofun⟩

theorem front_operand (h : Splits n .operand ks ks') :
    (Kind.front ks).startsExpression = true := by
  simp only [operand, row, splits_seq] at h
  obtain ⟨ms, hops, ls, hprimary, _⟩ := h
  rcases splits_many.mp hops with rfl | ⟨_, hop, _⟩
  · exact (front_primary hprimary).1
  · rw [splits_token.mp hop]
    rfl

theorem front_expr (h : Splits n .expr ks ks') : (Kind.front ks).startsExpression = true := by
  cases n with
  | zero => exact absurd h not_splits_nested_zero
  | succ n =>
    obtain ⟨_, hfirst, _⟩ := splits_seq.mp (splits_nested.mp h)
    exact front_operand hfirst

/-- Where the form of a construct starts, the rule that goes down to it finds what it looks for. -/
theorem opens_of_splits {k : Construct} (h : Splits n (nested k) ks ks') : k.Opens ks := by
  cases n with
  | zero => exact absurd h not_splits_nested_zero
  | succ n =>
    rw [splits_nested] at h
    cases k with
    | classDecl =>
      simp only [Construct.form, classDecl, row, splits_seq, splits_one] at h
      obtain ⟨ms, hmods, _, ⟨k, hk, rfl⟩, _⟩ := h
      have hk : k = .classKw ∨ k = .interfaceKw := by simpa using hk
      have hdrop : ks.dropWhile Kind.isModifier = k :: _ :=
        dropWhile_of_splits hmods (by rcases hk with rfl | rfl <;> rfl)
      show Kind.front (ks.dropWhile Kind.isModifier) = .classKw ∨
        Kind.front (ks.dropWhile Kind.isModifier) = .interfaceKw
      rw [hdrop]
      exact hk
    | anonymousType =>
      obtain ⟨_, hopen, _⟩ := splits_seq.mp h
      rw [splits_token.mp hopen]
      rfl
    | block =>
      obtain ⟨_, hopen, _⟩ := splits_seq.mp h
      rw [splits_token.mp hopen]
      rfl
    | expression => trivial

theorem front_selection (h : Splits n selection ks ks') :
    (Rule.selectionKind? (Kind.front ks)).isSome = true := by
  simp only [selection, arguments, row, splits_alt, splits_seq, splits_token] at h
  rcases h with ⟨_, rfl, _⟩ | ⟨_, rfl, _⟩
  all_goals rfl

theorem front_statement (h : Splits n statement ks ks') : Rule.inBraces (Kind.front ks) = true := by
  simp only [statement, variableDecl, choice, row, splits_alt, splits_seq, splits_token] at h
  rcases h with ⟨_, rfl, _⟩ | hblock | rfl | ⟨_, rfl, _⟩ | ⟨_, hexpr, _⟩
  · rfl
  · have hbrace : Kind.front ks = .lBrace := opens_of_splits hblock
    rw [hbrace]
    rfl
  · rfl
  · rfl
  · have hstarts := front_expr hexpr
    revert hstarts
    cases Kind.front ks <;> simp [Kind.startsExpression, Rule.inBraces]

end Form

/-! ### What rules read -/

namespace Rule

section Completeness

open Form (splits_seq splits_token splits_opt splits_alt splits_one splits_many)

variable {n : Nat} {reader : Construct → List Kind → List Kind → Prop} {ks ks' : List Kind}

/-- A list is read to its end if what follows is no comma and lets the last part end. -/
theorem complete_commaList {r : Rule} {f : Form} (ok : Kind → Bool)
    (hr : ∀ ks ks', Splits n f ks ks' → ok (Kind.front ks') = true → r.Reads reader ks ks')
    (hcomma : ok .comma = true) (h : Splits n (.commaList f) ks ks')
    (hstop : Kind.front ks' ≠ .comma) (hend : ok (Kind.front ks') = true) :
    (commaSeparated r).Reads reader ks ks' := by
  obtain ⟨ms, hfirst, hrest⟩ := splits_seq.mp h
  have hloop : (afterCommas r).Reads reader ms ks' ∧
      ok (Kind.front ms) = true := by
    refine Repeats.of_splits (fun ks => ok (Kind.front ks) = true) ?_ ?_ ?_ hrest ?_ hend
    · intro ks ms hitem
      obtain ⟨_, hsep, _⟩ := splits_seq.mp hitem
      rw [splits_token.mp hsep]
      rfl
    · intro ks ms hitem hok
      obtain ⟨ls, hsep, hitem⟩ := splits_seq.mp hitem
      exact ⟨ls, by rw [splits_token.mp hsep]; rfl, hr _ _ hitem hok⟩
    · intro ks ht
      rw [eq_of_beq ht]
      exact hcomma
    · exact beq_false_of_ne hstop
  exact ⟨ms, hr _ _ hfirst hloop.2, hloop.1⟩

/-- Modifiers do not close a group. -/
theorem inBraces_of_modifiers (h : inBraces (Kind.front (ks.dropWhile Kind.isModifier)) = true) :
    inBraces (Kind.front ks) = true := by
  cases ks with
  | nil => exact h
  | cons k ks =>
    cases hk : k.isModifier with
    | false => rwa [List.dropWhile_cons_of_neg (by simp [hk])] at h
    | true =>
      revert hk
      cases k <;> simp [Kind.isModifier, inBraces]

theorem inBraces_of_opens (h : Construct.classDecl.Opens ks) :
    inBraces (Kind.front ks) = true := by
  refine inBraces_of_modifiers ?_
  rcases h with hk | hk
  all_goals
    rw [hk]
    rfl

variable (hreader : ∀ k ks ks', Splits n (.nested k) ks ks' → k.endsAt (Kind.front ks') = true →
  reader k ks ks')
include hreader

theorem complete_arguments (h : Splits n .arguments ks ks') : arguments.Reads reader ks ks' := by
  simp only [Form.arguments, Form.row, splits_seq, splits_token, splits_opt] at h
  obtain ⟨ms, rfl, _, hargs, rfl⟩ := h
  refine ⟨ms, rfl, .rParen :: ks', reads_peek.mpr ?_, reads_expect_cons⟩
  rcases hargs with rfl | hargs
  · rfl
  · obtain ⟨_, hexpr, _⟩ := splits_seq.mp hargs
    have hstarts := Form.front_expr hexpr
    split
    · next hparen =>
      rw [hparen] at hstarts
      cases hstarts
    · exact complete_commaList Kind.endsExpression (hreader .expression) rfl hargs nofun rfl

theorem complete_selection (h : Splits n .selection ks ks') :
    (selection (Kind.front ks)).Reads reader ks ks' := by
  simp only [Form.selection, splits_alt, splits_seq, splits_token] at h
  rcases h with ⟨_, rfl, rfl⟩ | hargs
  · exact ⟨_, rfl, reads_reference.mpr rfl⟩
  · have hreads := complete_arguments hreader hargs
    obtain ⟨_, hopen, _⟩ := splits_seq.mp hargs
    obtain rfl := splits_token.mp hopen
    exact hreads

/-- Reading an operand takes arguments after a type into the `new` before it, so that the rule may
go further than the form: what is left are still selections. -/
theorem complete_primary {ms : List Kind} (h : Splits n .primary ks ms)
    (hselections : Splits n (.many .selection) ms ks')
    (hend : (Kind.front ks').endsOperand = true) :
    ∃ r ms', primary? (Kind.front ks) = some r ∧ r.Reads reader ks ms' ∧
      Splits n (.many .selection) ms' ks' := by
  simp only [Form.primary, Form.choice, Form.row, splits_alt, splits_seq, splits_token,
    splits_opt] at h
  rcases h with rfl | rfl | rfl | ⟨_, rfl, ls, rfl, hargs⟩ | ⟨_, rfl, _, hexpr, rfl⟩
  · exact ⟨_, ms, rfl, rfl, hselections⟩
  · exact ⟨_, ms, rfl, rfl, hselections⟩
  · exact ⟨_, ms, rfl, rfl, hselections⟩
  -- A `new` is told by its keyword; only where it ends is in question.
  · suffices hnew : ∃ ms', (whenAt .lParen arguments).Reads reader ls ms' ∧
        Splits n (.many .selection) ms' ks' by
      obtain ⟨ms', hreads, hleft⟩ := hnew
      exact ⟨_, ms', rfl, ⟨_, rfl, ls, reads_reference.mpr rfl, hreads⟩, hleft⟩
    rcases hargs with rfl | hargs
    · by_cases hparen : Kind.front ls = .lParen
      · -- The first selection can only be the arguments.
        rcases splits_many.mp hselections with rfl | ⟨ms', hfirst, hleft⟩
        · rw [hparen] at hend
          cases hend
        · rcases splits_alt.mp hfirst with hfield | hargs
          · obtain ⟨_, hdot, _⟩ := splits_seq.mp hfield
            rw [splits_token.mp hdot] at hparen
            cases hparen
          · exact ⟨ms', (reads_whenAt_of_eq hparen).mpr (complete_arguments hreader hargs), hleft⟩
      · exact ⟨ls, reads_whenAt_skip hparen, hselections⟩
    · have hreads := complete_arguments hreader hargs
      obtain ⟨_, hopen, _⟩ := splits_seq.mp hargs
      obtain rfl := splits_token.mp hopen
      exact ⟨ms, (reads_whenAt_of_eq rfl).mpr hreads, hselections⟩
  · have hreads := hreader .expression _ _ hexpr rfl
    exact ⟨_, ms, rfl, ⟨_, rfl, _, hreads, reads_expect_cons⟩, hselections⟩

/-- The rule reads as many fields and calls as there are, so the form has to have them all. -/
theorem complete_operand (h : Splits n .operand ks ks')
    (hend : (Kind.front ks').endsOperand = true) : operand.Reads reader ks ks' := by
  simp only [Form.operand, Form.row, splits_seq] at h
  obtain ⟨ms, hops, ls, hprimary, hselections⟩ := h
  have hdrop : ks.dropWhile (· == .op) = ms :=
    Form.dropWhile_of_splits hops (beq_false_of_ne (Form.front_primary hprimary).2)
  obtain ⟨r, ls', hr, hreads, hselections⟩ := complete_primary hreader hprimary hselections hend
  have hsome : (primary? (Kind.front ms)).isSome = true := Option.isSome_iff_exists.mpr ⟨r, hr⟩
  have hfirst : (primaryAt (Kind.front ms)).Reads reader ks ls' := by
    refine ⟨ms, reads_unaryOperators.mpr hdrop, ?_⟩
    rw [hr]
    exact hreads
  refine ⟨ks, rfl, reads_look.mpr ?_⟩
  rw [hdrop, if_pos hsome]
  refine ⟨ls', hfirst, ?_⟩
  refine (Repeats.of_splits (fun _ => True) ?_ ?_ ?_ hselections ?_ trivial).1
  · exact fun _ _ => Form.front_selection
  · exact fun _ _ h _ => complete_selection hreader h
  · exact fun _ _ => trivial
  · revert hend
    cases Kind.front ks' <;> simp [Kind.endsOperand, selectionKind?]

/-- The rule goes on as long as there are operators, so the form has to have them all. -/
theorem complete_expression (h : Splits n .expression ks ks')
    (hend : (Kind.front ks').endsExpression = true) : expression.Reads reader ks ks' := by
  obtain ⟨ms, hfirst, hrest⟩ := splits_seq.mp h
  have hloop : Repeats (fun ks => (binaryKind? (Kind.front ks)).isSome)
      (fun ks => (seq bump operand).Reads reader ks) ms ks' ∧
      (Kind.front ms).endsOperand = true := by
    refine Repeats.of_splits (fun ks => (Kind.front ks).endsOperand = true) ?_ ?_ ?_ hrest ?_ ?_
    · intro ks ms hitem
      obtain ⟨_, hop, _⟩ := splits_seq.mp hitem
      obtain ⟨k, hk, rfl⟩ := splits_one.mp hop
      revert hk
      cases k <;> simp [binaryKind?]
    · intro ks ms hitem hok
      obtain ⟨ls, hop, hoperand⟩ := splits_seq.mp hitem
      obtain ⟨k, hk, rfl⟩ := splits_one.mp hop
      exact ⟨ls, rfl, complete_operand hreader hoperand hok⟩
    · intro ks
      cases Kind.front ks <;> simp [binaryKind?, Kind.endsOperand]
    · revert hend
      cases Kind.front ks' <;> simp [Kind.endsExpression, Kind.endsOperand, binaryKind?]
    · simp only [Kind.endsExpression, Bool.and_eq_true] at hend
      exact hend.1.1
  exact ⟨ks, rfl, ms, complete_operand hreader hfirst hloop.2, hloop.1⟩

theorem complete_optionalType (h : Splits n (.opt .typeTag) ks ks')
    (hend : Kind.front ks' ≠ .colon) : optionalType.Reads reader ks ks' := by
  simp only [Form.typeTag, splits_opt, splits_alt, splits_seq, splits_token] at h
  rcases h with rfl | ⟨ms, rfl, htype⟩
  · exact reads_whenAt_skip hend
  · refine (reads_whenAt_of_eq rfl).mpr ⟨ms, rfl, reads_peek.mpr ?_⟩
    rcases htype with rfl | hanonymous
    · exact reads_reference.mpr rfl
    · have hbrace : Kind.front ms = .lBrace := Form.opens_of_splits hanonymous
      rw [hbrace]
      exact hreader .anonymousType _ _ hanonymous rfl

theorem complete_initialiser (h : Splits n (.opt .initialiser) ks ks')
    (hend : (Kind.front ks').endsExpression = true) : initialiser.Reads reader ks ks' := by
  simp only [Form.initialiser, splits_opt, splits_seq, splits_token] at h
  rcases h with rfl | ⟨ms, rfl, hexpr⟩
  · refine reads_whenAt_skip fun heq => ?_
    rw [heq] at hend
    cases hend
  · exact (reads_whenAt_of_eq rfl).mpr ⟨ms, rfl, hreader .expression _ _ hexpr hend⟩

/-- A type and an initial value, as they stand in variables and parameters. -/
theorem complete_typed {ms : List Kind} (htype : Splits n (.opt .typeTag) ks ms)
    (hvalue : Splits n (.opt .initialiser) ms ks') (hend : (Kind.front ks').endsExpression = true)
    (hcolon : Kind.front ks' ≠ .colon) :
    optionalType.Reads reader ks ms ∧ initialiser.Reads reader ms ks' := by
  refine ⟨complete_optionalType hreader htype ?_, complete_initialiser hreader hvalue hend⟩
  rcases splits_opt.mp hvalue with rfl | hvalue
  · exact hcolon
  · obtain ⟨_, heq, _⟩ := splits_seq.mp hvalue
    rw [splits_token.mp heq]
    nofun

theorem complete_varDecl (h : Splits n (.seq .modifiers .variableDecl) ks ks') :
    varDecl.Reads reader ks ks' := by
  simp only [Form.variableDecl, Form.row, splits_seq, splits_token] at h
  obtain ⟨_, hmods, _, rfl, ls, rfl, ms, htype, _, hvalue, rfl⟩ := h
  have hdrop := Form.dropWhile_of_splits hmods rfl
  obtain ⟨htype, hvalue⟩ := complete_typed hreader htype hvalue rfl nofun
  exact ⟨_, reads_modifiers.mpr hdrop, _, rfl, ls, reads_declaredName.mpr rfl, ms, htype,
    _, hvalue, reads_expect_cons⟩

theorem complete_parameter (h : Splits n .parameter ks ks')
    (hend : Kind.front ks' = .comma ∨ Kind.front ks' = .rParen) :
    parameter.Reads reader ks ks' := by
  simp only [Form.parameter, Form.row, splits_seq, splits_token] at h
  obtain ⟨ls, rfl, ms, htype, hvalue⟩ := h
  obtain ⟨htype, hvalue⟩ := complete_typed hreader htype hvalue
    (by rcases hend with h | h <;> rw [h] <;> rfl)
    (by rcases hend with h | h <;> rw [h] <;> nofun)
  exact ⟨ls, reads_declaredName.mpr rfl, ms, htype, hvalue⟩

/-- A comma after the last parameter is told from the others by what follows it. -/
theorem complete_moreParameters (h : Splits n (.many (.seq (.token .comma) .parameter)) ks ks')
    (hstop : (Kind.front ks' == .comma && Kind.front ks'.tail == .ident) = false)
    (hend : Kind.front ks' = .comma ∨ Kind.front ks' = .rParen) :
    moreParameters.Reads reader ks ks' ∧ (Kind.front ks = .comma ∨ Kind.front ks = .rParen) := by
  refine Repeats.of_splits (fun ks => Kind.front ks = .comma ∨ Kind.front ks = .rParen)
    ?_ ?_ ?_ h hstop hend
  · intro ks ms hitem
    obtain ⟨_, hsep, hparam⟩ := splits_seq.mp hitem
    obtain ⟨_, hident, _⟩ := splits_seq.mp hparam
    rw [splits_token.mp hsep, splits_token.mp hident]
    rfl
  · intro ks ms hitem hok
    obtain ⟨ls, hsep, hparam⟩ := splits_seq.mp hitem
    exact ⟨ls, by rw [splits_token.mp hsep]; rfl, complete_parameter hreader hparam hok⟩
  · intro ks ht
    simp only [Bool.and_eq_true, beq_iff_eq] at ht
    exact .inl ht.1

/-- The rule looks behind a comma for another parameter, and takes one before the closing
parenthesis as the last comma. -/
theorem complete_parameters
    (h : Splits n (.opt (.seq (.commaList .parameter) (.opt (.token .comma)))) ks
      (.rParen :: ks')) :
    parameters.Reads reader ks (.rParen :: ks') := by
  simp only [Form.commaList, splits_opt, splits_seq, splits_token] at h
  rcases h with rfl | ⟨ms, ⟨ls, hfirst, hrest⟩, hcomma⟩
  · exact reads_whenAt_skip nofun
  · have hident : Kind.front ks = .ident := by
      obtain ⟨_, hident, _⟩ := splits_seq.mp hfirst
      rw [splits_token.mp hident]
      rfl
    refine (reads_whenAt_of_eq hident).mpr ?_
    rcases hcomma with rfl | rfl
    · obtain ⟨hmore, hend⟩ := complete_moreParameters hreader hrest rfl (.inr rfl)
      exact ⟨ls, complete_parameter hreader hfirst hend, _, hmore, reads_whenAt_skip nofun⟩
    · obtain ⟨hmore, hend⟩ := complete_moreParameters hreader hrest rfl (.inl rfl)
      exact ⟨ls, complete_parameter hreader hfirst hend, _, hmore, (reads_whenAt_of_eq rfl).mpr rfl⟩

theorem complete_parameterList (h : Splits n .parameterList ks ks') :
    parameterList.Reads reader ks ks' := by
  rw [Form.parameterList] at h
  simp only [Form.row, splits_seq, splits_token] at h
  obtain ⟨ms, rfl, _, hparams, rfl⟩ := h
  rw [parameterList, reads_peek]
  exact ⟨ms, rfl, _, complete_parameters hreader hparams, reads_expect_cons⟩

theorem complete_methodDecl (h : Splits n .methodDecl ks ks') : methodDecl.Reads reader ks ks' := by
  simp only [Form.methodDecl, Form.row, splits_alt, splits_seq, splits_token] at h
  obtain ⟨_, hmods, _, rfl, ls, rfl, _, hparams, ms, htype, hbody⟩ := h
  have hdrop := Form.dropWhile_of_splits hmods rfl
  have hend : Kind.front ms = .lBrace ∨ Kind.front ms = .semicolon := by
    rcases hbody with hblock | rfl
    · exact .inl (Form.opens_of_splits hblock)
    · exact .inr rfl
  refine ⟨_, reads_modifiers.mpr hdrop, _, rfl, ls, reads_declaredName.mpr rfl,
    _, complete_parameterList hreader hparams, ms, complete_optionalType hreader htype ?_, ?_⟩
  · rcases hend with h | h
    all_goals
      rw [h]
      nofun
  · refine reads_peek.mpr ?_
    rcases hbody with hblock | rfl
    · have hbrace : Kind.front ms = .lBrace := Form.opens_of_splits hblock
      rw [hbrace]
      exact hreader .block _ _ hblock rfl
    · exact reads_expect_cons

/-- What stands behind the modifiers of a member tells its kind. -/
theorem complete_member (h : Splits n .member ks ks') :
    inBraces (Kind.front ks) = true ∧ member.Reads reader ks ks' := by
  simp only [Form.member, Form.choice, splits_alt] at h
  rw [member, reads_look]
  rcases h with hclass | hmethod | hvar
  · have hopens : Construct.classDecl.Opens ks := Form.opens_of_splits hclass
    have hreads := hreader .classDecl _ _ hclass rfl
    refine ⟨inBraces_of_opens hopens, ?_⟩
    rcases hopens with hk | hk
    all_goals
      rw [hk]
      exact hreads
  · have hkeyword := Form.front_behind_modifiers hmethod rfl
    refine ⟨inBraces_of_modifiers (hkeyword ▸ rfl), ?_⟩
    rw [hkeyword]
    exact complete_methodDecl hreader hmethod
  · have hkeyword := Form.front_behind_modifiers hvar rfl
    refine ⟨inBraces_of_modifiers (hkeyword ▸ rfl), ?_⟩
    rw [hkeyword]
    exact complete_varDecl hreader hvar

theorem complete_memberList (h : Splits n .memberList ks ks') :
    memberList.Reads reader ks ks' := by
  simp only [Form.memberList, Form.row, splits_seq, splits_token] at h
  obtain ⟨ms, rfl, _, hmembers, rfl⟩ := h
  refine ⟨ms, rfl, _, ?_, reads_expect_cons⟩
  refine (Repeats.of_splits (fun _ => True) ?_ ?_ ?_ hmembers rfl trivial).1
  · exact fun _ _ h => (complete_member hreader h).1
  · exact fun _ _ h _ => (complete_member hreader h).2
  · exact fun _ _ => trivial

theorem complete_classDecl (h : Splits n .classDecl ks ks') : classDecl.Reads reader ks ks' := by
  simp only [Form.classDecl, Form.row, splits_opt, splits_seq, splits_token, splits_one] at h
  obtain ⟨_, hmods, _, ⟨k, hk, rfl⟩, ls, rfl, ms, hextends, ms', himplements, hbody⟩ := h
  have hdrop : ks.dropWhile Kind.isModifier = k :: .ident :: ls := by
    refine Form.dropWhile_of_splits hmods ?_
    revert hk
    cases k <;> simp [Kind.isModifier]
  -- What is left out is told by what comes next, and at last that is the brace.
  have hbrace : Kind.front ms' = .lBrace := by
    obtain ⟨_, hopen, _⟩ := splits_seq.mp hbody
    rw [splits_token.mp hopen]
    rfl
  refine ⟨_, reads_modifiers.mpr hdrop, _, rfl, ls, reads_declaredName.mpr rfl, ms, ?_, ms', ?_, ?_⟩
  · rcases hextends with rfl | ⟨_, rfl, rfl⟩
    · refine reads_whenAt_skip fun hk => ?_
      rcases himplements with rfl | ⟨_, rfl, _⟩
      · rw [hbrace] at hk
        cases hk
      · cases hk
    · exact (reads_whenAt_of_eq rfl).mpr ⟨_, rfl, reads_reference.mpr rfl⟩
  · rcases himplements with rfl | ⟨_, rfl, htypes⟩
    · refine reads_whenAt_skip fun hk => ?_
      rw [hbrace] at hk
      cases hk
    · refine (reads_whenAt_of_eq rfl).mpr ⟨_, rfl, ?_⟩
      refine complete_commaList (fun _ => true) ?_ rfl htypes ?_ rfl
      · exact fun _ _ h _ => reads_reference.mpr (splits_token.mp h)
      · rw [hbrace]
        decide
  · refine reads_peek.mpr ?_
    rw [hbrace]
    exact complete_memberList hreader hbody

theorem complete_statement (h : Splits n .statement ks ks') : statement.Reads reader ks ks' := by
  simp only [Form.statement, Form.choice, Form.row, splits_alt, splits_opt, splits_seq,
    splits_token] at h
  rw [statement, reads_peek]
  rcases h with hvar | hblock | rfl | ⟨ms, rfl, _, hvalue, rfl⟩ | ⟨_, hexpr, rfl⟩
  · have hreads := complete_varDecl hreader (splits_seq.mpr ⟨ks, Form.splits_many_nil ks, hvar⟩)
    obtain ⟨_, hkeyword, _⟩ := splits_seq.mp hvar
    obtain rfl := splits_token.mp hkeyword
    exact hreads
  · have hbrace : Kind.front ks = .lBrace := Form.opens_of_splits hblock
    rw [hbrace]
    exact hreader .block _ _ hblock rfl
  · rfl
  · refine ⟨ms, rfl, _, reads_peek.mpr ?_, reads_expect_cons⟩
    rcases hvalue with rfl | hexpr
    · rfl
    · have hstarts := Form.front_expr hexpr
      split
      · next hsemi =>
        rw [hsemi] at hstarts
        cases hstarts
      · exact hreader .expression _ _ hexpr rfl
  · have hstarts := Form.front_expr hexpr
    have hreads : exprStmt.Reads reader ks ks' :=
      ⟨_, hreader .expression _ _ hexpr rfl, reads_expect_cons⟩
    -- No other statement starts like an expression.
    revert hstarts
    cases Kind.front ks
    all_goals first | exact fun _ => hreads | exact nofun

theorem complete_block (h : Splits n .block ks ks') : block.Reads reader ks ks' := by
  simp only [Form.block, Form.row, splits_seq, splits_token] at h
  obtain ⟨ms, rfl, _, hstatements, rfl⟩ := h
  refine ⟨ms, rfl, _, ?_, reads_expect_cons⟩
  refine (Repeats.of_splits (fun _ => True) ?_ ?_ ?_ hstatements rfl trivial).1
  · exact fun _ _ => Form.front_statement
  · exact fun _ _ h _ => complete_statement hreader h
  · exact fun _ _ => trivial

theorem complete_topLevel (h : Splits n (.nested .classDecl) ks ks') :
    (Kind.front ks != .eof) = true ∧ topLevel.Reads reader ks ks' := by
  have hopens : Construct.classDecl.Opens ks := Form.opens_of_splits h
  have hreads := hreader .classDecl _ _ h rfl
  refine ⟨(Bool.and_eq_true_iff.mp (inBraces_of_opens hopens)).2, ?_⟩
  rw [topLevel, reads_look]
  rcases hopens with hk | hk
  all_goals
    rw [hk]
    exact hreads

theorem complete_file (h : Splits n .file ks []) : file.Reads reader ks [] := by
  refine ⟨[], ?_, rfl⟩
  refine (Repeats.of_splits (fun _ => True) ?_ ?_ ?_ h rfl trivial).1
  · exact fun _ _ h => (complete_topLevel hreader h).1
  · exact fun _ _ h _ => (complete_topLevel hreader h).2
  · exact fun _ _ => trivial

end Completeness

end Rule

/-- What has the form of a construct is read as the construct, where it has come to its end. -/
theorem Construct.complete (n : Nat) (k : Construct) (ks ks' : List Kind)
    (h : Splits n (.nested k) ks ks') (hend : k.endsAt (Kind.front ks') = true) :
    Construct.Reads n k ks ks' := by
  induction n generalizing k ks ks' with
  | zero => exact Form.not_splits_nested_zero h
  | succ n ih =>
    rw [Form.splits_nested] at h
    cases k with
    | classDecl => exact Rule.complete_classDecl ih h
    | anonymousType => exact Rule.complete_memberList ih h
    | block => exact Rule.complete_block ih h
    | expression => exact Rule.complete_expression ih h hend

/-! ## Whole texts -/

/-- Both readings of the grammar agree on files at every limit on the nesting. -/
theorem reads_file_iff (n : Nat) (ks : List Kind) :
    Rule.file.Reads (Construct.Reads n) ks [] ↔ Form.Derives n .file ks := by
  constructor
  · intro h
    obtain ⟨w, rfl, hw⟩ := Rule.sound_file (Construct.sound n) h
    rwa [List.append_nil]
  · intro h
    exact Rule.complete_file (Construct.complete n) ⟨ks, (List.append_nil ks).symm, h⟩

/-- A file is parsed without a report exactly if its significant tokens have the form of a file. -/
theorem problems_run_file_eq_nil_iff (n : Nat) {ts : List Token} (hts : ∀ t ∈ ts, t.kind ≠ .eof) :
    (Rule.file.run (Construct.parse n) ⟨0, ts⟩).problems = [] ↔
      Form.Derives n .file (Token.kinds ts) := by
  have hd := Construct.lively n
  have hreads := Rule.reads_iff (Construct.reads_iff n) Rule.file (Rule.productive_file hd)
    ⟨0, ts⟩ []
  have hleft : (Rule.file.run (Construct.parse n) ⟨0, ts⟩).cursor.kinds = [] := by
    rw [Cursor.kinds, Rule.rest_run_file hd hts]
    rfl
  rw [← reads_file_iff]
  exact ⟨fun h => hreads.mpr ⟨h, hleft⟩, fun h => (hreads.mp h).1⟩

theorem problems_parseTokens_eq_nil_iff {ts : List Token} (hts : ∀ t ∈ ts, t.kind ≠ .eof) :
    (parseTokens ts).problems = [] ↔ Form.Derives maxDepth .file (Token.kinds ts) :=
  problems_run_file_eq_nil_iff maxDepth hts

/-- A text has no problems exactly if its significant tokens have the form of a file in which no
branch passes through more than `maxDepth` constructs. So it does not depend on blanks and comments
whether there are problems. -/
theorem problems_eq_nil_iff_derives (text : String) :
    ((parse text).problems = [] ↔
      Form.Derives maxDepth .file (Token.kinds (Token.scan text))) ∧
    ∀ other : String, Token.kinds (Token.scan other) = Token.kinds (Token.scan text) →
      ((parse other).problems = [] ↔ (parse text).problems = []) := by
  have hiff : ∀ text : String, (parse text).problems = [] ↔
      Form.Derives maxDepth .file (Token.kinds (Token.scan text)) :=
    fun _ => problems_parseTokens_eq_nil_iff fun _ => Token.kind_ne_eof_of_mem_scan
  refine ⟨hiff text, fun other hkinds => ?_⟩
  rw [hiff other, hiff text, hkinds]

theorem problems_eq_nil_iff_of_comment :
    (parse "class A{} // empty").problems = [] ↔ (parse "class A { }").problems = [] :=
  (problems_eq_nil_iff_derives "class A { }").2 "class A{} // empty" (by decide +kernel)

end ClassNav
