import ClassNav.Proofs.Grammar.Cursor

/-!
# Every repetition makes progress

Repetitions are bounded by the number of tokens left. The bound is never what ends them: each pass
takes a token, so a repetition ends because its test fails.

* `Rule.Eager` rules take a token whenever one is left.
* `Rule.Productive` says that every pass of every repetition in a rule takes a token. For such a
  rule, `Rule.run_loop` and `Outcome.wrapAll_of_wrap` unfold a repetition by one pass, without
  the bound.
* `Construct.productive` and `Rule.productive_file`: all rules of the language are productive.
-/

namespace ClassNav

/-! ## Repetition without the bound -/

namespace Cursor

variable {test : Cursor → Bool} {body : Cursor → Outcome}

theorem repeatWhile_of_stop {c : Cursor} (h : test c = false) (n : Nat) :
    repeatWhile test body n c = c.stay := by
  cases n with
  | zero => rfl
  | succ n => simp [repeatWhile, h]

/-- If every pass takes a token, any two bounds that reach the end of the text do the same. -/
theorem repeatWhile_bound
    (htakes : ∀ c, test c = true → (body c).cursor.rest.length < c.rest.length)
    {n m : Nat} {c : Cursor} (hn : c.rest.length ≤ n) (hm : c.rest.length ≤ m) :
    repeatWhile test body n c = repeatWhile test body m c := by
  induction n generalizing m c with
  | zero =>
    have hstop : test c = false := by
      by_contra ht
      have hlt := htakes c (by simpa using ht)
      omega
    rw [repeatWhile_of_stop hstop, repeatWhile_of_stop hstop]
  | succ n ih =>
    cases ht : test c with
    | false => rw [repeatWhile_of_stop ht, repeatWhile_of_stop ht]
    | true =>
      have hlt := htakes c ht
      obtain ⟨m, rfl⟩ : ∃ m', m = m' + 1 := ⟨m - 1, by omega⟩
      have hpass := ih (c := (body c).cursor) (m := m) (by omega) (by omega)
      simp [repeatWhile, ht, Outcome.andThen, hpass]

/-- Where each pass takes a token, the bound of a repetition is never reached. -/
theorem repeatWhile_eq
    (htakes : ∀ c, test c = true → (body c).cursor.rest.length < c.rest.length) (c : Cursor) :
    repeatWhile test body c.rest.length c =
      if test c then (body c).andThen fun c' => repeatWhile test body c'.rest.length c'
      else c.stay := by
  rw [repeatWhile_bound htakes (m := c.rest.length + 1) (Nat.le_refl _) (Nat.le_succ _)]
  cases ht : test c with
  | false => simp [repeatWhile, ht]
  | true =>
    have hlt := htakes c ht
    have hpass := repeatWhile_bound htakes (c := (body c).cursor) (n := c.rest.length)
      (by omega) (Nat.le_refl _)
    simp [repeatWhile, ht, Outcome.andThen, hpass]

end Cursor

namespace Outcome

variable {wrap : Kind → Option Kind} {next : Kind → Cursor → Outcome}

theorem wrapWhile_of_stop {o : Outcome} (h : wrap o.cursor.current = none) (n : Nat) :
    wrapWhile wrap next n o = o := by
  cases n with
  | zero => rfl
  | succ n => simp [wrapWhile, h]

/-- Any bound from the number of tokens left upwards will do. -/
theorem wrapWhile_bound
    (htakes : ∀ c k, wrap c.current = some k →
      (next c.current c).cursor.rest.length < c.rest.length)
    {n m : Nat} {o : Outcome} (hn : o.cursor.rest.length ≤ n) (hm : o.cursor.rest.length ≤ m) :
    wrapWhile wrap next n o = wrapWhile wrap next m o := by
  induction n generalizing m o with
  | zero =>
    have hstop : wrap o.cursor.current = none := by
      by_contra hw
      obtain ⟨k, hk⟩ := Option.ne_none_iff_exists'.mp hw
      have hlt := htakes o.cursor k hk
      omega
    rw [wrapWhile_of_stop hstop, wrapWhile_of_stop hstop]
  | succ n ih =>
    cases hw : wrap o.cursor.current with
    | none => rw [wrapWhile_of_stop hw, wrapWhile_of_stop hw]
    | some k =>
      have hlt := htakes o.cursor k hw
      obtain ⟨m, rfl⟩ : ∃ m', m = m' + 1 := ⟨m - 1, by omega⟩
      simp only [wrapWhile, hw]
      exact ih (by simp only [enclose, andThen]; omega) (by simp only [enclose, andThen]; omega)

/-- Wraps as long as there is something to wrap. -/
def wrapAll (wrap : Kind → Option Kind) (next : Kind → Cursor → Outcome) (o : Outcome) : Outcome :=
  wrapWhile wrap next o.cursor.rest.length o

theorem wrapAll_of_stop {o : Outcome} (h : wrap o.cursor.current = none) :
    wrapAll wrap next o = o := wrapWhile_of_stop h _

/-- Where each pass takes a token, wrapping goes on behind the first pass as it would from there. -/
theorem wrapAll_of_wrap
    (htakes : ∀ c k, wrap c.current = some k →
      (next c.current c).cursor.rest.length < c.rest.length)
    {o : Outcome} {k : Kind} (h : wrap o.cursor.current = some k) :
    wrapAll wrap next o =
      wrapAll wrap next ((o.andThen (next o.cursor.current)).enclose k) := by
  have hlt := htakes o.cursor k h
  unfold wrapAll
  rw [wrapWhile_bound htakes (m := o.cursor.rest.length + 1) (Nat.le_refl _) (Nat.le_succ _)]
  simp only [wrapWhile, h]
  exact wrapWhile_bound htakes (by simp only [enclose, andThen]; omega) (Nat.le_refl _)

theorem wrapWhile_rest_length_le (hnext : ∀ k c, (next k c).Covers c) (n : Nat) (o : Outcome) :
    (wrapWhile wrap next n o).cursor.rest.length ≤ o.cursor.rest.length := by
  induction n generalizing o with
  | zero => exact Nat.le_refl _
  | succ n ih =>
    unfold wrapWhile
    split
    · exact Nat.le_refl _
    · exact Nat.le_trans (ih _) (hnext _ _).rest_length_le

end Outcome

/-! ## Rules that take a token -/

namespace Rule

variable {deeper : Construct → Cursor → Outcome}

/-- A rule takes a token at a cursor. -/
def Takes (deeper : Construct → Cursor → Outcome) (r : Rule) (c : Cursor) : Prop :=
  (r.run deeper c).cursor.rest.length < c.rest.length

/-- A rule takes a token wherever one is left. -/
def Eager (deeper : Construct → Cursor → Outcome) (r : Rule) : Prop :=
  ∀ c, c.rest ≠ [] → r.Takes deeper c

/-- A rule takes a token at a cursor unless it reports something there. -/
def TakesIfClean (deeper : Construct → Cursor → Outcome) (r : Rule) (c : Cursor) : Prop :=
  (r.run deeper c).problems = [] → r.Takes deeper c

/-- Only the end of the input keeps a token from being taken. -/
theorem eager_bump : Eager deeper bump := by
  intro c hc
  have hpos : 0 < c.rest.length := List.length_pos_iff.mpr hc
  show (c.rest.drop (c.triviaCount + 1)).length < c.rest.length
  rw [List.length_drop]
  omega

theorem Takes.look {skip : Kind → Bool} {next : Kind → Rule} {c : Cursor}
    (h : (next (c.peek skip)).Takes deeper c) : (look skip next).Takes deeper c := h

theorem TakesIfClean.look {skip : Kind → Bool} {next : Kind → Rule} {c : Cursor}
    (h : ∀ k, c.peek skip = k → (next k).TakesIfClean deeper c) :
    (look skip next).TakesIfClean deeper c :=
  h _ rfl

section

variable (hdeeper : ∀ k c, (deeper k c).Covers c)
include hdeeper

theorem run_rest_length_le (r : Rule) (c : Cursor) :
    (r.run deeper c).cursor.rest.length ≤ c.rest.length :=
  (run_covers hdeeper r c).rest_length_le

theorem Takes.seq_left {a : Rule} {c : Cursor} (h : a.Takes deeper c) (b : Rule) :
    (seq a b).Takes deeper c :=
  Nat.lt_of_le_of_lt (run_rest_length_le hdeeper b _) h

theorem Takes.seq_right {a b : Rule} {c : Cursor} (h : b.Takes deeper (a.run deeper c).cursor) :
    (seq a b).Takes deeper c :=
  Nat.lt_of_lt_of_le h (run_rest_length_le hdeeper a c)

theorem Takes.chain {first : Rule} {c : Cursor} (h : first.Takes deeper c)
    (wrap : Kind → Option Kind) (next : Kind → Rule) : (chain first wrap next).Takes deeper c :=
  Nat.lt_of_le_of_lt
    (Outcome.wrapWhile_rest_length_le (fun k => run_covers hdeeper (next k)) _ _) h

theorem Eager.seq_left {a : Rule} (ha : a.Eager deeper) (b : Rule) : (seq a b).Eager deeper :=
  fun c hc => (ha c hc).seq_left hdeeper b

theorem Eager.seq_right (a : Rule) {b : Rule} (hb : b.Eager deeper) :
    (seq a b).Eager deeper := by
  intro c hc
  by_cases hrest : (a.run deeper c).cursor.rest = []
  · have ha : a.Takes deeper c := by
      have hpos : 0 < c.rest.length := List.length_pos_iff.mpr hc
      simpa [Takes, hrest] using hpos
    exact ha.seq_left hdeeper b
  · exact (hb _ hrest).seq_right hdeeper

theorem Eager.node (k : Kind) {body : Rule} (h : body.Eager deeper) :
    (node k body).Eager deeper :=
  -- A node takes what a gap and then its body take.
  h.seq_right hdeeper gap

theorem eager_reject (f : Fault) : (reject f).Eager deeper :=
  (eager_bump.node hdeeper .errorNode).seq_right hdeeper (report f)

/-- A body that takes nothing makes room for a refused token. -/
theorem eager_progress (body : Rule) (f : Fault) : (progress body f).Eager deeper := by
  intro c hc
  unfold Takes
  simp only [run]
  split
  · next heq =>
    have hrest : (body.run deeper c).cursor.rest ≠ [] := by
      intro hnil
      rw [hnil] at heq
      exact hc (List.length_eq_zero_iff.mp heq.symm)
    have hlt := eager_reject hdeeper f (body.run deeper c).cursor hrest
    exact Nat.lt_of_lt_of_eq hlt heq
  · next hne => exact Nat.lt_of_le_of_ne (run_rest_length_le hdeeper body c) hne

end

/-! ## Productive rules -/

/-- Every pass of every repetition takes a token. In `progress`, a body that reports nothing takes
one by itself. -/
def Productive (deeper : Construct → Cursor → Outcome) : Rule → Prop
  | seq a b => a.Productive deeper ∧ b.Productive deeper
  | node _ body => body.Productive deeper
  | look _ next => ∀ k, (next k).Productive deeper
  | loop test body => body.Productive deeper ∧
      ∀ c, test c.current c.second = true → body.Takes deeper c
  | chain first wrap next => first.Productive deeper ∧
      wrap .eof = none ∧ ∀ k, (next k).Productive deeper ∧ (next k).Eager deeper
  | progress body _ => body.Productive deeper ∧
      ∀ c, body.TakesIfClean deeper c
  | _ => True

/-- A repetition is one pass and the repetition again, as long as the test holds. -/
theorem run_loop {test : Kind → Kind → Bool} {body : Rule}
    (h : (loop test body).Productive deeper) (c : Cursor) :
    (loop test body).run deeper c =
      if test c.current c.second then (body.run deeper c).andThen ((loop test body).run deeper)
      else c.stay :=
  Cursor.repeatWhile_eq h.2 c

/-- A repetition ends because its test fails. -/
theorem test_run_loop {test : Kind → Kind → Bool} {body : Rule}
    (h : (loop test body).Productive deeper) (c : Cursor) :
    test ((loop test body).run deeper c).cursor.current
      ((loop test body).run deeper c).cursor.second = false := by
  induction hn : c.rest.length using Nat.strong_induction_on generalizing c with
  | _ n ih =>
    rw [run_loop h c]
    split
    · next ht => exact ih _ (hn ▸ h.2 c ht) _ rfl
    · next ht => exact Bool.not_eq_true _ ▸ ht

/-- A repetition ends where its test fails, and not because of its bound. -/
theorem test_run_manyWhile {test : Kind → Bool} {body : Rule}
    (h : (manyWhile test body).Productive deeper) (c : Cursor) :
    test ((manyWhile test body).run deeper c).cursor.current = false :=
  test_run_loop h c

theorem Productive.wrap_takes {first : Rule} {wrap : Kind → Option Kind} {next : Kind → Rule}
    (h : (chain first wrap next).Productive deeper) (c : Cursor) (k : Kind)
    (hk : wrap c.current = some k) : (next c.current).Takes deeper c := by
  refine (h.2.2 _).2 c (Cursor.rest_ne_nil fun heof => ?_)
  rw [heof, h.2.1] at hk
  cases hk

/-- A repetition that stops at the end of the input is productive if its body is eager. -/
theorem productive_manyWhile {test : Kind → Bool} {body : Rule} (heof : test .eof = false)
    (hbody : body.Productive deeper) (heager : body.Eager deeper) :
    (manyWhile test body).Productive deeper := by
  refine ⟨hbody, fun c ht => heager c (Cursor.rest_ne_nil fun h => ?_)⟩
  simp [h, heof] at ht

theorem productive_whenAt (k : Kind) {r : Rule} (h : r.Productive deeper) :
    (whenAt k r).Productive deeper := by
  intro k'
  beta_reduce
  split
  · exact h
  · trivial

theorem productive_expect (k : Kind) (f : Fault) : (expect k f).Productive deeper := by
  intro k'
  beta_reduce
  split <;> trivial

/-! ## The rules of the language -/

/-- What the rules of the language rely on one level deeper. -/
structure Lively (deeper : Construct → Cursor → Outcome) : Prop where
  covers : ∀ k c, (deeper k c).Covers c
  classDecl : ∀ c, c.peek Kind.isModifier = .classKw ∨ c.peek Kind.isModifier = .interfaceKw →
    (nest .classDecl).Takes deeper c
  block : ∀ c, c.rest ≠ [] → (nest .block).TakesIfClean deeper c
  expression : ∀ c, (nest .expression).TakesIfClean deeper c

theorem productive_declaredName (f : Fault) : (declaredName f).Productive deeper := by
  intro k
  beta_reduce
  split <;> trivial

theorem productive_reference (f : Fault) : (reference f).Productive deeper := by
  intro k
  beta_reduce
  split <;> trivial

theorem productive_modifiers : modifiers.Productive deeper :=
  productive_manyWhile rfl trivial eager_bump

theorem productive_unaryOperators : unaryOperators.Productive deeper :=
  productive_manyWhile rfl trivial eager_bump

theorem productive_optionalType : optionalType.Productive deeper := by
  refine productive_whenAt _ ⟨trivial, fun k => ?_⟩
  beta_reduce
  split
  · trivial
  · exact productive_reference _

theorem productive_initialiser : initialiser.Productive deeper :=
  productive_whenAt _ ⟨trivial, trivial⟩

theorem productive_varDecl : varDecl.Productive deeper :=
  ⟨productive_modifiers, trivial, productive_declaredName _, productive_optionalType,
    productive_initialiser, productive_expect _ _⟩

theorem productive_parameter : parameter.Productive deeper :=
  ⟨productive_declaredName _, productive_optionalType, productive_initialiser⟩

theorem productive_statement : statement.Productive deeper := by
  intro k
  beta_reduce
  split
  · exact productive_varDecl
  · trivial
  · trivial
  · refine ⟨trivial, fun k => ?_, productive_expect _ _⟩
    beta_reduce
    split <;> trivial
  · trivial
  · trivial
  · exact ⟨trivial, productive_expect _ _⟩

section

variable (hd : Lively deeper)
include hd

/-- Whatever stands in front is taken as the opening parenthesis of the arguments. -/
theorem eager_arguments : arguments.Eager deeper :=
  (eager_bump.seq_left hd.covers _).node hd.covers _

theorem productive_afterCommas {r : Rule} (h : r.Productive deeper) :
    (afterCommas r).Productive deeper :=
  productive_manyWhile rfl ⟨trivial, h⟩ (eager_bump.seq_left hd.covers _)

theorem productive_argumentRow : argumentRow.Productive deeper := by
  intro k
  beta_reduce
  split
  · trivial
  · exact ⟨trivial, productive_afterCommas hd trivial⟩

theorem productive_arguments : arguments.Productive deeper :=
  ⟨trivial, productive_argumentRow hd, productive_expect _ _⟩

/-- A rule that starts an expression takes a token, and its repetitions make progress. -/
theorem primary?_eq_some {k : Kind} {r : Rule} (h : primary? k = some r) :
    r.Eager deeper ∧ r.Productive deeper ∧ k ≠ .eof := by
  have hbump : bump.Eager deeper := eager_bump
  unfold primary? at h
  split at h
  case h_1 =>
    cases h
    exact ⟨hbump.node hd.covers _, trivial, nofun⟩
  case h_2 =>
    cases h
    exact ⟨hbump.node hd.covers _, trivial, nofun⟩
  case h_3 =>
    cases h
    exact ⟨hbump.node hd.covers _, trivial, nofun⟩
  case h_4 =>
    cases h
    exact ⟨(hbump.seq_left hd.covers _).node hd.covers _,
      ⟨trivial, productive_reference _, productive_whenAt _ (productive_arguments hd)⟩, nofun⟩
  case h_5 =>
    cases h
    exact ⟨(hbump.seq_left hd.covers _).node hd.covers _,
      ⟨trivial, trivial, productive_expect _ _⟩, nofun⟩
  case h_6 => cases h

theorem productive_primaryAt (k : Kind) : (primaryAt k).Productive deeper := by
  refine ⟨productive_unaryOperators, ?_⟩
  cases hr : primary? k with
  | some r => exact (primary?_eq_some hd hr).2.1
  | none =>
    rw [Option.getD_none]
    unfold notAnExpression
    split <;> trivial

/-- Each pass over fields and calls takes the dot or the parenthesis that started it. -/
theorem productive_operand : operand.Productive deeper := by
  refine ⟨trivial, fun k => ?_⟩
  beta_reduce
  split
  · refine ⟨productive_primaryAt hd k, rfl, fun k => ?_⟩
    unfold selection
    split
    · exact ⟨⟨trivial, productive_reference _⟩, eager_bump.seq_left hd.covers _⟩
    · exact ⟨productive_arguments hd, eager_arguments hd⟩
  · exact productive_primaryAt hd k

/-- Each pass takes an operator. -/
theorem productive_expression : expression.Productive deeper :=
  ⟨trivial, productive_operand hd, rfl, fun _ =>
    ⟨⟨trivial, productive_operand hd⟩, eager_bump.seq_left hd.covers _⟩⟩

theorem eager_varDecl : varDecl.Eager deeper :=
  ((eager_bump.seq_left hd.covers _).seq_right hd.covers _).node hd.covers _

theorem productive_moreParameters : moreParameters.Productive deeper := by
  refine ⟨⟨trivial, productive_parameter⟩, fun c ht => ?_⟩
  refine (eager_bump.seq_left hd.covers _) c (Cursor.rest_ne_nil fun h => ?_)
  simp [h] at ht

theorem productive_parameterList : parameterList.Productive deeper := by
  intro k
  beta_reduce
  split
  · exact ⟨trivial, productive_whenAt _ ⟨productive_parameter, productive_moreParameters hd,
      productive_whenAt _ trivial⟩, productive_expect _ _⟩
  · trivial

omit hd in
theorem productive_methodBody : methodBody.Productive deeper := by
  intro k
  beta_reduce
  split
  · trivial
  · exact productive_expect _ _

theorem productive_methodDecl : methodDecl.Productive deeper :=
  ⟨productive_modifiers, trivial, productive_declaredName _, productive_parameterList hd,
    productive_optionalType, productive_methodBody⟩

theorem eager_methodDecl : methodDecl.Eager deeper :=
  ((eager_bump.seq_left hd.covers _).seq_right hd.covers _).node hd.covers _

/-- A token that starts no member is refused, so each pass takes one. -/
theorem productive_members : members.Productive deeper := by
  refine ⟨fun k => ?_, fun c ht => ?_⟩
  · beta_reduce
    split
    · exact productive_methodDecl hd
    · exact productive_varDecl
    all_goals trivial
  · have hc : c.rest ≠ [] := Cursor.rest_ne_nil fun h => by simp [h, inBraces] at ht
    apply Takes.look
    split
    · exact eager_methodDecl hd c hc
    · exact eager_varDecl hd c hc
    · next h => exact hd.classDecl c (.inl h)
    · next h => exact hd.classDecl c (.inr h)
    · exact eager_reject hd.covers _ c hc

theorem productive_memberList : memberList.Productive deeper :=
  ⟨trivial, productive_members hd, productive_expect _ _⟩

theorem productive_implementsClause : implementsClause.Productive deeper :=
  ⟨trivial, productive_reference _, productive_afterCommas hd (productive_reference _)⟩

theorem productive_classBody : classBody.Productive deeper := by
  intro k
  beta_reduce
  split
  · exact productive_memberList hd
  · trivial

theorem productive_classDecl : classDecl.Productive deeper :=
  ⟨productive_modifiers, trivial, productive_declaredName _,
    productive_whenAt _ ⟨trivial, productive_reference _⟩,
    productive_whenAt _ (productive_implementsClause hd), productive_classBody hd⟩

theorem eager_classDecl : classDecl.Eager deeper :=
  ((eager_bump.seq_left hd.covers _).seq_right hd.covers _).node hd.covers _

theorem productive_anonymousType : anonymousType.Productive deeper := productive_memberList hd

/-- Where no operand starts, that is reported. -/
theorem primaryAt_takesIfClean {k : Kind} {c : Cursor} (hk : c.peek (· == .op) = k) :
    (primaryAt k).TakesIfClean deeper c := by
  unfold primaryAt
  cases hr : primary? k with
  | some r =>
    obtain ⟨heager, _, hne⟩ := primary?_eq_some hd hr
    have hrest : c.rest ≠ [] := Cursor.rest_ne_nil_of_peek (hk ▸ hne)
    exact fun _ => heager.seq_right hd.covers unaryOperators c hrest
  | none =>
    intro h
    have h := (List.append_eq_nil_iff.mp h).2
    rw [Option.getD_none] at h
    unfold notAnExpression at h
    split at h
    all_goals exact absurd h (by simp [run, Cursor.report, run_reject, Cursor.problems_reject])

theorem operand_takesIfClean (c : Cursor) : operand.TakesIfClean deeper c := by
  intro h
  have h := (List.append_eq_nil_iff.mp h).2
  refine Takes.seq_right hd.covers (TakesIfClean.look (fun k hk => ?_) h)
  split
  · intro h
    exact (primaryAt_takesIfClean hd hk (Outcome.problems_of_wrapWhile h)).chain hd.covers _ _
  · exact primaryAt_takesIfClean hd hk

theorem expression_takesIfClean (c : Cursor) : expression.TakesIfClean deeper c := by
  intro h
  have h := (List.append_eq_nil_iff.mp h).2
  have hfirst := operand_takesIfClean hd _ (Outcome.problems_of_wrapWhile h)
  exact (hfirst.chain hd.covers _ _).seq_right hd.covers

/-- A statement that takes nothing reports that something is missing. -/
theorem statement_takesIfClean (c : Cursor) : statement.TakesIfClean deeper c := by
  refine TakesIfClean.look fun k hk => ?_
  have hrest : k ≠ .eof → c.rest ≠ [] := fun h => Cursor.rest_ne_nil_of_peek (hk ▸ h)
  split
  · exact fun _ => eager_varDecl hd c (hrest nofun)
  · exact hd.block c (hrest nofun)
  · exact fun _ => eager_bump c (hrest nofun)
  · exact fun _ => (eager_bump.seq_left hd.covers _).node hd.covers _ c (hrest nofun)
  · exact fun h => absurd h (Cursor.problems_reject _ c)
  · exact fun h => absurd h (Cursor.problems_reject _ c)
  · intro h
    have h := (List.append_eq_nil_iff.mp (List.append_eq_nil_iff.mp h).2).1
    exact ((hd.expression _ h).seq_left hd.covers _).seq_right hd.covers (a := gap)

/-- A statement may take nothing, but then the next token is refused. -/
theorem productive_statements : statements.Productive deeper :=
  productive_manyWhile rfl ⟨productive_statement, statement_takesIfClean hd⟩
    (eager_progress hd.covers _ _)

theorem productive_block : block.Productive deeper :=
  ⟨trivial, productive_statements hd, productive_expect _ _⟩

theorem eager_block : block.Eager deeper :=
  (eager_bump.seq_left hd.covers _).node hd.covers _

theorem productive_declarations : declarations.Productive deeper := by
  refine ⟨fun k => ?_, fun c ht => ?_⟩
  · beta_reduce
    split <;> trivial
  · have hc : c.rest ≠ [] := Cursor.rest_ne_nil fun h => by simp [h] at ht
    apply Takes.look
    split
    · next h => exact hd.classDecl c (.inl h)
    · next h => exact hd.classDecl c (.inr h)
    · exact eager_reject hd.covers _ c hc

theorem productive_file : file.Productive deeper := ⟨productive_declarations hd, trivial⟩

end

end Rule

/-! ## Constructs at every level -/

/-- At least one token is cut off where something may start that is neither a closing bracket nor a
separator. -/
theorem Token.swallow_pos {t : Token} (ts : List Token) (htrivia : t.isTrivia = false)
    (hcloses : t.kind.closesGroup = false) (hseparates : t.kind.separates = false) :
    0 < Token.swallow 0 (t :: ts) := by
  unfold Token.swallow
  rw [htrivia, hcloses, hseparates]
  cases t.kind.opensGroup <;> simp

/-- A class that is nested too deeply is not left where it stands. -/
theorem Cursor.cutOff_takes_classDecl {c : Cursor}
    (h : c.peek Kind.isModifier = .classKw ∨ c.peek Kind.isModifier = .interfaceKw) :
    c.cutOff.cursor.rest.length < c.rest.length := by
  have hle : c.gap.cursor.rest.length ≤ c.rest.length := (c.take_covers _).rest_length_le
  have hrest : c.gap.cursor.rest = c.rest.dropWhile Token.isTrivia := c.drop_triviaCount
  rw [peek_eq, ← kinds_gap] at h
  show (c.gap.cursor.rest.drop (Token.swallow 0 c.gap.cursor.rest)).length < c.rest.length
  unfold kinds at h
  cases hd : c.gap.cursor.rest with
  | nil => simp [hd] at h
  | cons t ts =>
    have htrivia : t.isTrivia = false := by
      have hhead := List.head_dropWhile_not Token.isTrivia (l := c.rest) (by simp [← hrest, hd])
      simpa [← hrest, hd] using hhead
    rw [hd, Token.kinds_cons, htrivia] at h
    -- The first significant token is a modifier or the keyword itself.
    have hkind : t.kind.isModifier = true ∨ t.kind = .classKw ∨ t.kind = .interfaceKw := by
      cases hm : t.kind.isModifier with
      | true => exact .inl rfl
      | false => exact .inr (by simpa [hm] using h)
    have hpos : 0 < Token.swallow 0 (t :: ts) := by
      refine Token.swallow_pos ts htrivia ?_ ?_
      all_goals
        rcases hkind with hm | hm | hm
        · revert hm
          cases t.kind <;> simp [Kind.isModifier, Kind.closesGroup, Kind.separates]
        all_goals rw [hm]; rfl
    rw [hd, List.length_cons] at hle
    rw [List.length_drop, List.length_cons]
    omega

/-- At every level the constructs are such as the rules around them rely on. -/
theorem Construct.lively (n : Nat) : Rule.Lively (Construct.parse n) := by
  induction n with
  | zero =>
    exact ⟨parse_covers 0, fun c => Cursor.cutOff_takes_classDecl,
      fun c _ h => absurd h c.problems_cutOff, fun c h => absurd h c.problems_cutOff⟩
  | succ n ih =>
    refine ⟨parse_covers (n + 1), fun c h => ?_, fun c hc _ => ?_, fun c => ?_⟩
    · have hc : c.rest ≠ [] := by
        rcases h with h | h <;> exact Cursor.rest_ne_nil_of_peek (by rw [h]; nofun)
      exact Rule.eager_classDecl ih c hc
    · exact Rule.eager_block ih c hc
    · exact Rule.expression_takesIfClean ih c

/-- The rules of all constructs are productive. -/
theorem Construct.productive_of_lively {deeper : Construct → Cursor → Outcome}
    (hd : Rule.Lively deeper) (k : Construct) : k.rule.Productive deeper := by
  cases k with
  | classDecl => exact Rule.productive_classDecl hd
  | anonymousType => exact Rule.productive_anonymousType hd
  | block => exact Rule.productive_block hd
  | expression => exact Rule.productive_expression hd

/-- The rules of all constructs are productive, however deep they are nested. -/
theorem Construct.productive (n : Nat) (k : Construct) : k.rule.Productive (Construct.parse n) :=
  productive_of_lively (Construct.lively n) k

end ClassNav
