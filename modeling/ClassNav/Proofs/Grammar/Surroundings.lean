import ClassNav.Proofs.Grammar.Brackets

/-!
# What stands around a construct

Where a rule reports nothing, the tokens around the constructs that it goes down to are known, and
can be read off the rules by evaluation.

* `Rule.places`: each construct stands where it was seen to open, and before a kind that
  `Construct.precedes`. So `Construct.screen`, which refuses constructs anywhere else, refuses none
  of them (`Rule.run_screen`).
* `Rule.isTight`: the last token that is taken is a word, and trivia behind it is left. So a
  construct ends with a word (`Construct.endsTight_parse`).
-/

namespace ClassNav

/-! ## What a rule can start before -/

/-- Whether a rule may report nothing if it starts before a kind and ends before one that satisfies
`after`. -/
def Rule.admits : Rule → (after : Kind → Bool) → Kind → Bool
  | done, after, k => after k
  | gap, after, k => after k
  | bump, _, _ => true
  | report _, _, _ => false
  | seq a b, after, k => a.admits (b.admits after) k
  | node _ body, after, k => body.admits after k
  | look skip next, after, k => skip k || (next k).admits after k
  | loop test _, after, k => Kind.all.any (test k) || after k
  | chain first wrap _, after, k => first.admits (fun j => (wrap j).isSome || after j) k
  | progress body _, after, k => body.admits after k
  | nest _, _, _ => true

namespace Cursor

theorem current_gap (c : Cursor) : c.gap.cursor.current = c.current := by
  rw [current_eq, current_eq, kinds_gap]

/-- What is not skipped is seen. -/
theorem peek_of_not_skip {skip : Kind → Bool} {c : Cursor} (h : skip c.current = false) :
    c.peek skip = c.current := by
  rw [current_eq] at h ⊢
  rw [peek_eq]
  cases hks : c.kinds with
  | nil => rfl
  | cons k ks =>
    rw [hks, Kind.front_cons] at h
    rw [List.dropWhile_cons_of_neg (by simp [h])]

end Cursor

namespace Rule

variable {deeper : Construct → Cursor → Outcome}

/-- A repetition goes on, or ends where it stands. -/
theorem admits_repeatWhile {test : Kind → Kind → Bool} {body : Cursor → Outcome}
    {after : Kind → Bool} (n : Nat) {c : Cursor}
    (hafter : after
      (c.repeatWhile (fun c => test c.current c.second) body n).cursor.current = true) :
    (Kind.all.any (test c.current) || after c.current) = true := by
  refine Bool.or_eq_true_iff.mpr ?_
  cases n with
  | zero => exact .inr hafter
  | succ n =>
    unfold Cursor.repeatWhile at hafter
    split at hafter
    · next ht => exact .inl (List.any_eq_true.mpr ⟨_, Kind.mem_all _, ht⟩)
    · exact .inr hafter

theorem admits_wrapWhile {wrap : Kind → Option Kind} {next : Kind → Cursor → Outcome}
    {after : Kind → Bool} (n : Nat) {o : Outcome}
    (hafter : after (o.wrapWhile wrap next n).cursor.current = true) :
    ((wrap o.cursor.current).isSome || after o.cursor.current) = true := by
  refine Bool.or_eq_true_iff.mpr ?_
  cases n with
  | zero => exact .inr hafter
  | succ n =>
    unfold Outcome.wrapWhile at hafter
    split at hafter
    · exact .inr hafter
    · next hk => exact .inl (by rw [hk]; rfl)

/-- A rule that reports nothing started in front of a kind that it admits. -/
theorem admits_of_clean {r : Rule} {after : Kind → Bool} {c : Cursor}
    (hclean : (r.run deeper c).problems = [])
    (hafter : after (r.run deeper c).cursor.current = true) : r.admits after c.current = true := by
  induction r generalizing after c with
  | done => exact hafter
  | gap => exact c.current_gap ▸ hafter
  | bump => rfl
  | report f => cases hclean
  | seq a b iha ihb =>
    obtain ⟨ha, hb⟩ := List.append_eq_nil_iff.mp hclean
    exact iha ha (ihb hb hafter)
  | node k body ih =>
    have hbody := ih (List.append_eq_nil_iff.mp hclean).2 hafter
    rwa [Cursor.current_gap] at hbody
  | look skip next ih =>
    refine Bool.or_eq_true_iff.mpr ?_
    cases hskip : skip c.current with
    | true => exact .inl rfl
    | false =>
      have hnext := ih (c.peek skip) hclean hafter
      rw [Cursor.peek_of_not_skip hskip] at hnext
      exact .inr hnext
  | loop test body ih => exact admits_repeatWhile _ hafter
  | chain first wrap next ihf _ =>
    exact ihf (Outcome.problems_of_wrapWhile hclean) (admits_wrapWhile _ hafter)
  | progress body f ih =>
    simp only [run] at hclean hafter
    split at hclean
    · exact absurd (List.append_eq_nil_iff.mp hclean).2 (Cursor.problems_reject f _)
    · next hne =>
      rw [if_neg hne] at hafter
      exact ih hclean hafter
  | nest k => rfl

end Rule

/-! ## Where constructs stand -/

namespace Construct

/-- The kinds that a construct inside another one stands before. -/
def precedes : Construct → Kind → Bool
  | expression, k => k.stops
  | _, k => k != .eof

/-- Whether a construct is sure to open where the first kind that is not skipped is `k`. -/
def isSeen (skip : Kind → Bool) (k : Kind) : Construct → Bool
  | classDecl =>
    (Kind.all.all fun j => skip j == j.isModifier) && (k == .classKw || k == .interfaceKw)
  | anonymousType => (Kind.all.all fun j => !skip j) && k == .lBrace
  | block => (Kind.all.all fun j => !skip j) && k == .lBrace
  | expression => true

instance decidableOpens : (k : Construct) → (ks : List Kind) → Decidable (k.Opens ks)
  | classDecl, ks => inferInstanceAs (Decidable (
      Kind.front (ks.dropWhile Kind.isModifier) = .classKw ∨
        Kind.front (ks.dropWhile Kind.isModifier) = .interfaceKw))
  | anonymousType, ks => inferInstanceAs (Decidable (Kind.front ks = .lBrace))
  | block, ks => inferInstanceAs (Decidable (Kind.front ks = .lBrace))
  | expression, _ => inferInstanceAs (Decidable True)

/-- Goes down to a construct, and refuses it unless it opens here and stands before a kind that it
precedes. -/
def screen (deeper : Construct → Cursor → Outcome) (k : Construct) (c : Cursor) : Outcome :=
  if k.Opens c.kinds ∧ k.precedes (deeper k c).cursor.current = true then deeper k c
  else c.report .unexpectedToken

/-- An expression may open anywhere. -/
theorem opens_of_beq_expression {k : Construct} {ks : List Kind} (h : (k == .expression) = true) :
    k.Opens ks := by
  rw [eq_of_beq h]
  trivial

/-- What a rule has seen in front of it is enough for the construct that it goes down to. -/
theorem opens_of_isSeen {skip : Kind → Bool} {k : Construct} {c : Cursor}
    (h : k.isSeen skip (c.peek skip) = true) : k.Opens c.kinds := by
  have hbrace : ((Kind.all.all fun j => !skip j) && c.peek skip == .lBrace) = true →
      Kind.front c.kinds = .lBrace := by
    intro h
    obtain ⟨hskip, hk⟩ := Bool.and_eq_true_iff.mp h
    have hnot := List.all_eq_true.mp hskip c.current (Kind.mem_all _)
    rw [Cursor.peek_of_not_skip (by simpa using hnot)] at hk
    exact c.current_eq ▸ eq_of_beq hk
  cases k with
  | classDecl =>
    obtain ⟨hskip, hk⟩ := Bool.and_eq_true_iff.mp h
    have hmod : skip = Kind.isModifier :=
      funext fun j => eq_of_beq (List.all_eq_true.mp hskip j (Kind.mem_all j))
    rw [hmod, Cursor.peek_eq] at hk
    exact (Bool.or_eq_true_iff.mp hk).imp eq_of_beq eq_of_beq
  | anonymousType => exact hbrace h
  | block => exact hbrace h
  | expression => trivial

end Construct

theorem Outcome.andThen_congr {o : Outcome} {next next' : Cursor → Outcome}
    (h : next' o.cursor = next o.cursor) : o.andThen next' = o.andThen next := by
  unfold Outcome.andThen
  rw [h]

/-- Whether the constructs that a rule goes down to open where they stand, by what was `seen` before
or by what the rule sees itself, and stand before kinds that they precede, if the rule ends before a
kind that satisfies `after`. -/
def Rule.places : (seen : Construct → Bool) → (after : Kind → Bool) → Rule → Bool
  | seen, after, seq a b => a.places seen (b.admits after) && b.places (· == .expression) after
  | seen, after, node _ body => body.places seen after
  | _, after, look skip next =>
    Kind.all.all fun k => (next k).places (Construct.isSeen skip k) after
  | _, after, loop test body =>
    body.places (· == .expression) fun k => Kind.all.any (test k) || after k
  | seen, after, chain first wrap next =>
    first.places seen (fun k => (wrap k).isSome || after k) &&
      Kind.all.all fun k => (wrap k).isNone ||
        (next k).places (· == .expression) fun j => (wrap j).isSome || after j
  | seen, after, progress body _ => body.places seen after
  | seen, after, nest k => seen k && Kind.all.all fun j => !after j || k.precedes j
  | _, _, _ => true

namespace Rule

variable {deeper : Construct → Cursor → Outcome}

theorem repeatWhile_screen {test : Kind → Kind → Bool} {body body' : Cursor → Outcome}
    {after : Kind → Bool}
    (hbody : ∀ c, (body c).problems = [] → (Kind.all.any (test (body c).cursor.current) ||
      after (body c).cursor.current) = true → body' c = body c) (n : Nat) {c : Cursor}
    (hclean : (c.repeatWhile (fun c => test c.current c.second) body n).problems = [])
    (hafter : after
      (c.repeatWhile (fun c => test c.current c.second) body n).cursor.current = true) :
    c.repeatWhile (fun c => test c.current c.second) body' n =
      c.repeatWhile (fun c => test c.current c.second) body n := by
  induction n generalizing c with
  | zero => rfl
  | succ n ih =>
    unfold Cursor.repeatWhile at hclean hafter ⊢
    split
    · next ht =>
      rw [if_pos ht] at hclean hafter
      obtain ⟨hpass, hrest⟩ := List.append_eq_nil_iff.mp hclean
      rw [hbody c hpass (admits_repeatWhile n hafter)]
      exact Outcome.andThen_congr (ih hrest hafter)
    · rfl

theorem wrapWhile_screen {wrap : Kind → Option Kind} {next next' : Kind → Cursor → Outcome}
    {after : Kind → Bool}
    (hnext : ∀ k c, (wrap k).isSome = true → (next k c).problems = [] →
      ((wrap (next k c).cursor.current).isSome || after (next k c).cursor.current) = true →
      next' k c = next k c) (n : Nat) {o : Outcome}
    (hclean : (o.wrapWhile wrap next n).problems = [])
    (hafter : after (o.wrapWhile wrap next n).cursor.current = true) :
    o.wrapWhile wrap next' n = o.wrapWhile wrap next n := by
  induction n generalizing o with
  | zero => rfl
  | succ n ih =>
    unfold Outcome.wrapWhile at hclean hafter ⊢
    cases hk : wrap o.cursor.current with
    | none => rfl
    | some k =>
      simp only [hk] at hclean hafter ⊢
      have hpass := (List.append_eq_nil_iff.mp (Outcome.problems_of_wrapWhile hclean)).2
      have hmid := admits_wrapWhile n hafter
      have hsame := hnext _ o.cursor (by rw [hk]; rfl) hpass hmid
      rw [Outcome.andThen_congr hsame]
      exact ih hclean hafter

/-- A rule that reports nothing goes down to constructs only where they open, and stand before kinds
that they precede. -/
theorem run_screen {r : Rule} {seen : Construct → Bool} {after : Kind → Bool} {c : Cursor}
    (hr : r.places seen after = true) (hseen : ∀ k, seen k = true → k.Opens c.kinds)
    (hclean : (r.run deeper c).problems = [])
    (hafter : after (r.run deeper c).cursor.current = true) :
    r.run (Construct.screen deeper) c = r.run deeper c := by
  -- `seen` is known of the words in front: a look ahead adds to it, and whatever may take a word
  -- forgets all but that an expression may be looked for anywhere.
  induction r generalizing seen after c with
  | done | gap | bump | report => rfl
  | seq a b iha ihb =>
    obtain ⟨ha, hb⟩ := Bool.and_eq_true_iff.mp hr
    obtain ⟨hca, hcb⟩ := List.append_eq_nil_iff.mp hclean
    rw [run, iha ha hseen hca (admits_of_clean hcb hafter)]
    exact Outcome.andThen_congr (ihb hb (fun _ => Construct.opens_of_beq_expression) hcb hafter)
  | node k body ih =>
    have hbody := ih hr (fun k hk => c.kinds_gap ▸ hseen k hk)
      (List.append_eq_nil_iff.mp hclean).2 hafter
    exact Outcome.andThen_congr (congrArg (Outcome.enclose k) hbody)
  | look skip next ih =>
    exact ih _ (List.all_eq_true.mp hr _ (Kind.mem_all _)) (fun _ => Construct.opens_of_isSeen)
      hclean hafter
  | loop test body ih =>
    exact repeatWhile_screen (fun c => ih hr fun _ => Construct.opens_of_beq_expression) _ hclean
      hafter
  | chain first wrap next ihf ihn =>
    obtain ⟨hf, hn⟩ := Bool.and_eq_true_iff.mp hr
    have hfirst := ihf hf hseen (Outcome.problems_of_wrapWhile hclean) (admits_wrapWhile _ hafter)
    unfold run
    rw [hfirst]
    refine wrapWhile_screen (fun k c hk => ?_) _ hclean hafter
    rcases Bool.or_eq_true_iff.mp (List.all_eq_true.mp hn k (Kind.mem_all k)) with hnone | hplaces
    · rw [Option.isNone_iff_eq_none.mp hnone] at hk
      cases hk
    · exact ihn k hplaces fun _ => Construct.opens_of_beq_expression
  | progress body f ih =>
    simp only [run] at hclean hafter ⊢
    split at hclean
    · exact absurd (List.append_eq_nil_iff.mp hclean).2 (Cursor.problems_reject f _)
    · next hne =>
      rw [if_neg hne] at hafter
      rw [ih hr hseen hclean hafter, if_neg hne]
  | nest k =>
    obtain ⟨hk, hall⟩ := Bool.and_eq_true_iff.mp hr
    have hnext := List.all_eq_true.mp hall _ (Kind.mem_all ((nest k).run deeper c).cursor.current)
    rw [hafter] at hnext
    exact if_pos ⟨hseen k hk, hnext⟩

end Rule

/-- The productions go down to a construct only where they have seen that it opens, and end it only
in front of what may follow it. Only expressions may be looked for where none starts. -/
theorem Construct.places_rule (k : Construct) :
    k.rule.places (· == .expression) (fun _ => true) = true := by
  cases k <;> decide +kernel

/-- No construct is refused inside another one that reports nothing. -/
theorem Construct.run_screen_rule {deeper : Construct → Cursor → Outcome} {k : Construct}
    {c : Cursor} (hclean : (k.rule.run deeper c).problems = []) :
    k.rule.run (screen deeper) c = k.rule.run deeper c :=
  Rule.run_screen k.places_rule (fun _ => opens_of_beq_expression) hclean rfl

/-! ## The last token -/

/-- Whether a rule that reports nothing is sure to take a word last. Where it need not (`must` is
false), it may also take nothing. -/
def Rule.isTight : (must : Bool) → Rule → Bool
  | must, done => !must
  | _, gap => false
  | _, bump => true
  | _, report _ => true
  | must, seq a b => b.isTight true || a.isTight must && b.isTight false
  | _, node _ body => body.isTight true
  | must, look _ next => Kind.all.all fun k => (next k).isTight must
  | must, loop _ body => !must && body.isTight false
  | must, chain first wrap next =>
    first.isTight must && Kind.all.all fun k => (wrap k).isNone || (next k).isTight false
  | must, progress body _ => body.isTight must
  | _, nest _ => true

/-- Where nothing is reported and words are left, the last token that was taken is a word; there is
one, if there must be. -/
def Outcome.EndsTight (must : Bool) (o : Outcome) : Prop :=
  o.problems = [] → o.cursor.kinds ≠ [] →
    Token.Tight (Tree.forestTokens o.trees) ∧ (must = true → Tree.forestTokens o.trees ≠ [])

namespace Outcome

variable {must : Bool} {o : Outcome}

theorem endsTight_stay (c : Cursor) : c.stay.EndsTight false :=
  fun _ _ => ⟨by simp [Cursor.stay, Tree.forestTokens, Token.Tight], nofun⟩

theorem EndsTight.enclose (h : o.EndsTight must) (k : Kind) : (o.enclose k).EndsTight must := by
  have htokens : Tree.forestTokens (o.enclose k).trees = Tree.forestTokens o.trees := by
    simp [Outcome.enclose, Tree.forestTokens, Tree.tokens]
  unfold EndsTight
  rw [htokens]
  exact h

theorem EndsTight.imp (h : o.EndsTight true) : o.EndsTight must := fun hclean hkinds =>
  ⟨(h hclean hkinds).1, fun _ => (h hclean hkinds).2 rfl⟩

/-- What is taken last decides, or what was taken before if nothing is. -/
theorem EndsTight.andThen {next : Cursor → Outcome} (hcovers : (next o.cursor).Covers o.cursor)
    (h : (next o.cursor).EndsTight true ∨ o.EndsTight must ∧ (next o.cursor).EndsTight false) :
    (o.andThen next).EndsTight must := by
  intro hclean hkinds
  obtain ⟨hfirst, hsecond⟩ := List.append_eq_nil_iff.mp hclean
  rw [show (o.andThen next).trees = o.trees ++ (next o.cursor).trees from rfl,
    Tree.forestTokens_append]
  rcases h with h | ⟨ho, h⟩
  · obtain ⟨htight, hne⟩ := h hsecond hkinds
    exact ⟨htight.append (.inr (hne rfl)), fun _ => by simp [hne rfl]⟩
  · have hmid : o.cursor.kinds ≠ [] := by
      rw [Cursor.kinds, ← hcovers, Token.kinds_append]
      exact fun hnil => hkinds (List.append_eq_nil_iff.mp hnil).2
    obtain ⟨htight, hne⟩ := ho hfirst hmid
    exact ⟨(h hsecond hkinds).1.append (.inl htight), fun hmust => by simp [hne hmust]⟩

theorem EndsTight.repeatWhile {test : Cursor → Bool} {body : Cursor → Outcome}
    (hcovers : ∀ c, (body c).Covers c) (hbody : ∀ c, (body c).EndsTight false) (n : Nat)
    (c : Cursor) : (c.repeatWhile test body n).EndsTight false := by
  induction n generalizing c with
  | zero => exact endsTight_stay c
  | succ n ih =>
    unfold Cursor.repeatWhile
    split
    · exact andThen (Cursor.repeatWhile_covers hcovers n _) (.inr ⟨hbody c, ih _⟩)
    · exact endsTight_stay c

theorem EndsTight.wrapWhile {wrap : Kind → Option Kind} {next : Kind → Cursor → Outcome}
    (hcovers : ∀ k c, (next k c).Covers c)
    (hnext : ∀ k c, (wrap k).isSome = true → (next k c).EndsTight false) (n : Nat)
    (h : o.EndsTight must) : (o.wrapWhile wrap next n).EndsTight must := by
  induction n generalizing o with
  | zero => exact h
  | succ n ih =>
    unfold Outcome.wrapWhile
    split
    · exact h
    · next k hk =>
      have hpass := hnext o.cursor.current o.cursor (by rw [hk]; rfl)
      exact ih ((andThen (hcovers _ _) (.inr ⟨h, hpass⟩)).enclose k)

end Outcome

/-- A token is taken with the trivia before it, not with that behind it. -/
theorem Cursor.endsTight_bump (must : Bool) (c : Cursor) : c.bump.EndsTight must := by
  intro _ hkinds
  have hwords : c.words ≠ [] := by
    intro hnil
    rw [kinds_bump, kinds_eq_map_words, hnil] at hkinds
    exact hkinds rfl
  obtain ⟨t, ts, hcons⟩ := List.exists_cons_of_ne_nil hwords
  obtain ⟨us, hrest, _⟩ := dropWhile_rest hcons
  have ht : t.isTrivia = false := Token.isTrivia_of_mem_words (hcons ▸ List.mem_cons_self)
  have htokens : Tree.forestTokens c.bump.trees = c.rest.takeWhile Token.isTrivia ++ [t] := by
    show Tree.forestTokens ((c.rest.take (c.triviaCount + 1)).map .leaf) = _
    rw [Tree.forestTokens_leaves]
    conv_lhs => rw [← List.takeWhile_append_dropWhile (p := Token.isTrivia) (l := c.rest), hrest]
    rw [triviaCount, List.take_length_add_append]
    rfl
  rw [htokens]
  exact ⟨Token.Tight.append (by simp [Token.Tight, ht]) (.inr (List.cons_ne_nil t [])), by simp⟩

/-- A tight rule ends with a word and leaves the trivia behind it. -/
theorem Rule.endsTight_run {deeper : Construct → Cursor → Outcome}
    (hcovers : ∀ k c, (deeper k c).Covers c)
    (hdeeper : ∀ k c, (deeper k c).EndsTight true) {must : Bool} {r : Rule}
    (hr : r.isTight must = true) (c : Cursor) : (r.run deeper c).EndsTight must := by
  induction r generalizing must c with
  | done =>
    cases must with
    | true => cases hr
    | false => exact Outcome.endsTight_stay c
  | gap => cases hr
  | bump => exact c.endsTight_bump must
  | report f => exact fun hclean => nomatch hclean
  | seq a b iha ihb =>
    refine Outcome.EndsTight.andThen (run_covers hcovers b _) ?_
    rcases Bool.or_eq_true_iff.mp hr with hb | hr
    · exact .inl (ihb hb _)
    · obtain ⟨ha, hb⟩ := Bool.and_eq_true_iff.mp hr
      exact .inr ⟨iha ha c, ihb hb _⟩
  | node k body ih =>
    refine Outcome.EndsTight.andThen ((run_covers hcovers body _).enclose k) ?_
    exact .inl ((ih hr _).enclose k)
  | look skip next ih => exact ih _ (List.all_eq_true.mp hr _ (Kind.mem_all _)) c
  | loop test body ih =>
    obtain ⟨hmust, hbody⟩ := Bool.and_eq_true_iff.mp hr
    obtain rfl : must = false := by simpa using hmust
    exact Outcome.EndsTight.repeatWhile (run_covers hcovers body) (ih hbody) _ c
  | chain first wrap next ihf ihn =>
    obtain ⟨hf, hn⟩ := Bool.and_eq_true_iff.mp hr
    refine (ihf hf c).wrapWhile (fun k => run_covers hcovers (next k)) (fun k c hk => ?_) _
    rcases Bool.or_eq_true_iff.mp (List.all_eq_true.mp hn k (Kind.mem_all k)) with hnone | htight
    · rw [Option.isNone_iff_eq_none.mp hnone] at hk
      cases hk
    · exact ihn k htight c
  | progress body f ih =>
    simp only [run]
    split
    · exact fun hclean => absurd (List.append_eq_nil_iff.mp hclean).2 (Cursor.problems_reject f _)
    · exact ih hr c
  | nest k => exact (hdeeper k c).imp

/-- No production takes trivia last. -/
theorem Construct.isTight_rule (k : Construct) : k.rule.isTight true = true := by
  cases k <;> decide +kernel

/-- A construct ends with a word. -/
theorem Construct.endsTight_parse (n : Nat) (k : Construct) (c : Cursor) :
    (parse n k c).EndsTight true := by
  induction n generalizing k c with
  | zero => exact fun hclean => absurd hclean c.problems_cutOff
  | succ n ih => exact Rule.endsTight_run (parse_covers n) ih k.isTight_rule c

end ClassNav
