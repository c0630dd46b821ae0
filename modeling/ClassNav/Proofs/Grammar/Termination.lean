import ClassNav.Proofs.Grammar.Lossless

/-!
# Parsing comes to an end

Repetitions are bounded by the tokens left, and nesting by a limit. Neither bound is what makes
parsing end: it would end without them.

* Every pass of a repetition takes a token (`Rule.Productive`), and a construct goes down to another
  one only after it has taken a token (`Rule.NestsBelow`, `Construct.nestsBelow`).
* `parseWithin` parses with a supply of steps and fails when it runs out. Every look ahead, every
  repetition and every way down to a construct draws on the supply, and no other bound is used. More
  steps than there are tokens are always enough, and then it does what `parseTokens` does
  (`parse_terminates`).
* So a limit on the nesting above the number of tokens left is no limit
  (`Construct.parse_eq_of_lt`).
-/

namespace ClassNav

/-! ## Ways down -/

namespace Rule

/-- Every construct that a rule goes down to stands where fewer than `bound` tokens are left. -/
def NestsBelow (deeper : Construct → Cursor → Outcome) (bound : Nat) : Rule → Cursor → Prop
  | seq a b, c => a.NestsBelow deeper bound c ∧ b.NestsBelow deeper bound (a.run deeper c).cursor
  | node _ body, c => body.NestsBelow deeper bound c.gap.cursor
  | look skip next, c => (next (c.peek skip)).NestsBelow deeper bound c
  | loop test body, c => ∀ c' : Cursor, c'.rest.length ≤ c.rest.length →
      test c'.current c'.second = true → body.NestsBelow deeper bound c'
  | chain first wrap next, c => first.NestsBelow deeper bound c ∧
      ∀ (c' : Cursor) (k : Kind), c'.rest.length ≤ c.rest.length → wrap c'.current = some k →
        (next c'.current).NestsBelow deeper bound c'
  | progress body _, c => body.NestsBelow deeper bound c
  | nest _, c => c.rest.length < bound
  | _, _ => True

/-- Whether a rule is sure to take a token wherever one is left. -/
def isEager : Rule → Bool
  | bump => true
  | seq a b => a.isEager || b.isEager
  | node _ body => body.isEager
  | _ => false

/-- Whether a rule goes down to constructs only after it has taken a token, if one is left. -/
def isGuarded : Rule → Bool
  | seq a b => a.isGuarded && (a.isEager || b.isGuarded)
  | node _ body => body.isGuarded
  | look _ next => Kind.all.all fun k => (next k).isGuarded
  | loop _ body => body.isGuarded
  | chain first _ next => first.isGuarded && Kind.all.all fun k => (next k).isGuarded
  | progress body _ => body.isGuarded
  | nest _ => false
  | _ => true

/-- Whether a rule goes down to no construct where no token is left. -/
def isIdleAtEnd : Rule → Bool
  | seq a b => a.isIdleAtEnd && b.isIdleAtEnd
  | node _ body => body.isIdleAtEnd
  | look _ next => (next .eof).isIdleAtEnd
  | loop test _ => !test .eof .eof
  | chain first wrap _ => first.isIdleAtEnd && (wrap .eof).isNone
  | progress body _ => body.isIdleAtEnd
  | nest _ => false
  | _ => true

section

variable {deeper : Construct → Cursor → Outcome} (hdeeper : ∀ k c, (deeper k c).Covers c)
include hdeeper

theorem eager_of_isEager {r : Rule} (h : r.isEager = true) : r.Eager deeper := by
  induction r with
  | bump => exact eager_bump
  | seq a b iha ihb =>
    rcases Bool.or_eq_true_iff.mp h with h | h
    · exact (iha h).seq_left hdeeper b
    · exact (ihb h).seq_right hdeeper a
  | node k body ih => exact (ih h).node hdeeper k
  | _ => cases h

theorem nestsBelow_of_lt {bound : Nat} (r : Rule) {c : Cursor} (hc : c.rest.length < bound) :
    r.NestsBelow deeper bound c := by
  induction r generalizing c with
  | seq a b iha ihb =>
    exact ⟨iha hc, ihb (Nat.lt_of_le_of_lt (run_rest_length_le hdeeper a c) hc)⟩
  | node k body ih => exact ih (Nat.lt_of_le_of_lt (c.take_covers _).rest_length_le hc)
  | look skip next ih => exact ih _ hc
  | loop test body ih => exact fun c' hle _ => ih (Nat.lt_of_le_of_lt hle hc)
  | chain first wrap next ihf ihn =>
    exact ⟨ihf hc, fun c' k hle _ => ihn _ (Nat.lt_of_le_of_lt hle hc)⟩
  | progress body f ih => exact ih hc
  | nest k => exact hc
  | _ => trivial

/-- Behind a taken token there are fewer left. -/
theorem nestsBelow_of_isGuarded {bound : Nat} {r : Rule} (hr : r.isGuarded = true) {c : Cursor}
    (hbound : 0 < bound) (hc : c.rest.length ≤ bound) : r.NestsBelow deeper bound c := by
  have hall : ∀ {next : Kind → Rule}, (Kind.all.all fun k => (next k).isGuarded) = true →
      ∀ k, (next k).isGuarded = true :=
    fun h k => List.all_eq_true.mp h k (Kind.mem_all k)
  induction r generalizing c with
  | seq a b iha ihb =>
    obtain ⟨ha, hb⟩ := Bool.and_eq_true_iff.mp hr
    refine ⟨iha ha hc, ?_⟩
    -- Either a token was taken before, or the second rule is guarded by itself.
    by_cases htaken : (a.run deeper c).cursor.rest.length < bound
    · exact nestsBelow_of_lt hdeeper b htaken
    · have hle := run_rest_length_le hdeeper a c
      have hne : c.rest ≠ [] := List.ne_nil_of_length_pos (by omega)
      rcases Bool.or_eq_true_iff.mp hb with hb | hb
      · exact absurd (Nat.lt_of_lt_of_le (eager_of_isEager hdeeper hb c hne) hc) htaken
      · exact ihb hb (Nat.le_trans hle hc)
  | node k body ih => exact ih hr (Nat.le_trans (c.take_covers _).rest_length_le hc)
  | look skip next ih => exact ih _ (hall hr _) hc
  | loop test body ih => exact fun c' hle _ => ih hr (Nat.le_trans hle hc)
  | chain first wrap next ihf ihn =>
    obtain ⟨hf, hn⟩ := Bool.and_eq_true_iff.mp hr
    exact ⟨ihf hf hc, fun c' k hle _ => ihn _ (hall hn _) (Nat.le_trans hle hc)⟩
  | progress body f ih => exact ih hr hc
  | nest k => cases hr
  | _ => trivial

/-- At the end of the input there is nothing to go down for. -/
theorem nestsBelow_of_isIdleAtEnd (bound : Nat) {r : Rule} (hr : r.isIdleAtEnd = true) {c : Cursor}
    (hc : c.rest = []) : r.NestsBelow deeper bound c := by
  -- No rule makes tokens: behind the end of the input there is only the end.
  have hend : ∀ {c' : Cursor}, c'.rest.length ≤ c.rest.length → c'.rest = [] := by
    intro c' hle
    rw [hc] at hle
    exact List.length_eq_zero_iff.mp (Nat.le_zero.mp hle)
  have hpeek : ∀ {c' : Cursor} (skip : Kind → Bool), c'.rest = [] → c'.peek skip = .eof := by
    intro c' skip h
    rw [Cursor.peek, h]
    rfl
  induction r generalizing c with
  | seq a b iha ihb =>
    obtain ⟨ha, hb⟩ := Bool.and_eq_true_iff.mp hr
    exact ⟨iha ha hc hend, ihb hb (hend (run_rest_length_le hdeeper a c)) fun hle =>
      hend (Nat.le_trans hle (run_rest_length_le hdeeper a c))⟩
  | node k body ih =>
    have hle : c.gap.cursor.rest.length ≤ c.rest.length := (c.take_covers _).rest_length_le
    exact ih hr (hend hle) fun h => hend (Nat.le_trans h hle)
  | look skip next ih =>
    unfold NestsBelow
    rw [hpeek skip hc]
    exact ih _ hr hc hend
  | loop test body ih =>
    intro c' hle ht
    have hnil := hend hle
    have hsecond : c'.second = .eof := by
      rw [Cursor.second_eq, Cursor.kinds, hnil]
      rfl
    rw [Cursor.current, hpeek _ hnil, hsecond] at ht
    rw [isIdleAtEnd, ht] at hr
    cases hr
  | chain first wrap next ihf ihn =>
    obtain ⟨hf, hw⟩ := Bool.and_eq_true_iff.mp hr
    refine ⟨ihf hf hc hend, fun c' k hle hk => ?_⟩
    rw [Cursor.current, hpeek _ (hend hle)] at hk
    rw [hk] at hw
    cases hw
  | progress body f ih => exact ih hr hc hend
  | nest k => cases hr
  | _ => trivial

end

end Rule

/-- Every production takes a token before it goes down to a construct, and goes down to none at the
end of the input. -/
theorem Construct.isGuarded_rule (k : Construct) :
    k.rule.isGuarded = true ∧ k.rule.isIdleAtEnd = true := by
  cases k <;> decide +kernel

/-- Inside a construct, others are nested only behind a token that it has taken. -/
theorem Construct.nestsBelow {deeper : Construct → Cursor → Outcome}
    (hdeeper : ∀ k c, (deeper k c).Covers c) (k : Construct) (c : Cursor) :
    k.rule.NestsBelow deeper c.rest.length c := by
  obtain ⟨hguarded, hidle⟩ := k.isGuarded_rule
  by_cases hc : c.rest = []
  · exact Rule.nestsBelow_of_isIdleAtEnd hdeeper _ hidle hc
  · exact Rule.nestsBelow_of_isGuarded hdeeper hguarded (List.length_pos_iff.mpr hc)
      (Nat.le_refl _)

/-! ## Parsing with a supply of steps -/

/-- The kind of the first token that is neither trivia nor skipped, if it is found within a number
of steps. -/
def Token.peekWithin (skip : Kind → Bool) : (fuel : Nat) → List Token → Option Kind
  | _, [] => some .eof
  | 0, _ :: _ => none
  | n + 1, t :: ts => if t.isTrivia || skip t.kind then peekWithin skip n ts else some t.kind

/-- How many tokens are passed over from a place with `depth` groups open, if the end is found
within a number of steps. -/
def Token.swallowWithin : (fuel depth : Nat) → List Token → Option Nat
  | _, _, [] => some 0
  | 0, _, _ :: _ => none
  | n + 1, depth, t :: ts =>
    if t.isTrivia then (swallowWithin n depth ts).map fun m => if m = 0 then 0 else m + 1
    else if t.kind.opensGroup then (swallowWithin n (depth + 1) ts).map (· + 1)
    else if t.kind.closesGroup then
      if depth ≤ 1 then some depth else (swallowWithin n (depth - 1) ts).map (· + 1)
    else if t.kind.separates && depth == 0 then some 0
    else (swallowWithin n depth ts).map (· + 1)

def Cursor.cutOffWithin (fuel : Nat) (c : Cursor) : Option Outcome :=
  (Token.swallowWithin fuel 0 c.gap.cursor.rest).map fun n =>
    (c.report .nestingTooDeep).andThen fun c => c.gap.andThen fun c =>
      (c.take n).enclose .errorNode

/-- Repeats `body` while `test` holds, if that is over within a number of passes. -/
def Cursor.repeatWithin (test : Cursor → Bool) (body : Cursor → Option Outcome) :
    (fuel : Nat) → Cursor → Option Outcome
  | 0, c => if test c then none else some c.stay
  | n + 1, c =>
    if test c then
      (body c).bind fun o => (repeatWithin test body n o.cursor).map fun o' => o.andThen fun _ => o'
    else some c.stay

/-- Wraps everything yielded so far while `wrap` names a kind, if that is over within a number of
passes. -/
def Outcome.wrapWithin (wrap : Kind → Option Kind) (next : Kind → Cursor → Option Outcome) :
    (fuel : Nat) → Outcome → Option Outcome
  | 0, o => if (wrap o.cursor.current).isSome then none else some o
  | n + 1, o =>
    match wrap o.cursor.current with
    | none => some o
    | some k =>
      (next o.cursor.current o.cursor).bind fun o' =>
        wrapWithin wrap next n ((o.andThen fun _ => o').enclose k)

/-- What a rule does at a cursor, if every look ahead and every repetition is over within a number
of steps. -/
def Rule.runWithin (fuel : Nat) (deeper : Construct → Cursor → Option Outcome) :
    Rule → Cursor → Option Outcome
  | done, c => some c.stay
  | gap, c => some c.gap
  | bump, c => some c.bump
  | report f, c => some (c.report f)
  | seq a b, c => (a.runWithin fuel deeper c).bind fun o =>
      (b.runWithin fuel deeper o.cursor).map fun o' => o.andThen fun _ => o'
  | node k body, c => (body.runWithin fuel deeper c.gap.cursor).map fun o =>
      c.gap.andThen fun _ => o.enclose k
  | look skip next, c => (Token.peekWithin skip fuel c.rest).bind fun k =>
      (next k).runWithin fuel deeper c
  | loop test body, c =>
    c.repeatWithin (fun c => test c.current c.second) (body.runWithin fuel deeper) fuel
  | chain first wrap next, c => (first.runWithin fuel deeper c).bind
      (Outcome.wrapWithin wrap (fun k => (next k).runWithin fuel deeper) fuel)
  | progress body f, c => (body.runWithin fuel deeper c).map fun o =>
      if o.cursor.rest.length = c.rest.length then o.andThen (Cursor.reject f) else o
  | nest k, c => deeper k c

/-- Parses a construct in which constructs may be nested `levels` deep, if it goes down no more than
`fuel` times and everything on the way is over in time. -/
def Construct.parseWithin : (fuel levels : Nat) → Construct → Cursor → Option Outcome
  | 0, _, _, _ => none
  | fuel + 1, 0, _, c => c.cutOffWithin fuel
  | fuel + 1, n + 1, k, c => k.rule.runWithin fuel (parseWithin fuel n) c

/-- Parses a list of tokens as a file, if a number of steps is enough for it. -/
def parseWithin (fuel : Nat) (ts : List Token) : Option Parsed :=
  (Rule.file.runWithin fuel (Construct.parseWithin fuel maxDepth) ⟨0, ts⟩).map fun o =>
    ⟨.node .sourceFile o.trees, o.problems⟩

/-! ## Enough steps -/

namespace Token

theorem peekWithin_eq_some (skip : Kind → Bool) {fuel : Nat} {c : Cursor}
    (h : c.rest.length ≤ fuel) : peekWithin skip fuel c.rest = some (c.peek skip) := by
  unfold Cursor.peek
  generalize c.rest = ts at h ⊢
  induction ts generalizing fuel with
  | nil => simp [peekWithin]
  | cons t ts ih =>
    obtain ⟨n, rfl⟩ : ∃ n, fuel = n + 1 := ⟨fuel - 1, by simp at h; omega⟩
    rw [peekWithin, List.find?_cons]
    cases ht : t.isTrivia || skip t.kind with
    | true => exact ih (Nat.le_of_succ_le_succ h)
    | false => rfl

theorem swallowWithin_eq_some {fuel : Nat} (depth : Nat) {ts : List Token}
    (h : ts.length ≤ fuel) : swallowWithin fuel depth ts = some (swallow depth ts) := by
  induction ts generalizing fuel depth with
  | nil => simp [swallowWithin, swallow]
  | cons t ts ih =>
    obtain ⟨n, rfl⟩ : ∃ n, fuel = n + 1 := ⟨fuel - 1, by simp at h; omega⟩
    have ih : ∀ depth, swallowWithin n depth ts = some (swallow depth ts) :=
      fun depth => ih depth (Nat.le_of_succ_le_succ h)
    rw [swallowWithin]
    simp only [swallow, ih, Option.map_some]
    split
    · cases swallow depth ts with
      | zero => rfl
      | succ m => rfl
    split
    · rfl
    split
    · rcases depth with _ | _ | d
      · rfl
      · rfl
      · rfl
    split
    · rfl
    · rfl

end Token

theorem Cursor.cutOffWithin_eq_some {fuel : Nat} {c : Cursor} (h : c.rest.length ≤ fuel) :
    c.cutOffWithin fuel = some c.cutOff := by
  have hgap : c.gap.cursor.rest.length ≤ fuel :=
    Nat.le_trans (c.take_covers _).rest_length_le h
  rw [cutOffWithin, Token.swallowWithin_eq_some 0 hgap]
  rfl

/-- A repetition is over in time, since every pass takes a token. -/
theorem Cursor.repeatWithin_eq_some {test : Cursor → Bool} {body : Cursor → Outcome}
    {body' : Cursor → Option Outcome} {c : Cursor} {fuel : Nat}
    (htakes : ∀ c, test c = true → (body c).cursor.rest.length < c.rest.length)
    (hbody : ∀ c' : Cursor, c'.rest.length ≤ c.rest.length → test c' = true →
      body' c' = some (body c'))
    (h : c.rest.length ≤ fuel) :
    c.repeatWithin test body' fuel = some (c.repeatWhile test body c.rest.length) := by
  rw [repeatWhile_eq htakes]
  induction fuel generalizing c with
  | zero =>
    have hstop : test c = false := Bool.eq_false_iff.mpr fun ht => by
      have hlt := htakes c ht
      omega
    simp [repeatWithin, hstop]
  | succ n ih =>
    rw [repeatWithin]
    split
    · next ht =>
      have hlt := htakes c ht
      have hrest := ih (c := (body c).cursor)
        (fun c' hle => hbody c' (Nat.le_trans hle (Nat.le_of_lt hlt))) (by omega)
      rw [hbody c (Nat.le_refl _) ht, Option.bind_some, hrest, ← repeatWhile_eq htakes]
      rfl
    · rfl

theorem Outcome.wrapWithin_eq_some {wrap : Kind → Option Kind} {next : Kind → Cursor → Outcome}
    {next' : Kind → Cursor → Option Outcome} {o : Outcome} {fuel : Nat}
    (htakes : ∀ c k, wrap c.current = some k →
      (next c.current c).cursor.rest.length < c.rest.length)
    (hnext : ∀ (c : Cursor) (k : Kind), c.rest.length ≤ o.cursor.rest.length →
      wrap c.current = some k → next' c.current c = some (next c.current c))
    (h : o.cursor.rest.length ≤ fuel) :
    o.wrapWithin wrap next' fuel = some (o.wrapAll wrap next) := by
  induction fuel generalizing o with
  | zero =>
    cases hw : wrap o.cursor.current with
    | none => simp [wrapWithin, hw, wrapAll_of_stop hw]
    | some k =>
      have hlt := htakes o.cursor k hw
      omega
  | succ n ih =>
    cases hw : wrap o.cursor.current with
    | none => simp [wrapWithin, hw, wrapAll_of_stop hw]
    | some k =>
      have hlt := htakes o.cursor k hw
      rw [wrapAll_of_wrap htakes hw, wrapWithin]
      simp only [hw]
      rw [hnext o.cursor k (Nat.le_refl _) hw, Option.bind_some]
      refine ih (o := (o.andThen (next o.cursor.current)).enclose k)
        (fun c k hle => hnext c k (Nat.le_trans hle (Nat.le_of_lt hlt))) ?_
      show (next o.cursor.current o.cursor).cursor.rest.length ≤ n
      omega

/-- Steps for all tokens are enough for a rule, if they are for the constructs it goes down to. -/
theorem Rule.runWithin_eq_some {deeper : Construct → Cursor → Outcome}
    {deeper' : Construct → Cursor → Option Outcome} {fuel bound : Nat}
    (hdeeper : ∀ k c, (deeper k c).Covers c)
    (hnest : ∀ (k : Construct) (c : Cursor), c.rest.length < bound →
      deeper' k c = some (deeper k c))
    {r : Rule} (hprod : r.Productive deeper) {c : Cursor} (hbelow : r.NestsBelow deeper bound c)
    (hfuel : c.rest.length ≤ fuel) : r.runWithin fuel deeper' c = some (r.run deeper c) := by
  induction r generalizing c with
  | done | gap | bump | report => rfl
  | seq a b iha ihb =>
    have hle := run_rest_length_le hdeeper a c
    rw [runWithin, iha hprod.1 hbelow.1 hfuel, Option.bind_some,
      ihb hprod.2 hbelow.2 (Nat.le_trans hle hfuel)]
    rfl
  | node k body ih =>
    have hle : c.gap.cursor.rest.length ≤ c.rest.length := (c.take_covers _).rest_length_le
    rw [runWithin, ih hprod hbelow (Nat.le_trans hle hfuel)]
    rfl
  | look skip next ih =>
    rw [runWithin, Token.peekWithin_eq_some skip hfuel, Option.bind_some]
    exact ih _ (hprod _) hbelow hfuel
  | loop test body ih =>
    exact Cursor.repeatWithin_eq_some hprod.2
      (fun c' hle ht => ih hprod.1 (hbelow c' hle ht) (Nat.le_trans hle hfuel)) hfuel
  | chain first wrap next ihf ihn =>
    have hle := run_rest_length_le hdeeper first c
    rw [runWithin, ihf hprod.1 hbelow.1 hfuel, Option.bind_some]
    refine Outcome.wrapWithin_eq_some hprod.wrap_takes (fun c' k hle' hk => ?_)
      (Nat.le_trans hle hfuel)
    -- No pass starts before the place where the first rule ended, so the same steps will do.
    have hle' := Nat.le_trans hle' hle
    exact ihn _ (hprod.2.2 _).1 (hbelow.2 c' k hle' hk) (Nat.le_trans hle' hfuel)
  | progress body f ih =>
    rw [runWithin, ih hprod.1 hbelow hfuel]
    rfl
  | nest k => exact hnest k c hbelow

/-- More steps than tokens left are enough for a construct, whatever the limit on the nesting. -/
theorem Construct.parseWithin_eq_some {fuel : Nat} (n : Nat) (k : Construct) {c : Cursor}
    (h : c.rest.length < fuel) : parseWithin fuel n k c = some (parse n k c) := by
  induction fuel generalizing n k c with
  | zero => exact absurd h (Nat.not_lt_zero _)
  | succ fuel ih =>
    have hfuel := Nat.le_of_lt_succ h
    cases n with
    | zero => exact Cursor.cutOffWithin_eq_some hfuel
    | succ n =>
      exact Rule.runWithin_eq_some (parse_covers n)
        (fun k c' hlt => ih n k (Nat.lt_of_lt_of_le hlt hfuel)) (productive n k)
        (nestsBelow (parse_covers n) k c) hfuel

/-! ## Enough levels -/

/-- What a rule does depends only on what constructs do where it goes down to them. -/
theorem Rule.run_congr {deeper deeper' : Construct → Cursor → Outcome} {bound : Nat}
    (hcovers : ∀ k c, (deeper k c).Covers c) (hcovers' : ∀ k c, (deeper' k c).Covers c)
    (hsame : ∀ (k : Construct) (c : Cursor), c.rest.length < bound → deeper k c = deeper' k c)
    {r : Rule} (hprod : r.Productive deeper) (hprod' : r.Productive deeper') {c : Cursor}
    (hbelow : r.NestsBelow deeper bound c) (hbelow' : r.NestsBelow deeper' bound c) :
    r.run deeper c = r.run deeper' c := by
  let answer : Construct → Cursor → Option Outcome := fun k c => some (deeper k c)
  have hrun : r.runWithin c.rest.length answer c = some (r.run deeper c) :=
    runWithin_eq_some hcovers (fun _ _ _ => rfl) hprod hbelow (Nat.le_refl _)
  have hrun' : r.runWithin c.rest.length answer c = some (r.run deeper' c) :=
    runWithin_eq_some hcovers' (fun k c hlt => congrArg some (hsame k c hlt)) hprod' hbelow'
      (Nat.le_refl _)
  exact Option.some.inj (hrun.symm.trans hrun')

/-- A limit on the nesting above the number of tokens left is no limit. -/
theorem Construct.parse_eq_of_lt {n m : Nat} (k : Construct) {c : Cursor} (hn : c.rest.length < n)
    (hm : c.rest.length < m) : parse n k c = parse m k c := by
  induction n generalizing m k c with
  | zero => exact absurd hn (Nat.not_lt_zero _)
  | succ n ih =>
    obtain ⟨m, rfl⟩ : ∃ m', m = m' + 1 := ⟨m - 1, by omega⟩
    refine Rule.run_congr (parse_covers n) (parse_covers m) (fun k c' hlt => ?_) (productive n k)
      (productive m k) (nestsBelow (parse_covers n) k c) (nestsBelow (parse_covers m) k c)
    exact ih k (by omega) (by omega)

/-! ## Whole texts -/

/-- A class of a file is parsed at the first token, with no more tokens left than the file has. -/
theorem Rule.nestsBelow_file {deeper : Construct → Cursor → Outcome}
    (hdeeper : ∀ k c, (deeper k c).Covers c) (c : Cursor) :
    file.NestsBelow deeper (c.rest.length + 1) c :=
  nestsBelow_of_lt hdeeper file (Nat.lt_succ_self _)

/-- More steps than tokens are enough for a file. -/
theorem parseWithin_eq_some {fuel : Nat} {ts : List Token} (h : ts.length < fuel) :
    parseWithin fuel ts = some (parseTokens ts) := by
  have hd := Construct.lively maxDepth
  rw [parseWithin, Rule.runWithin_eq_some hd.covers
    (fun k c hlt => Construct.parseWithin_eq_some maxDepth k (Nat.lt_of_lt_of_le hlt h))
    (Rule.productive_file hd) (Rule.nestsBelow_file hd.covers ⟨0, ts⟩) (Nat.le_of_lt h)]
  rfl

/-- Parsing ends on every list of tokens. Every pass of every repetition takes a token, in every
construct at every level and in a file; inside a construct, others are nested only behind a token
that it has taken; so more steps than there are tokens are enough for everything, and the result is
the same however many more there are. The end of the input is reached. -/
theorem parse_terminates (ts : List Token) :
    (∀ n, Rule.file.Productive (Construct.parse n) ∧
      ∀ k : Construct, k.rule.Productive (Construct.parse n)) ∧
    (∀ n (k : Construct) (c : Cursor),
      k.rule.NestsBelow (Construct.parse n) c.rest.length c) ∧
    (∀ fuel, ts.length < fuel → parseWithin fuel ts = some (parseTokens ts)) ∧
    ((∀ t ∈ ts, t.kind ≠ .eof) →
      (Rule.file.run (Construct.parse maxDepth) ⟨0, ts⟩).cursor.rest = []) := by
  refine ⟨fun n => ⟨Rule.productive_file (Construct.lively n), Construct.productive n⟩,
    fun n k c => Construct.nestsBelow (Construct.parse_covers n) k c,
    fun fuel => parseWithin_eq_some, fun hts => ?_⟩
  exact Rule.rest_run_file (Construct.lively maxDepth) hts

/-- Steps for the tokens of an unfinished class are enough, though nothing closes it. -/
theorem parse_terminates_of_unclosed :
    let ts := Token.scan "class A \x7b function f( \x7b )"
    parseWithin (ts.length + 1) ts = some (parseTokens ts) ∧
      (Rule.file.run (Construct.parse maxDepth) ⟨0, ts⟩).cursor.rest = [] :=
  ⟨(parse_terminates _).2.2.1 _ (Nat.lt_succ_self _),
    (parse_terminates _).2.2.2 fun _ => Token.kind_ne_eof_of_mem_scan⟩

end ClassNav
