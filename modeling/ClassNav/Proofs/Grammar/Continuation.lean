import ClassNav.Proofs.Grammar.Trivia
import ClassNav.Proofs.Grammar.Unlimited
import ClassNav.Proofs.Outline.Layout

/-!
# What stands behind correct classes

Correct classes are parsed the same, whatever stands behind them (`parse_append`).

* `Rule.isSettled`: a rule looks no further than the next word, and one word more behind a comma. So
  where it reports nothing, and what it leaves is not `Cursor.Spent`, it does the same if there are
  more tokens behind the end (`Rule.run_moved`).
* `Rule.seals`: a rule ends with a word that it has seen, so that it does the same even if it leaves
  nothing (`Rule.run_moved_of_seals`). A class does, and so a file of classes can be cut behind any
  of them (`Rule.run_file_moved`).
-/

namespace ClassNav

/-! ## Other surroundings -/

/-- A problem with `d` more bytes before it. -/
def Problem.shift (d : Nat) (p : Problem) : Problem := ⟨p.fault, p.start + d, p.stop + d⟩

/-- A cursor with `d` more bytes before it and some more tokens behind the end. -/
def Cursor.moved (d : Nat) (us : List Token) (c : Cursor) : Cursor := ⟨c.offset + d, c.rest ++ us⟩

/-- An outcome with `d` more bytes before it and some more tokens behind the end. -/
def Outcome.moved (d : Nat) (us : List Token) (o : Outcome) : Outcome :=
  ⟨o.trees, o.problems.map (.shift d), o.cursor.moved d us⟩

/-- There are no words in front, or just a comma: a rule may look behind the end. -/
def Cursor.Spent (c : Cursor) : Prop := c.kinds <:+ [.comma]

/-- There are no tokens behind the end, or the next word is before it. -/
def Cursor.Ahead (us : List Token) (c : Cursor) : Prop := us = [] ∨ c.kinds ≠ []

/-- There are no tokens behind the end, or what is before it was parsed without problems and without
a look behind it. -/
def Outcome.Closed (us : List Token) (o : Outcome) : Prop :=
  us = [] ∨ o.Clean ∧ ¬ o.cursor.Spent

theorem Token.takeWhile_append {ts : List Token} (h : kinds ts ≠ []) (us : List Token) :
    (ts ++ us).takeWhile isTrivia = ts.takeWhile isTrivia := by
  induction ts with
  | nil => exact absurd rfl h
  | cons t ts ih =>
    rw [List.cons_append]
    cases ht : t.isTrivia with
    | true =>
      rw [kinds_cons, if_pos ht] at h
      rw [List.takeWhile_cons_of_pos ht, List.takeWhile_cons_of_pos ht, ih h]
    | false =>
      have ht : ¬ t.isTrivia = true := by simp [ht]
      rw [List.takeWhile_cons_of_neg ht, List.takeWhile_cons_of_neg ht]

theorem Outcome.Covers.kinds_suffix {o : Outcome} {c : Cursor} (h : o.Covers c) :
    o.cursor.kinds <:+ c.kinds := by
  rw [Cursor.kinds, Cursor.kinds, ← h, Token.kinds_append]
  exact List.suffix_append _ _

namespace Cursor

variable {d : Nat} {us : List Token} {c : Cursor}

theorem spent_iff : c.Spent ↔ c.kinds = [] ∨ c.kinds = [.comma] := by
  rw [Spent, List.suffix_cons_iff, List.suffix_nil, or_comm]

theorem kinds_ne_nil_of_not_spent (h : ¬ c.Spent) : c.kinds ≠ [] :=
  fun hnil => h (spent_iff.mpr (.inl hnil))

theorem kinds_moved (d : Nat) (us : List Token) (c : Cursor) :
    (c.moved d us).kinds = c.kinds ++ Token.kinds us :=
  Token.kinds_append c.rest us

theorem rest_moved_nil (d : Nat) (c : Cursor) : (c.moved d []).rest = c.rest :=
  List.append_nil c.rest

theorem takeWhile_moved (d : Nat) (h : c.Ahead us) :
    (c.moved d us).rest.takeWhile Token.isTrivia = c.rest.takeWhile Token.isTrivia := by
  rcases h with rfl | hkinds
  · rw [rest_moved_nil]
  · exact Token.takeWhile_append hkinds us

theorem triviaCount_moved (d : Nat) (h : c.Ahead us) :
    (c.moved d us).triviaCount = c.triviaCount :=
  congrArg List.length (takeWhile_moved d h)

theorem triviaCount_lt (h : c.kinds ≠ []) : c.triviaCount < c.rest.length := by
  by_contra hle
  have hnil : c.gap.cursor.rest = [] := List.drop_eq_nil_of_le (by omega)
  exact h (by rw [← kinds_gap, kinds, hnil, Token.kinds_nil])

theorem current_moved (d : Nat) (h : c.Ahead us) : (c.moved d us).current = c.current := by
  rw [current_eq, current_eq, kinds_moved]
  rcases h with rfl | hkinds
  · rw [Token.kinds_nil, List.append_nil]
  · obtain ⟨k, ks, hcons⟩ := List.exists_cons_of_ne_nil hkinds
    rw [hcons]
    rfl

theorem take_moved (d : Nat) {n : Nat} (h : us = [] ∨ n ≤ c.rest.length) :
    (c.moved d us).take n = (c.take n).moved d us := by
  have htake : (c.rest ++ us).take n = c.rest.take n := by
    rcases h with rfl | hn
    · rw [List.append_nil]
    · rw [List.take_append_of_le_length hn]
  have hdrop : (c.rest ++ us).drop n = c.rest.drop n ++ us := by
    rcases h with rfl | hn
    · rw [List.append_nil, List.append_nil]
    · rw [List.drop_append_of_le_length hn]
  simp only [take, advance, moved, Outcome.moved, htake, hdrop, List.map_nil, Nat.add_right_comm]

theorem gap_moved (d : Nat) (h : c.Ahead us) : (c.moved d us).gap = c.gap.moved d us := by
  rw [gap, triviaCount_moved d h]
  exact take_moved d (.inr (List.takeWhile_prefix _).length_le)

/-- A word that is ahead is taken in the same way in a longer text, only further on. -/
theorem bump_moved (d : Nat) (h : c.Ahead us) : (c.moved d us).bump = c.bump.moved d us := by
  rw [bump, triviaCount_moved d h]
  exact take_moved d (h.imp id triviaCount_lt)

theorem location_moved (d : Nat) (h : c.Ahead us) :
    (c.moved d us).location = (c.location.1 + d, c.location.2 + d) := by
  have htake : ((c.moved d us).rest.drop c.triviaCount).take 1 =
      (c.rest.drop c.triviaCount).take 1 := by
    rcases h with rfl | hkinds
    · rw [rest_moved_nil]
    · have hlt := triviaCount_lt hkinds
      rw [moved, List.drop_append_of_le_length (Nat.le_of_lt hlt),
        List.take_append_of_le_length (by rw [List.length_drop]; omega)]
  simp only [location, takeWhile_moved d h, triviaCount_moved d h, htake]
  simp only [moved, Nat.add_right_comm]

/-- A fault ahead is reported at the same token of a longer text. -/
theorem report_moved (f : Fault) (d : Nat) (h : c.Ahead us) :
    (c.moved d us).report f = (c.report f).moved d us := by
  rw [report, location_moved d h]
  rfl

theorem peek_moved {skip : Kind → Bool} (d : Nat) (h : us = [] ∨ c.peek skip ≠ .eof) :
    (c.moved d us).peek skip = c.peek skip := by
  rcases h with rfl | hne
  · rw [peek, peek, rest_moved_nil]
  · have hsome : (c.rest.find? fun t => !(t.isTrivia || skip t.kind)).isSome := by
      by_contra hnone
      rw [Option.not_isSome_iff_eq_none] at hnone
      exact hne (by rw [peek, hnone]; rfl)
    obtain ⟨t, ht⟩ := Option.isSome_iff_exists.mp hsome
    rw [peek, peek, moved, List.find?_append, ht]
    rfl

/-- What is not spent is seen the same, as far as a test asks for a second word only behind a
comma. -/
theorem test_moved {test : Kind → Kind → Bool} (d : Nat)
    (htest : ∀ k j, k ≠ .comma → test k j = test k .eof) (h : us = [] ∨ ¬ c.Spent) :
    test (c.moved d us).current (c.moved d us).second = test c.current c.second := by
  rcases h with rfl | hspent
  · rw [current_eq, current_eq, second_eq, second_eq, kinds, rest_moved_nil]
    rfl
  · rw [current_eq, current_eq, second_eq, second_eq, kinds_moved]
    rcases hks : c.kinds with _ | ⟨k, _ | ⟨j, ks⟩⟩
    · exact absurd hks (kinds_ne_nil_of_not_spent hspent)
    · have hk : k ≠ .comma := fun heq => hspent (spent_iff.mpr (.inr (by rw [hks, heq])))
      exact htest k _ hk
    · rfl

end Cursor

/-! ## Outcomes that what stands behind does not change -/

namespace Outcome

variable {d : Nat} {us : List Token} {c : Cursor} {o : Outcome}

theorem Closed.not_spent (h : o.Closed us) (hcovers : o.Covers c) : us = [] ∨ ¬ c.Spent :=
  h.imp id fun h hspent => h.2 (hcovers.kinds_suffix.trans hspent)

theorem Closed.ahead (h : o.Closed us) (hcovers : o.Covers c) : c.Ahead us :=
  (h.not_spent hcovers).imp id Cursor.kinds_ne_nil_of_not_spent

theorem Closed.of_andThen {next : Cursor → Outcome} (h : (o.andThen next).Closed us)
    (hcovers : (next o.cursor).Covers o.cursor) : o.Closed us ∧ (next o.cursor).Closed us := by
  rcases h with rfl | ⟨hclean, hspent⟩
  · exact ⟨.inl rfl, .inl rfl⟩
  · obtain ⟨ho, hnext⟩ := List.append_eq_nil_iff.mp hclean
    exact ⟨.inr ⟨ho, fun h => hspent (hcovers.kinds_suffix.trans h)⟩, .inr ⟨hnext, hspent⟩⟩

theorem Closed.of_enclose {k : Kind} (h : (o.enclose k).Closed us) : o.Closed us := h

theorem Closed.of_wrapWhile {wrap : Kind → Option Kind} {next : Kind → Cursor → Outcome}
    (hcovers : ∀ k c, (next k c).Covers c) {n : Nat} (h : (o.wrapWhile wrap next n).Closed us) :
    o.Closed us := by
  induction n generalizing o with
  | zero => exact h
  | succ n ih =>
    unfold Outcome.wrapWhile at h
    split at h
    · exact h
    · exact ((ih h).of_enclose.of_andThen (hcovers _ _)).1

theorem moved_andThen {next : Cursor → Outcome}
    (hnext : next (o.cursor.moved d us) = (next o.cursor).moved d us) :
    (o.moved d us).andThen next = (o.andThen next).moved d us := by
  simp only [andThen, moved, hnext, List.map_append]

theorem moved_enclose (k : Kind) : (o.moved d us).enclose k = (o.enclose k).moved d us := rfl

theorem wrapAll_moved {wrap : Kind → Option Kind} {next : Kind → Cursor → Outcome}
    (hcovers : ∀ k c, (next k c).Covers c)
    (htakes : ∀ c k, wrap c.current = some k →
      (next c.current c).cursor.rest.length < c.rest.length)
    (hnext : ∀ k c, (next k c).Closed us → next k (c.moved d us) = (next k c).moved d us)
    (h : (o.wrapAll wrap next).Closed us) :
    (o.moved d us).wrapAll wrap next = (o.wrapAll wrap next).moved d us := by
  induction hn : o.cursor.rest.length using Nat.strong_induction_on generalizing o with
  | _ n ih =>
    have hcurrent : (o.moved d us).cursor.current = o.cursor.current :=
      Cursor.current_moved d
        ((h.of_wrapWhile hcovers).imp id fun h => Cursor.kinds_ne_nil_of_not_spent h.2)
    cases hk : wrap o.cursor.current with
    | none => rw [wrapAll_of_stop hk, wrapAll_of_stop (by rw [hcurrent, hk])]
    | some k =>
      rw [wrapAll_of_wrap htakes hk] at h ⊢
      rw [wrapAll_of_wrap htakes (by rw [hcurrent, hk]), hcurrent]
      obtain ⟨_, hpass⟩ := (h.of_wrapWhile hcovers).of_enclose.of_andThen (hcovers _ _)
      rw [moved_andThen (hnext _ _ hpass), moved_enclose]
      exact ih _ (hn ▸ htakes _ _ hk) h rfl

end Outcome

theorem Cursor.refuse_moved (f : Fault) (n : List Token → Nat) (d : Nat) (c : Cursor) :
    (c.moved d []).refuse f n = (c.refuse f n).moved d [] := by
  rw [refuse, report_moved f d (.inl rfl)]
  refine Outcome.moved_andThen ?_
  rw [show (c.report f).cursor = c from rfl, gap_moved d (.inl rfl)]
  refine Outcome.moved_andThen ?_
  rw [rest_moved_nil, take_moved d (.inl rfl), Outcome.moved_enclose]

/-! ## Rules that look no further than they go -/

namespace Rule

/-- Whether a rule always reports something. -/
def faults : Rule → Bool
  | report _ => true
  | seq a b => a.faults || b.faults
  | _ => false

/-- Whether a rule decides by the next word only, or by one word more behind a comma; what skips
words reports something if it finds no other word behind them. -/
def isSettled : Rule → Bool
  | seq a b => a.isSettled && b.isSettled
  | node _ body => body.isSettled
  | look skip next => (Kind.all.all fun k => (next k).isSettled) &&
      ((next .eof).faults || Kind.all.all fun k => !skip k)
  | loop test body => body.isSettled && Kind.all.all fun k => k == .comma ||
      Kind.all.all fun j => test k j == test k .eof
  | chain first _ next => first.isSettled && Kind.all.all fun k => (next k).isSettled
  | progress body _ => body.isSettled
  | _ => true

variable {deeper : Construct → Cursor → Outcome} {d : Nat} {us : List Token} {r : Rule} {c : Cursor}

theorem not_clean_of_faults (hr : r.faults = true) : ¬ (r.run deeper c).Clean := by
  induction r generalizing c with
  | report f => exact nofun
  | seq a b iha ihb =>
    intro hclean
    obtain ⟨hca, hcb⟩ := List.append_eq_nil_iff.mp hclean
    exact (Bool.or_eq_true_iff.mp hr).elim (iha · hca) (ihb · hcb)
  | _ => cases hr

/-- A look that was not spent sees the same if there are more tokens behind the end. -/
theorem peek_moved_of_isSettled {skip : Kind → Bool} {next : Kind → Rule}
    (hr : (look skip next).isSettled = true) (hcovers : ∀ k c, (deeper k c).Covers c)
    (h : ((look skip next).run deeper c).Closed us) :
    (c.moved d us).peek skip = c.peek skip := by
  obtain ⟨_, hr⟩ := Bool.and_eq_true_iff.mp hr
  rcases Bool.or_eq_true_iff.mp hr with hfaults | hskip
  · -- Words that are skipped up to the end are reported.
    refine Cursor.peek_moved d (h.imp id fun ⟨hclean, _⟩ heof => ?_)
    rw [Outcome.Clean, run, heof] at hclean
    exact not_clean_of_faults hfaults hclean
  · have hskip : ∀ c : Cursor, c.peek skip = c.current := fun c =>
      Cursor.peek_of_not_skip (by simpa using List.all_eq_true.mp hskip _ (Kind.mem_all c.current))
    rw [hskip, hskip, Cursor.current_moved d (h.ahead (run_covers hcovers _ c))]

theorem test_eq_of_isSettled {test : Kind → Kind → Bool}
    (h : (Kind.all.all fun k => k == .comma ||
      Kind.all.all fun j => test k j == test k .eof) = true) (k j : Kind) (hk : k ≠ .comma) :
    test k j = test k .eof := by
  have hall := List.all_eq_true.mp h k (Kind.mem_all k)
  rw [beq_false_of_ne hk, Bool.false_or] at hall
  exact eq_of_beq (List.all_eq_true.mp hall j (Kind.mem_all j))

/-- A repetition that comes to its end before the seam makes the same passes in a longer text. -/
theorem loop_moved {test : Kind → Kind → Bool} {body : Rule}
    (hcovers : ∀ k c, (deeper k c).Covers c) (hprod : (loop test body).Productive deeper)
    (htest : ∀ k j, k ≠ .comma → test k j = test k .eof)
    (hbody : ∀ c, (body.run deeper c).Closed us →
      body.run deeper (c.moved d us) = (body.run deeper c).moved d us)
    (h : ((loop test body).run deeper c).Closed us) :
    (loop test body).run deeper (c.moved d us) = ((loop test body).run deeper c).moved d us := by
  induction hn : c.rest.length using Nat.strong_induction_on generalizing c with
  | _ n ih =>
    have hsame := Cursor.test_moved d htest (h.not_spent (run_covers hcovers _ c))
    rw [run_loop hprod c] at h ⊢
    rw [run_loop hprod (c.moved d us), hsame]
    split
    · next ht =>
      rw [if_pos ht] at h
      obtain ⟨hpass, hrest⟩ := h.of_andThen (run_covers hcovers _ _)
      rw [hbody c hpass]
      exact Outcome.moved_andThen (ih _ (hn ▸ hprod.2 c ht) hrest rfl)
    · rfl

/-- Where a rule reports nothing and what it leaves is not spent, it does the same before more
tokens, provided that constructs do one level deeper. Where there are no more tokens, it always
does the same. -/
theorem run_moved (hcovers : ∀ k c, (deeper k c).Covers c)
    (hdeeper : ∀ k c, (deeper k c).Closed us → deeper k (c.moved d us) = (deeper k c).moved d us)
    (hr : r.isSettled = true) (hprod : r.Productive deeper) (h : (r.run deeper c).Closed us) :
    r.run deeper (c.moved d us) = (r.run deeper c).moved d us := by
  induction r generalizing c with
  | done => rfl
  | gap => exact Cursor.gap_moved d (h.ahead (c.take_covers _))
  | bump => exact Cursor.bump_moved d (h.ahead (c.take_covers _))
  | report f => exact Cursor.report_moved f d (h.ahead (c.report_covers f))
  | seq a b iha ihb =>
    obtain ⟨ha, hb⟩ := Bool.and_eq_true_iff.mp hr
    obtain ⟨hca, hcb⟩ := h.of_andThen (run_covers hcovers b _)
    rw [run, iha ha hprod.1 hca]
    exact Outcome.moved_andThen (ihb hb hprod.2 hcb)
  | node k body ih =>
    have hahead := h.ahead (run_covers hcovers (node k body) c)
    obtain ⟨_, hbody⟩ := h.of_andThen ((run_covers hcovers body _).enclose k)
    rw [run, Cursor.gap_moved d hahead]
    refine Outcome.moved_andThen ?_
    rw [ih hr hprod hbody, Outcome.moved_enclose]
  | look skip next ih =>
    have hnext := List.all_eq_true.mp (Bool.and_eq_true_iff.mp hr).1 _ (Kind.mem_all (c.peek skip))
    rw [run, peek_moved_of_isSettled hr hcovers h]
    exact ih _ hnext (hprod _) h
  | loop test body ih =>
    obtain ⟨hbody, htest⟩ := Bool.and_eq_true_iff.mp hr
    exact loop_moved hcovers hprod (test_eq_of_isSettled htest) (fun c => ih hbody hprod.1) h
  | chain first wrap next ihf ihn =>
    obtain ⟨hf, hn⟩ := Bool.and_eq_true_iff.mp hr
    have hn := List.all_eq_true.mp hn
    have hfirst := h.of_wrapWhile fun k => run_covers hcovers (next k)
    rw [run, ihf hf hprod.1 hfirst]
    exact Outcome.wrapAll_moved (fun k => run_covers hcovers (next k)) hprod.wrap_takes
      (fun k c => ihn k (hn k (Kind.mem_all k)) (hprod.2.2 k).1) h
  | progress body f ih =>
    simp only [run] at h ⊢
    split at h
    · next heq =>
      -- A refused token is reported, so there may be no tokens behind the end.
      obtain rfl | ⟨hclean, _⟩ := h
      · rw [ih hr hprod.1 (.inl rfl), if_pos, if_pos heq]
        · refine Outcome.moved_andThen ?_
          rw [Cursor.reject_eq_refuse, Cursor.reject_eq_refuse, Cursor.refuse_moved]
        · rwa [Outcome.moved, Cursor.rest_moved_nil, Cursor.rest_moved_nil]
      · exact absurd (List.append_eq_nil_iff.mp hclean).2 (Cursor.problems_reject f _)
    · next hne =>
      rw [ih hr hprod.1 h, if_neg, if_neg hne]
      simpa [Outcome.moved, Cursor.moved] using hne
  | nest k => exact hdeeper k c h

end Rule

/-- No production looks further than one word behind a comma, unless it reports something. -/
theorem Construct.isSettled_rule (k : Construct) : k.rule.isSettled = true := by
  cases k <;> decide +kernel

/-- A construct that ends before the seam is parsed as if the text ended there. -/
theorem Construct.parse_moved {d : Nat} {us : List Token} (n : Nat) (k : Construct) (c : Cursor)
    (h : (parse n k c).Closed us) : parse n k (c.moved d us) = (parse n k c).moved d us := by
  induction n generalizing k c with
  | zero =>
    obtain rfl | ⟨hclean, _⟩ := h
    · exact c.refuse_moved _ _ d
    · exact absurd hclean c.problems_cutOff
  | succ n ih => exact Rule.run_moved (parse_covers n) ih k.isSettled_rule (productive n k) h

/-! ## Rules that end with a word they have seen -/

namespace Rule

/-- Whether a rule that reports nothing is sure to take a word last that it has seen, or that has
been `seen` before it, and that is no comma. -/
def seals : (seen : Bool) → Rule → Bool
  | seen, bump => seen
  | _, report _ => true
  | _, seq _ b => b.seals false
  | seen, node _ body => body.seals seen
  | _, look skip next => Kind.all.all fun k =>
      !skip k && (next k).seals (k != .eof && k != .comma)
  | _, _ => false

variable {deeper : Construct → Cursor → Outcome} {seen : Bool} {d : Nat} {us : List Token}
  {r : Rule} {c : Cursor}

theorem seals_look {skip : Kind → Bool} {next : Kind → Rule}
    (hr : (look skip next).seals seen = true) (c : Cursor) :
    c.peek skip = c.current ∧
      (next c.current).seals (c.current != .eof && c.current != .comma) = true := by
  obtain ⟨hskip, hnext⟩ :=
    Bool.and_eq_true_iff.mp (List.all_eq_true.mp hr _ (Kind.mem_all c.current))
  exact ⟨Cursor.peek_of_not_skip (by simpa using hskip), hnext⟩

theorem not_spent_of_current {c : Cursor} (h : (c.current != .eof && c.current != .comma) = true) :
    ¬ c.Spent := by
  intro hspent
  rw [Cursor.current_eq] at h
  rcases Cursor.spent_iff.mp hspent with hks | hks <;> rw [hks] at h <;> cases h

/-- A rule that ends with a word starts before one. -/
theorem not_spent_of_seals (hcovers : ∀ k c, (deeper k c).Covers c) (hr : r.seals seen = true)
    (hseen : seen = true → ¬ c.Spent) (hclean : (r.run deeper c).Clean) : ¬ c.Spent := by
  induction r generalizing seen c with
  | bump => exact hseen hr
  | report f => cases hclean
  | seq a b _ ihb =>
    have hb := ihb hr nofun (List.append_eq_nil_iff.mp hclean).2
    exact fun hspent => hb ((run_covers hcovers a c).kinds_suffix.trans hspent)
  | node k body ih =>
    have hgap : c.gap.cursor.Spent ↔ c.Spent := by rw [Cursor.Spent, Cursor.Spent, c.kinds_gap]
    rw [← hgap] at hseen ⊢
    exact ih hr hseen (List.append_eq_nil_iff.mp hclean).2
  | look skip next ih =>
    obtain ⟨hpeek, hnext⟩ := seals_look hr c
    rw [Outcome.Clean, run, hpeek] at hclean
    exact ih _ hnext not_spent_of_current hclean
  | _ => cases hr

/-- A rule that takes a word for sure, and has seen which, was in front of the seam. -/
theorem ahead_of_seals (hcovers : ∀ k c, (deeper k c).Covers c) (hr : r.seals seen = true)
    (hseen : seen = true → ¬ c.Spent) (hclean : (r.run deeper c).Clean) : c.Ahead us :=
  .inr (Cursor.kinds_ne_nil_of_not_spent (not_spent_of_seals hcovers hr hseen hclean))

/-- Where a rule reports nothing and ends with a word it has seen, it does the same before more
tokens, even if it leaves none. -/
theorem run_moved_of_seals (hcovers : ∀ k c, (deeper k c).Covers c)
    (hdeeper : ∀ k c, (deeper k c).Closed us → deeper k (c.moved d us) = (deeper k c).moved d us)
    (hsettled : r.isSettled = true) (hprod : r.Productive deeper) (hr : r.seals seen = true)
    (hseen : seen = true → ¬ c.Spent) (hclean : (r.run deeper c).Clean) :
    r.run deeper (c.moved d us) = (r.run deeper c).moved d us := by
  induction r generalizing seen c with
  | bump => exact Cursor.bump_moved d (ahead_of_seals hcovers hr hseen hclean)
  | report f => exact Cursor.report_moved f d (ahead_of_seals hcovers hr hseen hclean)
  | seq a b _ ihb =>
    obtain ⟨ha, hb⟩ := Bool.and_eq_true_iff.mp hsettled
    obtain ⟨hca, hcb⟩ := List.append_eq_nil_iff.mp hclean
    have hseals : b.seals false = true := hr
    -- What comes first is followed by a word, so that it has not looked behind the end.
    have hspent := not_spent_of_seals hcovers hseals (absurd · Bool.false_ne_true) hcb
    rw [run, run_moved hcovers hdeeper ha hprod.1 (.inr ⟨hca, hspent⟩)]
    exact Outcome.moved_andThen (ihb hb hprod.2 hseals (absurd · Bool.false_ne_true) hcb)
  | node k body ih =>
    have hgap : seen = true → ¬ c.gap.cursor.Spent := by rwa [Cursor.Spent, c.kinds_gap]
    rw [run, Cursor.gap_moved d (ahead_of_seals hcovers hr hseen hclean)]
    refine Outcome.moved_andThen ?_
    rw [ih hsettled hprod hr hgap (List.append_eq_nil_iff.mp hclean).2, Outcome.moved_enclose]
  | look skip next ih =>
    obtain ⟨hpeek, hnext⟩ := seals_look hr c
    obtain ⟨hpeek', _⟩ := seals_look hr (c.moved d us)
    have hbody := List.all_eq_true.mp (Bool.and_eq_true_iff.mp hsettled).1 _
      (Kind.mem_all c.current)
    have hcurrent : (c.moved d us).current = c.current :=
      Cursor.current_moved d (ahead_of_seals hcovers hr hseen hclean)
    rw [Outcome.Clean, run, hpeek] at hclean
    rw [run, run, hpeek, hpeek', hcurrent]
    exact ih _ hbody (hprod _) hnext not_spent_of_current hclean
  | _ => cases hr

theorem seals_classDecl : classDecl.seals false = true := by decide +kernel

end Rule

/-- A class that is parsed without problems is parsed the same before more tokens. -/
theorem Construct.parse_classDecl_moved {d : Nat} {us : List Token} {n : Nat} {c : Cursor}
    (hclean : (parse n classDecl c).Clean) :
    parse n classDecl (c.moved d us) = (parse n classDecl c).moved d us := by
  cases n with
  | zero => exact absurd hclean c.problems_cutOff
  | succ n =>
    exact Rule.run_moved_of_seals (parse_covers n) (parse_moved n) (isSettled_rule classDecl)
      (productive n classDecl) Rule.seals_classDecl nofun hclean

/-! ## The trivia between classes -/

theorem Outcome.andThen_assoc (o : Outcome) (f g : Cursor → Outcome) :
    (o.andThen f).andThen g = o.andThen fun c => (f c).andThen g := by
  simp only [andThen, List.append_assoc]

namespace Cursor

variable {d : Nat} {us : List Token} {c : Cursor}

theorem gap_andThen_refuse (f : Fault) (n : List Token → Nat) (c : Cursor) :
    c.gap.andThen (refuse f n) = c.refuse f n := by
  simp only [refuse, report, Outcome.andThen, location_gap, gap_gap, stay, List.nil_append]
  rfl

theorem take_add (m n : Nat) (c : Cursor) : c.take (m + n) = (c.take m).andThen (take n) := by
  simp only [take, advance, Outcome.andThen, List.take_add, List.map_append, width_append,
    List.drop_drop, List.append_nil, Nat.add_assoc]

/-- Trivia is taken at once, or first that before a place and then that behind it. -/
theorem gap_moved_of_trivia (d : Nat) (h : ∀ t ∈ c.rest, t.isTrivia = true) :
    (c.moved d us).gap = (c.gap.moved d us).andThen gap := by
  have hcount : c.triviaCount = c.rest.length :=
    congrArg List.length (List.takeWhile_eq_self_iff.mpr h)
  have hmoved : (c.moved d us).triviaCount =
      c.triviaCount + (us.takeWhile Token.isTrivia).length := by
    rw [triviaCount, moved, List.takeWhile_append_of_pos h, List.length_append, hcount]
  have hrest : (c.gap.moved d us).cursor.triviaCount = (us.takeWhile Token.isTrivia).length := by
    show ((c.rest.drop c.triviaCount ++ us).takeWhile Token.isTrivia).length = _
    rw [hcount, List.drop_length, List.nil_append]
  rw [gap, hmoved, take_add, take_moved d (.inr (Nat.le_of_eq hcount)), ← hrest]
  rfl

end Cursor

namespace Rule

variable {deeper : Construct → Cursor → Outcome} {us : List Token} {c : Cursor} {n : Nat}

/-- Trivia may be taken before a rule looks ahead, which it does past them anyway. -/
theorem gap_andThen_look {skip : Kind → Bool} {next : Kind → Rule}
    (h : ∀ k, c.gap.andThen ((next k).run deeper) = (next k).run deeper c) :
    c.gap.andThen ((look skip next).run deeper) = (look skip next).run deeper c := by
  rw [run, ← h]
  refine Outcome.andThen_congr ?_
  rw [run, Cursor.peek_eq, Cursor.kinds_gap, ← Cursor.peek_eq]

theorem gap_andThen_node (k : Kind) (body : Rule) (c : Cursor) :
    c.gap.andThen ((node k body).run deeper) = (node k body).run deeper c :=
  Cursor.gap_andThen_of_gap (fun _ => rfl) c

theorem gap_andThen_topLevel (n : Nat) (c : Cursor) :
    c.gap.andThen (topLevel.run (Construct.parse n)) = topLevel.run (Construct.parse n) c := by
  have hclass : c.gap.andThen (Construct.parse n .classDecl) = Construct.parse n .classDecl c := by
    cases n with
    | zero => exact c.gap_andThen_refuse .nestingTooDeep (Token.swallow 0)
    | succ n => exact gap_andThen_node _ _ c
  refine gap_andThen_look fun k => ?_
  split
  · exact hclass
  · exact hclass
  · exact c.gap_andThen_refuse _ fun ts => (ts.takeWhile Token.isTrivia).length + 1

/-- A file is a class and a file, or the trivia at the end. -/
theorem run_file (hd : Lively deeper) (c : Cursor) :
    file.run deeper c = if c.current != .eof then (topLevel.run deeper c).andThen (file.run deeper)
      else c.gap := by
  show (declarations.run deeper c).andThen Cursor.gap = _
  rw [declarations, manyWhile, run_loop (productive_declarations hd)]
  split
  · exact Outcome.andThen_assoc _ _ _
  · rfl

/-- The trivia before the first class may be taken before the file is opened. -/
theorem gap_andThen_file (n : Nat) (c : Cursor) :
    c.gap.andThen (file.run (Construct.parse n)) = file.run (Construct.parse n) c := by
  have hd := Construct.lively n
  rw [run_file hd c]
  split
  · next h =>
    rw [← gap_andThen_topLevel, Outcome.andThen_assoc]
    refine Outcome.andThen_congr ?_
    rw [run_file hd, Cursor.current_gap, if_pos h]
  · next h =>
    have hstay : file.run (Construct.parse n) c.gap.cursor = c.gap.cursor.stay := by
      rw [run_file hd, Cursor.current_gap, if_neg h, Cursor.gap_gap]
    rw [Outcome.andThen_congr hstay]
    simp [Outcome.andThen, Cursor.stay]

/-- A class of a file that is parsed without problems is parsed the same before more tokens. -/
theorem run_topLevel_moved {d : Nat} (hclean : (topLevel.run (Construct.parse n) c).Clean) :
    topLevel.run (Construct.parse n) (c.moved d us) =
      (topLevel.run (Construct.parse n) c).moved d us := by
  have hpeek : (c.moved d us).peek Kind.isModifier = c.peek Kind.isModifier := by
    refine Cursor.peek_moved d (.inr fun heof => ?_)
    rw [topLevel, Outcome.Clean, run, heof] at hclean
    exact Cursor.problems_reject _ c hclean
  unfold topLevel at hclean ⊢
  rw [Outcome.Clean, run] at hclean
  rw [run, run, hpeek]
  split at hclean
  · exact Construct.parse_classDecl_moved hclean
  · exact Construct.parse_classDecl_moved hclean
  · exact absurd hclean (Cursor.problems_reject _ c)

/-- A file that is parsed without problems is parsed the same before more tokens, and these are
parsed as a file of their own. -/
theorem run_file_moved (hts : ∀ t ∈ c.rest, t.kind ≠ .eof)
    (hclean : (file.run (Construct.parse n) c).Clean) :
    file.run (Construct.parse n) (c.moved 0 us) =
      ((file.run (Construct.parse n) c).moved 0 us).andThen
        (file.run (Construct.parse n)) := by
  have hd := Construct.lively n
  induction hn : c.rest.length using Nat.strong_induction_on generalizing c with
  | _ m ih =>
    rw [run_file hd c] at hclean ⊢
    split
    · next h =>
      rw [if_pos h] at hclean
      obtain ⟨hfirst, hmore⟩ := List.append_eq_nil_iff.mp hclean
      have hkinds : c.kinds ≠ [] := fun hnil => by
        rw [Cursor.current_eq, hnil] at h
        cases h
      have hmore := ih _ (hn ▸ (productive_declarations hd).2 c h)
        (fun t ht => hts t ((run_covers hd.covers topLevel c).mem_rest ht)) hmore rfl
      rw [run_file hd, Cursor.current_moved 0 (.inr hkinds), if_pos h, run_topLevel_moved hfirst,
        Outcome.andThen, show (Outcome.moved 0 us _).cursor = Cursor.moved 0 us _ from rfl, hmore]
      simp only [Outcome.andThen, Outcome.moved, List.append_assoc, List.map_append]
    · next h =>
      have htrivia : ∀ t ∈ c.rest, t.isTrivia = true := by
        have hnil := Cursor.rest_gap_eq_nil (by simpa using h) hts
        rw [Cursor.rest_gap] at hnil
        exact List.dropWhile_eq_nil_iff.mp hnil
      rw [← gap_andThen_file, Cursor.gap_moved_of_trivia 0 htrivia, Outcome.andThen_assoc]
      exact Outcome.andThen_congr (gap_andThen_file n _)

end Rule

theorem Rule.isSettled_file : file.isSettled = true := by decide +kernel

/-- The place reached at the end of a file without problems. -/
theorem Rule.cursor_run_file {n : Nat} {ts : List Token} (hts : ∀ t ∈ ts, t.kind ≠ .eof)
    (hclean : (file.run (Construct.parse n) ⟨0, ts⟩).Clean) :
    (file.run (Construct.parse n) ⟨0, ts⟩).cursor = ⟨Cursor.width ts, []⟩ := by
  have hrest := rest_run_file (Construct.lively n) (c := ⟨0, ts⟩) hts
  have hlocated := (transfer Outcome.inherited_clean Outcome.carried_located
    (fun _ _ h => ⟨rfl, Construct.located_parse h⟩) isTidy_file hclean).2
  rw [Outcome.Located, hrest] at hlocated
  generalize (file.run (Construct.parse n) ⟨0, ts⟩).cursor = c at hrest hlocated
  obtain ⟨offset, rest⟩ := c
  obtain rfl : rest = [] := hrest
  simpa [Cursor.width] using hlocated

/-- Tokens behind a file without problems are parsed as a file of their own, with their problems
further on. -/
theorem parseTokens_append {ts us : List Token} (hts : ∀ t ∈ ts, t.kind ≠ .eof)
    (hclean : (parseTokens ts).problems = []) :
    parseTokens (ts ++ us) =
      ⟨.node .sourceFile ((parseTokens ts).tree.children ++ (parseTokens us).tree.children),
        (parseTokens us).problems.map (.shift (Cursor.width ts))⟩ := by
  have hfile : Rule.file.run (Construct.parse maxDepth) ⟨0, ts ++ us⟩ = _ :=
    Rule.run_file_moved (c := ⟨0, ts⟩) hts hclean
  have hcursor : ((Rule.file.run (Construct.parse maxDepth) ⟨0, ts⟩).moved 0 us).cursor =
      Cursor.moved (Cursor.width ts) [] ⟨0, us⟩ := by
    rw [Outcome.moved, Rule.cursor_run_file hts hclean]
    simp [Cursor.moved]
  have hmore : Rule.file.run (Construct.parse maxDepth) (.moved (Cursor.width ts) [] ⟨0, us⟩) =
      (Rule.file.run (Construct.parse maxDepth) ⟨0, us⟩).moved (Cursor.width ts) [] :=
    Rule.run_moved (Construct.parse_covers maxDepth) (Construct.parse_moved maxDepth)
      Rule.isSettled_file (Rule.productive_file (Construct.lively maxDepth)) (.inl rfl)
  have hnone : (Rule.file.run (Construct.parse maxDepth) ⟨0, ts⟩).problems = [] := hclean
  rw [parseTokens, hfile, Outcome.andThen, hcursor, hmore, Outcome.moved, Outcome.moved, hnone]
  rfl

/-! ## The classes of two texts -/

/-- Neighbouring trees with the bytes they start at, the first at byte `start`. -/
def Tree.starts (start : Nat) : List Tree → List (Tree × Nat)
  | [] => []
  | t :: ts => (t, start) :: starts (start + t.size) ts

namespace Tree

theorem starts_append (start : Nat) (ts us : List Tree) :
    starts start (ts ++ us) = starts start ts ++ starts (start + forestSize ts) us := by
  induction ts generalizing start with
  | nil => rfl
  | cons t ts ih =>
    rw [List.cons_append, starts, starts, List.cons_append, ih, forestSize, Nat.add_assoc]

theorem starts_add (start d : Nat) (ts : List Tree) :
    starts (start + d) ts = (starts start ts).map fun p => (p.1, p.2 + d) := by
  induction ts generalizing start with
  | nil => rfl
  | cons t ts ih => rw [starts, starts, List.map_cons, Nat.add_right_comm, ih]

end Tree

namespace Site

/-- What an element is and where it starts, however it is reached. -/
def placed (s : Site) : Tree × Nat := (s.tree, s.start)

theorem map_placed_row (above : List Step) (step : Step) (start : Nat) (ts : List Tree) :
    (row above step start ts).map placed = Tree.starts start ts := by
  induction ts generalizing step start with
  | nil => rfl
  | cons t ts ih => rw [row, List.map_cons, ih, Tree.starts, placed]

theorem map_placed_nodes (k : Kind) (s : Site) :
    (s.nodes k).map placed = (Tree.starts s.start s.tree.children).filter (·.1.isNode k) := by
  rw [nodes, ← map_placed_row s.above (.first s.tree s.start), List.filter_map]
  rfl

end Site

/-- If a text is parsed without problems and another one is put behind it, so that no token reaches
across the seam, the two are parsed as if each stood alone: the file has the children of both, the
problems are those of the second text, and the classes are those of the first and then those of the
second. What belongs to the second text has moved by the length of the first. -/
theorem parse_append {a b : String} (hclean : (parse a).problems = [])
    (hseam : Token.scan (a ++ b) = Token.scan a ++ Token.scan b) :
    (parse (a ++ b)).tree.children = (parse a).tree.children ++ (parse b).tree.children ∧
      (parse (a ++ b)).problems = (parse b).problems.map (.shift a.utf8ByteSize) ∧
      (Site.root (parse (a ++ b)).tree).classes.map Site.placed =
        (Site.root (parse a).tree).classes.map Site.placed ++
          ((Site.root (parse b).tree).classes.map Site.placed).map fun p =>
            (p.1, p.2 + a.utf8ByteSize) := by
  have hparse : parse (a ++ b) =
      ⟨.node .sourceFile ((parse a).tree.children ++ (parse b).tree.children),
        (parse b).problems.map (.shift a.utf8ByteSize)⟩ := by
    rw [parse, hseam, parseTokens_append (fun _ => Token.kind_ne_eof_of_mem_scan) hclean,
      Cursor.width_scan]
    rfl
  have hsize : Tree.forestSize (parse a).tree.children = a.utf8ByteSize := by
    show (parse a).tree.size = _
    rw [Tree.size_eq_width, tokens_parse, Cursor.width_scan]
  rw [hparse]
  refine ⟨rfl, rfl, ?_⟩
  rw [Site.classes, Site.classes, Site.classes, Site.map_placed_nodes, Site.map_placed_nodes,
    Site.map_placed_nodes]
  show List.filter _ (Tree.starts 0 ((parse a).tree.children ++ (parse b).tree.children)) = _
  rw [Tree.starts_append, List.filter_append, hsize, Tree.starts_add, List.filter_map]
  rfl

/-- A correct class with a comment, and behind it a text that is damaged. -/
theorem parse_append_of_damaged_text :
    let a := "class A {} /* x */"
    let b := " ) class B \x7b"
    (parse (a ++ b)).tree.children = (parse a).tree.children ++ (parse b).tree.children ∧
      (parse (a ++ b)).problems = [⟨.missingDeclaration, 19, 20⟩, ⟨.missingCloseBrace, 30, 30⟩] ∧
      ((Site.root (parse (a ++ b)).tree).classes.map Site.placed).map Prod.snd = [0, 21] := by
  intro a b
  have h := parse_append (a := a) (b := b) (by decide +kernel) (by decide +kernel)
  refine ⟨h.1, h.2.1.trans (by decide +kernel), ?_⟩
  rw [h.2.2]
  decide +kernel

end ClassNav
