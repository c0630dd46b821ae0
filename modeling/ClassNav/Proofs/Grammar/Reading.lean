import ClassNav.Proofs.Grammar.Progress

/-!
# Reading without trees, trivia and problems

`Rule.Reads` is what is left of a rule if only success counts: a relation between the kinds of the
significant tokens before and after the rule. Where the rule would report something, nothing is
related. `Rule.reads_iff` says that this is the rule: a productive rule reports nothing at a cursor
and leaves the kinds `ks'` exactly if it reads the kinds of the cursor to `ks'`. In particular it
depends on these kinds alone whether something is reported.
-/

namespace ClassNav

/-! ## Repetition -/

/-- A body repeated as long as a test holds. -/
inductive Repeats (test : List Kind → Bool) (body : List Kind → List Kind → Prop) :
    List Kind → List Kind → Prop
  | stop {ks : List Kind} : test ks = false → Repeats test body ks ks
  | pass {ks ms ks' : List Kind} :
      test ks = true → body ks ms → Repeats test body ms ks' → Repeats test body ks ks'

section

variable {test : List Kind → Bool} {body : List Kind → List Kind → Prop} {ks ks' : List Kind}

theorem repeats_of_stop (h : test ks = false) : Repeats test body ks ks' ↔ ks = ks' := by
  constructor
  · rintro (_ | ⟨ht, _, _⟩)
    · rfl
    · rw [h] at ht
      cases ht
  · rintro rfl
    exact .stop h

theorem repeats_of_pass (h : test ks = true) :
    Repeats test body ks ks' ↔ ∃ ms, body ks ms ∧ Repeats test body ms ks' := by
  constructor
  · rintro (ht | ⟨_, hbody, hrest⟩)
    · rw [h] at ht
      cases ht
    · exact ⟨_, hbody, hrest⟩
  · rintro ⟨ms, hbody, hrest⟩
    exact .pass h hbody hrest

end

/-! ## Rules as readers -/

/-- What a rule does to the kinds of the significant tokens where it reports nothing, given what
each construct does one level deeper. -/
def Rule.Reads (deeper : Construct → List Kind → List Kind → Prop) :
    Rule → List Kind → List Kind → Prop
  | done, ks, ks' => ks = ks'
  | gap, ks, ks' => ks = ks'
  | bump, ks, ks' => ks.tail = ks'
  | report _, _, _ => False
  | seq a b, ks, ks' => ∃ ms, a.Reads deeper ks ms ∧ b.Reads deeper ms ks'
  | node _ body, ks, ks' => body.Reads deeper ks ks'
  | look skip next, ks, ks' => (next (Kind.front (ks.dropWhile skip))).Reads deeper ks ks'
  | loop test body, ks, ks' =>
    Repeats (fun ks => test (Kind.front ks) (Kind.front ks.tail)) (body.Reads deeper) ks ks'
  | chain first wrap next, ks, ks' => ∃ ms, first.Reads deeper ks ms ∧
    Repeats (fun ks => (wrap (Kind.front ks)).isSome)
      (fun ks => (next (Kind.front ks)).Reads deeper ks) ms ks'
  | progress body _, ks, ks' => body.Reads deeper ks ks'
  | nest k, ks, ks' => deeper k ks ks'

/-- What a construct reads if constructs may be nested a given number of levels deep. -/
def Construct.Reads : (levels : Nat) → Construct → List Kind → List Kind → Prop
  | 0, _, _, _ => False
  | n + 1, k, ks, ks' => k.rule.Reads (Construct.Reads n) ks ks'

/-! ## Agreement with parsing -/

/-- An outcome without problems that leaves the kinds `ks'`. -/
def Outcome.Leaves (o : Outcome) (ks' : List Kind) : Prop := o.problems = [] ∧ o.cursor.kinds = ks'

theorem Outcome.leaves_andThen {o : Outcome} {next : Cursor → Outcome} {ks' : List Kind} :
    (o.andThen next).Leaves ks' ↔ o.problems = [] ∧ (next o.cursor).Leaves ks' := by
  unfold Leaves
  rw [problems_andThen, cursor_andThen, List.append_eq_nil_iff, and_assoc]

namespace Rule

variable {deeper : Construct → Cursor → Outcome}
  {reader : Construct → List Kind → List Kind → Prop}

/-- Repetitions agree if their bodies do. -/
theorem repeats_iff_leaves {test : Kind → Kind → Bool} {body : Rule}
    (hprod : (loop test body).Productive deeper)
    (hbody : ∀ c ks', body.Reads reader c.kinds ks' ↔ (body.run deeper c).Leaves ks')
    (c : Cursor) (ks' : List Kind) :
    (loop test body).Reads reader c.kinds ks' ↔ ((loop test body).run deeper c).Leaves ks' := by
  induction hn : c.rest.length using Nat.strong_induction_on generalizing c with
  | _ n ih =>
    rw [run_loop hprod c, Cursor.current_eq, Cursor.second_eq]
    unfold Reads
    cases ht : test (Kind.front c.kinds) (Kind.front c.kinds.tail) with
    | false =>
      rw [repeats_of_stop ht]
      simp [Outcome.Leaves, Cursor.stay]
    | true =>
      have htakes := hprod.2 c (by rw [Cursor.current_eq, Cursor.second_eq]; exact ht)
      rw [repeats_of_pass ht, if_pos rfl, Outcome.leaves_andThen]
      have hrest := ih _ (hn ▸ htakes) (body.run deeper c).cursor rfl
      rw [← hrest]
      constructor
      · rintro ⟨ms, hms, hks⟩
        obtain ⟨hclean, rfl⟩ := (hbody c ms).mp hms
        exact ⟨hclean, hks⟩
      · rintro ⟨hclean, hks⟩
        exact ⟨_, (hbody c _).mpr ⟨hclean, rfl⟩, hks⟩

/-- What wrapping does to the tree is of no matter to the words: it reads as a repetition. -/
theorem wrapAll_leaves_iff {wrap : Kind → Option Kind} {next : Kind → Rule}
    (htakes : ∀ c k, wrap c.current = some k → (next c.current).Takes deeper c)
    (hnext : ∀ k c ks', (next k).Reads reader c.kinds ks' ↔ ((next k).run deeper c).Leaves ks')
    (o : Outcome) (ks' : List Kind) :
    (o.wrapAll wrap fun k => (next k).run deeper).Leaves ks' ↔ o.problems = [] ∧
      Repeats (fun ks => (wrap (Kind.front ks)).isSome)
        (fun ks => (next (Kind.front ks)).Reads reader ks) o.cursor.kinds ks' := by
  induction hn : o.cursor.rest.length using Nat.strong_induction_on generalizing o with
  | _ n ih =>
    cases hw : wrap o.cursor.current with
    | none =>
      rw [Outcome.wrapAll_of_stop hw, repeats_of_stop (by rw [← Cursor.current_eq, hw]; rfl)]
      rfl
    | some k =>
      rw [Outcome.wrapAll_of_wrap htakes hw, repeats_of_pass (by rw [← Cursor.current_eq, hw]; rfl),
        ih _ (hn ▸ htakes o.cursor k hw) _ rfl, ← Cursor.current_eq]
      simp only [Outcome.problems_enclose, Outcome.problems_andThen, Outcome.cursor_enclose,
        Outcome.cursor_andThen, List.append_eq_nil_iff, and_assoc]
      refine and_congr_right fun _ => ?_
      constructor
      · rintro ⟨hclean, hks⟩
        exact ⟨_, (hnext _ _ _).mpr ⟨hclean, rfl⟩, hks⟩
      · rintro ⟨ms, hms, hks⟩
        obtain ⟨hclean, rfl⟩ := (hnext _ _ ms).mp hms
        exact ⟨hclean, hks⟩

/-- Reading is parsing without problems, provided that it is so one level deeper. -/
theorem reads_iff (hdeeper : ∀ k c ks', reader k c.kinds ks' ↔ (deeper k c).Leaves ks') (r : Rule)
    (hprod : r.Productive deeper) (c : Cursor) (ks' : List Kind) :
    r.Reads reader c.kinds ks' ↔ (r.run deeper c).Leaves ks' := by
  induction r generalizing c ks' with
  | done => simp [Reads, run, Outcome.Leaves, Cursor.stay]
  | gap =>
    show c.kinds = ks' ↔ _ ∧ c.gap.cursor.kinds = ks'
    rw [Cursor.kinds_gap]
    simp [Cursor.gap, Cursor.take, run]
  | bump =>
    show c.kinds.tail = ks' ↔ _ ∧ c.bump.cursor.kinds = ks'
    rw [Cursor.kinds_bump]
    simp [Cursor.bump, Cursor.take, run]
  | report f => simp [Reads, run, Outcome.Leaves, Cursor.report]
  | seq a b iha ihb =>
    unfold Reads run
    rw [Outcome.leaves_andThen, ← ihb hprod.2]
    constructor
    · rintro ⟨ms, hms, hks⟩
      obtain ⟨hclean, rfl⟩ := (iha hprod.1 c ms).mp hms
      exact ⟨hclean, hks⟩
    · rintro ⟨hclean, hks⟩
      exact ⟨_, (iha hprod.1 c _).mpr ⟨hclean, rfl⟩, hks⟩
  | node k body ih =>
    unfold Reads run
    rw [Outcome.leaves_andThen, ← Cursor.kinds_gap, ih hprod]
    exact ⟨fun h => ⟨rfl, h⟩, fun h => h.2⟩
  | look skip next ih =>
    unfold Reads run
    rw [← Cursor.peek_eq]
    exact ih _ (hprod _) c ks'
  | loop test body ih => exact repeats_iff_leaves hprod (ih hprod.1) c ks'
  | chain first wrap next ihf ihn =>
    unfold Reads
    have hwrap := wrapAll_leaves_iff hprod.wrap_takes (fun k => ihn k (hprod.2.2 k).1)
      (first.run deeper c) ks'
    refine Iff.trans ?_ hwrap.symm
    constructor
    · rintro ⟨ms, hms, hks⟩
      obtain ⟨hclean, rfl⟩ := (ihf hprod.1 c ms).mp hms
      exact ⟨hclean, hks⟩
    · rintro ⟨hclean, hks⟩
      exact ⟨_, (ihf hprod.1 c _).mpr ⟨hclean, rfl⟩, hks⟩
  | progress body f ih =>
    unfold Reads
    rw [ih hprod.1]
    simp only [run]
    split
    · next heq =>
      -- A body that takes nothing has reported something itself.
      have hdirty : (body.run deeper c).problems ≠ [] :=
        fun hclean => absurd heq (Nat.ne_of_lt (hprod.2 c hclean))
      rw [Outcome.leaves_andThen]
      exact ⟨fun h => absurd h.1 hdirty, fun h => absurd h.1 hdirty⟩
    · rfl
  | nest k => exact hdeeper k c ks'

end Rule

/-- A construct is read exactly where parsing it reports nothing. -/
theorem Construct.reads_iff (n : Nat) (k : Construct) (c : Cursor) (ks' : List Kind) :
    Construct.Reads n k c.kinds ks' ↔ (Construct.parse n k c).Leaves ks' := by
  induction n generalizing k c ks' with
  | zero => exact ⟨False.elim, fun h => c.problems_cutOff h.1⟩
  | succ n ih => exact Rule.reads_iff ih k.rule (Construct.productive n k) c ks'

end ClassNav
