import ClassNav.Proofs.Grammar.Progress

/-!
# Parsing without regard to trivia

Rules look at words alone, blanks and comments aside, with one exception: a pass through the
statements of a block counts as progress also if it took nothing but trivia. So the same words may
be parsed in two ways. Where no statement can start, an empty one is made and reported; with a
blank in front, this happens twice, and the tree `Tree.stutters`.

That is the only influence of trivia. Two texts with the same words, of which one has a tree that
does not stutter, are parsed alike exactly if the tree of the other does not stutter either
(`parsesAlike_iff`). For this, two runs of a rule are followed side by side: as long as neither
stutters, they make the same trees, trivia aside, and report the same faults at the same words
(`Rule.ignoresTrivia_of_steady`, `Rule.ignoresTrivia_loop_progress`).
-/

namespace ClassNav

/-! ## Trees without trivia -/

namespace Tree

def isTrivia : Tree → Bool
  | leaf t => t.isTrivia
  | node _ _ => false

mutual

/-- A tree without the blanks and comments in it. -/
def strip : Tree → Tree
  | leaf t => leaf t
  | node k cs => node k (forestStrip cs)

def forestStrip : List Tree → List Tree
  | [] => []
  | t :: ts => if t.isTrivia then forestStrip ts else t.strip :: forestStrip ts

end

theorem forestStrip_append (ts us : List Tree) :
    forestStrip (ts ++ us) = forestStrip ts ++ forestStrip us := by
  induction ts with
  | nil => simp [forestStrip]
  | cons t ts ih =>
    rw [List.cons_append, forestStrip, forestStrip, ih]
    split
    · rfl
    · rfl

theorem forestStrip_leaves (ts : List Token) :
    forestStrip (ts.map leaf) = (Token.words ts).map leaf := by
  induction ts with
  | nil => simp [forestStrip]
  | cons t ts ih =>
    rw [List.map_cons, forestStrip, ih, isTrivia, Token.words_cons]
    cases t.isTrivia with
    | true => rfl
    | false => simp [strip]

mutual

/-- Stripping a tree takes the trivia from its leaves and nothing else. -/
theorem tokens_strip : (t : Tree) → t.isTrivia = false → t.strip.tokens = Token.words t.tokens
  | leaf t, h => by
    have ht : t.isTrivia = false := h
    simp [strip, tokens, Token.words, ht]
  | node k cs, _ => by rw [strip, tokens, tokens, forestTokens_forestStrip cs]

/-- The leaves that are kept are the words. -/
theorem forestTokens_forestStrip : (ts : List Tree) →
    forestTokens (forestStrip ts) = Token.words (forestTokens ts)
  | [] => by simp [forestStrip, forestTokens]
  | t :: ts => by
    rw [forestStrip, forestTokens, Token.words_append, ← forestTokens_forestStrip ts]
    cases ht : t.isTrivia with
    | false => rw [← tokens_strip t ht, if_neg Bool.false_ne_true, forestTokens]
    | true =>
      cases t with
      | leaf t =>
        have ht : t.isTrivia = true := ht
        simp [tokens, Token.words, ht]
      | node k cs => cases ht

end

/-! ## Empty statements -/

/-- Whether a tree is a statement without tokens. -/
def isVacant : Tree → Bool
  | node .exprStmt cs => (forestTokens cs).isEmpty
  | _ => false

mutual

/-- Whether somewhere in a tree an empty statement follows another one. -/
def stutters : Tree → Bool
  | leaf _ => false
  | node _ cs => forestStutters cs

def forestStutters : List Tree → Bool
  | [] => false
  | t :: ts => t.stutters || (t.isVacant && ts.head?.any isVacant) || forestStutters ts

end

theorem forestStutters_append {ts us : List Tree} (h : forestStutters (ts ++ us) = false) :
    forestStutters ts = false ∧ forestStutters us = false := by
  induction ts with
  | nil => exact ⟨by rw [forestStutters], h⟩
  | cons t ts ih =>
    simp only [List.cons_append, forestStutters, Bool.or_eq_false_iff] at h ⊢
    obtain ⟨⟨hfirst, hpair⟩, hrest⟩ := h
    obtain ⟨hts, hus⟩ := ih hrest
    refine ⟨⟨⟨hfirst, ?_⟩, hts⟩, hus⟩
    cases ts with
    | nil => exact Bool.and_false _
    | cons u ts => exact hpair

theorem forestStutters_of_isVacant {t u : Tree} (ts : List Tree) (ht : t.isVacant = true)
    (hu : u.isVacant = true) : forestStutters (t :: u :: ts) = true := by
  simp [forestStutters, ht, hu]

end Tree

/-- Whether an empty statement follows another one in the tree of a text, trivia aside. -/
def Parsed.stutters (p : Parsed) : Bool := p.tree.strip.stutters

/-! ## Places of words -/

namespace Token

/-- The bytes of each word of some tokens that start at a byte, and at last the empty range at their
end. -/
def places (start : Nat) : List Token → List (Nat × Nat)
  | [] => [(start, start)]
  | t :: ts =>
    if t.isTrivia then places (start + t.size) ts
    else (start, start + t.size) :: places (start + t.size) ts

theorem drop_places (start : Nat) (ts us : List Token) :
    (places start (ts ++ us)).drop (words ts).length = places (start + Cursor.width ts) us := by
  induction ts generalizing start with
  | nil => rfl
  | cons t ts ih =>
    rw [List.cons_append, places, words_cons, Cursor.width, ← Nat.add_assoc, ← ih]
    cases t.isTrivia with
    | true => rfl
    | false => rfl

theorem head?_places (start : Nat) (ts : List Token) :
    (places start ts).head? = some (start + Cursor.width (ts.takeWhile isTrivia),
      start + Cursor.width (ts.takeWhile isTrivia) +
        Cursor.width ((ts.dropWhile isTrivia).take 1)) := by
  induction ts generalizing start with
  | nil => rfl
  | cons t ts ih =>
    rw [places, List.takeWhile_cons, List.dropWhile_cons]
    cases t.isTrivia with
    | true => simpa [Cursor.width, Nat.add_assoc] using ih (start + t.size)
    | false => simp [Cursor.width]

end Token

/-- Problems of two texts with the same fault at the same word, or both at the end, if `ps` and `qs`
are the places of the words of the texts. -/
def Problem.Corresponds (ps qs : List (Nat × Nat)) (p q : Problem) : Prop :=
  p.fault = q.fault ∧ ∃ i : Nat, ps[i]? = some (p.start, p.stop) ∧ qs[i]? = some (q.start, q.stop)

namespace Cursor

/-- The places of the words in front of a cursor. -/
def places (c : Cursor) : List (Nat × Nat) := Token.places c.offset c.rest

theorem head?_places (c : Cursor) : c.places.head? = some c.location := by
  rw [places, Token.head?_places, location, drop_triviaCount]

theorem places_advance (n : Nat) (c : Cursor) :
    (c.advance n).places = c.places.drop (Token.words (c.rest.take n)).length := by
  have hdrop := Token.drop_places c.offset (c.rest.take n) (c.rest.drop n)
  rw [List.take_append_drop] at hdrop
  exact hdrop.symm

theorem words_advance (n : Nat) (c : Cursor) :
    c.words = Token.words (c.rest.take n) ++ (c.advance n).words := by
  rw [words, words, ← Token.words_append]
  exact congrArg Token.words (List.take_append_drop n c.rest).symm

theorem places_gap (c : Cursor) : c.gap.cursor.places = c.places := by
  have htaken : Token.words (c.rest.take c.triviaCount) = [] := by
    have hwords := c.words_advance c.triviaCount
    rw [show (c.advance c.triviaCount).words = c.words from c.words_gap] at hwords
    exact List.append_left_eq_self.mp hwords.symm
  show (c.advance c.triviaCount).places = _
  rw [places_advance, htaken]
  rfl

/-- A fault is reported at the next word, also if the trivia before it has not been taken. -/
theorem location_gap (c : Cursor) : c.gap.cursor.location = c.location := by
  have hhead := c.gap.cursor.head?_places
  rw [places_gap, head?_places] at hhead
  exact Option.some_inj.mp hhead.symm

end Cursor

/-! ## Two runs side by side -/

section

variable {ps qs : List (Nat × Nat)}

/-- Cursors in two texts with the same words ahead, if `ps` and `qs` are the places of the words of
the texts. -/
structure Cursor.Abreast (ps qs : List (Nat × Nat)) (c d : Cursor) : Prop where
  words : c.words = d.words
  places : ∃ i, c.places = ps.drop i ∧ d.places = qs.drop i

/-- Outcomes with the same trees, trivia aside, the same faults at the same words, and the same
words ahead. -/
structure Outcome.Agrees (ps qs : List (Nat × Nat)) (o q : Outcome) : Prop where
  trees : Tree.forestStrip o.trees = Tree.forestStrip q.trees
  problems : List.Forall₂ (Problem.Corresponds ps qs) o.problems q.problems
  cursor : o.cursor.Abreast ps qs q.cursor

/-- An outcome in which no empty statement follows another one, trivia aside. -/
def Outcome.Calm (o : Outcome) : Prop := Tree.forestStutters (Tree.forestStrip o.trees) = false

/-- Outcomes that agree unless one of them stutters. -/
def Outcome.Alike (ps qs : List (Nat × Nat)) (o q : Outcome) : Prop :=
  o.Calm → q.Calm → o.Agrees ps qs q

namespace Cursor.Abreast

variable {c d : Cursor}

/-- Texts with the same words are abreast from the start. -/
theorem of_words (h : c.words = d.words) : c.Abreast c.places d.places d := ⟨h, 0, rfl, rfl⟩

theorem peek_eq (h : c.Abreast ps qs d) (skip : Kind → Bool) : c.peek skip = d.peek skip := by
  rw [Cursor.peek_eq, Cursor.peek_eq, kinds_eq_map_words, kinds_eq_map_words, h.words]

theorem current_eq (h : c.Abreast ps qs d) : c.current = d.current := h.peek_eq _

theorem second_eq (h : c.Abreast ps qs d) : c.second = d.second := by
  rw [second_eq_front, second_eq_front, h.words]

theorem stay (h : c.Abreast ps qs d) : c.stay.Agrees ps qs d.stay := ⟨rfl, .nil, h⟩

/-- The next words have the same places in the two texts. -/
theorem report (h : c.Abreast ps qs d) (f : Fault) :
    (c.report f).Agrees ps qs (d.report f) := by
  obtain ⟨i, hc, hd⟩ := h.places
  have hat : ∀ {xs : List (Nat × Nat)} {e : Cursor}, e.places = xs.drop i →
      xs[i]? = some e.location := by
    intro xs e he
    rw [← List.head?_drop, ← he, e.head?_places]
  exact ⟨rfl, .cons ⟨rfl, i, hat hc, hat hd⟩ .nil, h⟩

/-- The same words are taken at both cursors if the same are left. -/
theorem take (h : c.Abreast ps qs d) {n m : Nat}
    (hleft : (c.advance n).words = (d.advance m).words) : (c.take n).Agrees ps qs (d.take m) := by
  have htaken : Token.words (c.rest.take n) = Token.words (d.rest.take m) := by
    have hall := h.words
    rw [c.words_advance n, d.words_advance m, hleft] at hall
    exact List.append_cancel_right hall
  refine ⟨?_, .nil, hleft, ?_⟩
  · show Tree.forestStrip ((c.rest.take n).map .leaf) = Tree.forestStrip ((d.rest.take m).map .leaf)
    rw [Tree.forestStrip_leaves, Tree.forestStrip_leaves, htaken]
  · obtain ⟨i, hc, hd⟩ := h.places
    refine ⟨i + (Token.words (c.rest.take n)).length, ?_, ?_⟩
    · show (c.advance n).places = _
      rw [places_advance, hc, List.drop_drop]
    · show (d.advance m).places = _
      rw [places_advance, hd, List.drop_drop, htaken]

theorem gap (h : c.Abreast ps qs d) : c.gap.Agrees ps qs d.gap := by
  refine h.take ?_
  show c.gap.cursor.words = d.gap.cursor.words
  rw [words_gap, words_gap, h.words]

/-- Each text takes its next word, which is the same in both, and they stay abreast. -/
theorem bump (h : c.Abreast ps qs d) : c.bump.Agrees ps qs d.bump := by
  refine h.take ?_
  show c.bump.cursor.words = d.bump.cursor.words
  rw [words_bump, words_bump, h.words]

end Cursor.Abreast

namespace Outcome

variable {o q : Outcome} {f g : Cursor → Outcome} {k : Kind}

/-- If two stretches together do not stutter, neither stutters. -/
theorem Calm.of_andThen (h : (o.andThen f).Calm) : o.Calm ∧ (f o.cursor).Calm := by
  unfold Calm at *
  rw [andThen, Tree.forestStrip_append] at h
  exact Tree.forestStutters_append h

theorem Calm.of_enclose (h : (o.enclose k).Calm) : o.Calm := by
  simpa [Calm, enclose, Tree.forestStrip, Tree.isTrivia, Tree.strip, Tree.forestStutters,
    Tree.stutters] using h

theorem Calm.of_wrapWhile {wrap : Kind → Option Kind} {next : Kind → Cursor → Outcome} {n : Nat}
    (h : (wrapWhile wrap next n o).Calm) : o.Calm := by
  induction n generalizing o with
  | zero => exact h
  | succ n ih =>
    unfold wrapWhile at h
    split at h
    · exact h
    · exact (ih h).of_enclose.of_andThen.1

theorem Agrees.andThen (h : o.Agrees ps qs q) (hnext : (f o.cursor).Agrees ps qs (g q.cursor)) :
    (o.andThen f).Agrees ps qs (q.andThen g) where
  trees := by
    rw [Outcome.andThen, Outcome.andThen, Tree.forestStrip_append, Tree.forestStrip_append, h.trees,
      hnext.trees]
  problems := List.rel_append h.problems hnext.problems
  cursor := hnext.cursor

theorem Agrees.enclose (h : o.Agrees ps qs q) : (o.enclose k).Agrees ps qs (q.enclose k) where
  trees := by
    simp [Outcome.enclose, Tree.forestStrip, Tree.isTrivia, Tree.strip, h.trees]
  problems := h.problems
  cursor := h.cursor

theorem Agrees.alike (h : o.Agrees ps qs q) : o.Alike ps qs q := fun _ _ => h

/-- If a stretch stutters, so does whatever contains it, and nothing is claimed of that. -/
theorem Alike.andThen (h : o.Alike ps qs q)
    (hnext : o.cursor.Abreast ps qs q.cursor → (f o.cursor).Alike ps qs (g q.cursor)) :
    (o.andThen f).Alike ps qs (q.andThen g) := by
  intro ho hq
  obtain ⟨ho, hf⟩ := ho.of_andThen
  obtain ⟨hq, hg⟩ := hq.of_andThen
  have hfirst := h ho hq
  exact hfirst.andThen (hnext hfirst.cursor hf hg)

theorem Alike.enclose (h : o.Alike ps qs q) : (o.enclose k).Alike ps qs (q.enclose k) :=
  fun ho hq => (h ho.of_enclose hq.of_enclose).enclose

/-- Runs that wrap the same things go on side by side. -/
theorem Alike.wrapAll {wrap : Kind → Option Kind} {next : Kind → Cursor → Outcome}
    (htakes : ∀ c k, wrap c.current = some k →
      (next c.current c).cursor.rest.length < c.rest.length)
    (hnext : ∀ k c d, c.Abreast ps qs d → (next k c).Alike ps qs (next k d))
    (h : o.Alike ps qs q) : (wrapAll wrap next o).Alike ps qs (wrapAll wrap next q) := by
  -- What is wrapped stays in the trees, so a calm end means that both runs are abreast here.
  induction hn : o.cursor.rest.length using Nat.strong_induction_on generalizing o q with
  | _ n ih =>
    intro ho hq
    have hcurrent := (h ho.of_wrapWhile hq.of_wrapWhile).cursor.current_eq
    cases hwrap : wrap o.cursor.current with
    | none =>
      rw [wrapAll_of_stop hwrap] at ho ⊢
      rw [wrapAll_of_stop (hcurrent ▸ hwrap)] at hq ⊢
      exact h ho hq
    | some k =>
      have hwrap' : wrap q.cursor.current = some k := hcurrent ▸ hwrap
      rw [wrapAll_of_wrap htakes hwrap] at ho ⊢
      rw [wrapAll_of_wrap htakes hwrap'] at hq ⊢
      refine ih _ (hn ▸ htakes _ _ hwrap) ?_ rfl ho hq
      rw [← hcurrent]
      exact (h.andThen (hnext _ _ _)).enclose

end Outcome

end

/-! ## Tokens that are refused -/

namespace Cursor

/-- Reports a fault, and makes an error node of tokens from the next word on. How many there are
depends on the tokens that are left. -/
def refuse (f : Fault) (n : List Token → Nat) (c : Cursor) : Outcome :=
  (c.report f).andThen fun c => c.gap.andThen fun c => (c.take (n c.rest)).enclose .errorNode

theorem reject_eq_refuse (f : Fault) (c : Cursor) :
    c.reject f = c.refuse f fun ts => (ts.takeWhile Token.isTrivia).length + 1 := rfl

/-- A construct that is cut off is refused as a group of tokens. -/
theorem cutOff_eq_refuse (c : Cursor) : c.cutOff = c.refuse .nestingTooDeep (Token.swallow 0) := rfl

end Cursor

namespace Token

/-- Trivia does not count when tokens are passed over. -/
theorem words_drop_swallow (depth : Nat) (ts : List Token) :
    words (ts.drop (swallow depth ts)) = (words ts).drop (swallow depth (words ts)) := by
  induction ts generalizing depth with
  | nil => rfl
  | cons t ts ih =>
    rw [words_cons]
    cases ht : t.isTrivia with
    | true =>
      -- Trivia is passed over exactly if something behind it is.
      have hrest := ih depth
      simp only [swallow, ht, if_true]
      cases hn : swallow depth ts with
      | zero =>
        rw [hn] at hrest
        rw [List.drop_zero, words_cons, ht]
        exact hrest
      | succ n =>
        rw [hn] at hrest
        exact hrest
    | false =>
      have hstay : words (t :: ts) = t :: words ts := by rw [words_cons, ht]; rfl
      simp only [swallow, ht, Bool.false_eq_true, if_false]
      split
      · exact ih (depth + 1)
      · split
        · split
          · exact hstay
          · rfl
          · next d => exact ih (d + 1)
        · split
          · exact hstay
          · exact ih depth

end Token

/-- Which words are cut off does not depend on the trivia between them. -/
theorem Cursor.words_cutOff (c : Cursor) :
    c.cutOff.cursor.words = c.words.drop (Token.swallow 0 c.words) := by
  have hgap : Token.words c.gap.cursor.rest = c.words := c.words_gap
  show Token.words (c.gap.cursor.rest.drop (Token.swallow 0 c.gap.cursor.rest)) = _
  rw [Token.words_drop_swallow, hgap]

namespace Cursor.Abreast

variable {ps qs : List (Nat × Nat)} {c d : Cursor}

theorem reject (h : c.Abreast ps qs d) (f : Fault) : (c.reject f).Agrees ps qs (d.reject f) :=
  (h.report f).andThen (h.gap.andThen h.gap.cursor.bump.enclose)

/-- The same words are cut off in both texts, under one report. -/
theorem cutOff (h : c.Abreast ps qs d) : c.cutOff.Agrees ps qs d.cutOff := by
  refine (h.report _).andThen (h.gap.andThen (h.gap.cursor.take ?_).enclose)
  show c.cutOff.cursor.words = d.cutOff.cursor.words
  rw [words_cutOff, words_cutOff, h.words]

end Cursor.Abreast

/-! ## Rules that ignore trivia -/

namespace Rule

variable {deeper : Construct → Cursor → Outcome} {r a b body : Rule} {k : Kind}

/-- A rule does the same in front of the same words, unless it stutters. -/
def IgnoresTrivia (deeper : Construct → Cursor → Outcome) (r : Rule) : Prop :=
  ∀ ps qs c d, Cursor.Abreast ps qs c d → (r.run deeper c).Alike ps qs (r.run deeper d)

theorem IgnoresTrivia.seq (ha : a.IgnoresTrivia deeper) (hb : b.IgnoresTrivia deeper) :
    (seq a b).IgnoresTrivia deeper :=
  fun ps qs c d h => (ha ps qs c d h).andThen (hb ps qs _ _)

theorem IgnoresTrivia.node (h : body.IgnoresTrivia deeper) :
    (node k body).IgnoresTrivia deeper :=
  fun ps qs _ _ hcd => hcd.gap.alike.andThen fun hgap => (h ps qs _ _ hgap).enclose

/-- A repetition makes the same passes, since its test sees words only. -/
theorem IgnoresTrivia.loop {test : Kind → Kind → Bool}
    (hprod : (loop test body).Productive deeper) (h : body.IgnoresTrivia deeper) :
    (loop test body).IgnoresTrivia deeper := by
  intro ps qs c d hcd
  induction hn : c.rest.length using Nat.strong_induction_on generalizing c d with
  | _ n ih =>
    rw [run_loop hprod c, run_loop hprod d, ← hcd.current_eq, ← hcd.second_eq]
    split
    · next ht =>
      exact (h ps qs c d hcd).andThen fun hnext => ih _ (hn ▸ hprod.2 c ht) _ _ hnext rfl
    · exact hcd.stay.alike

theorem IgnoresTrivia.chain {first : Rule} {wrap : Kind → Option Kind} {next : Kind → Rule}
    (hprod : (chain first wrap next).Productive deeper) (hfirst : first.IgnoresTrivia deeper)
    (hnext : ∀ k, (next k).IgnoresTrivia deeper) :
    (chain first wrap next).IgnoresTrivia deeper := by
  intro ps qs c d hcd
  exact (hfirst ps qs c d hcd).wrapAll hprod.wrap_takes fun k => hnext k ps qs

/-- Whether a rule nowhere asks for progress. -/
def steady : Rule → Bool
  | seq a b => a.steady && b.steady
  | node _ body => body.steady
  | look _ next => Kind.all.all fun k => (next k).steady
  | loop _ body => body.steady
  | chain first _ next => first.steady && Kind.all.all fun k => (next k).steady
  | progress _ _ => false
  | _ => true

/-- A rule that nowhere asks for progress ignores trivia, if all constructs one level deeper do. -/
theorem ignoresTrivia_of_steady (hdeeper : ∀ k, (nest k).IgnoresTrivia deeper)
    (hprod : r.Productive deeper) (hsteady : r.steady = true) : r.IgnoresTrivia deeper := by
  have hall : ∀ {next : Kind → Rule}, (Kind.all.all fun k => (next k).steady) = true →
      ∀ k, (next k).steady = true := fun h k => List.all_eq_true.mp h k (Kind.mem_all k)
  induction r with
  | done => exact fun ps qs c d hcd => hcd.stay.alike
  | gap => exact fun ps qs c d hcd => hcd.gap.alike
  | bump => exact fun ps qs c d hcd => hcd.bump.alike
  | report f => exact fun ps qs c d hcd => (hcd.report f).alike
  | seq a b iha ihb =>
    obtain ⟨ha, hb⟩ := Bool.and_eq_true_iff.mp hsteady
    exact (iha hprod.1 ha).seq (ihb hprod.2 hb)
  | node k body ih => exact (ih hprod hsteady).node
  | look skip next ih =>
    intro ps qs c d hcd
    have hnext := ih (d.peek skip) (hprod _) (hall hsteady _) ps qs c d hcd
    simp only [run]
    rwa [hcd.peek_eq]
  | loop test body ih => exact (ih hprod.1 hsteady).loop hprod
  | chain first wrap next ihf ihn =>
    obtain ⟨hf, hn⟩ := Bool.and_eq_true_iff.mp hsteady
    exact (ihf hprod.1 hf).chain hprod fun k => ihn k (hprod.2.2 k).1 (hall hn k)
  | progress body f => cases hsteady
  | nest k => exact hdeeper k

/-! ## Repetition that asks for progress -/

/-- A rule is stuck at a cursor if it takes no word there. -/
def Stuck (deeper : Construct → Cursor → Outcome) (r : Rule) (c : Cursor) : Prop :=
  (r.run deeper c).cursor.words = c.words

/-- A rule makes an empty statement at a cursor if it is stuck there. -/
def VacantIfStuck (deeper : Construct → Cursor → Outcome) (r : Rule) (c : Cursor) : Prop :=
  r.Stuck deeper c → ∃ v, Tree.forestStrip (r.run deeper c).trees = [v] ∧ v.isVacant = true

theorem VacantIfStuck.look {skip : Kind → Bool} {next : Kind → Rule} {c : Cursor}
    (h : ∀ k, c.peek skip = k → (next k).VacantIfStuck deeper c) :
    (look skip next).VacantIfStuck deeper c :=
  h _ rfl

theorem exists_trees_progress (deeper : Construct → Cursor → Outcome) (body : Rule) (f : Fault)
    (c : Cursor) :
    ∃ more, ((progress body f).run deeper c).trees = (body.run deeper c).trees ++ more := by
  simp only [run]
  split
  · exact ⟨_, rfl⟩
  · exact ⟨[], (List.append_nil _).symm⟩

theorem calm_of_progress {f : Fault} {c : Cursor} (h : ((progress body f).run deeper c).Calm) :
    (body.run deeper c).Calm := by
  obtain ⟨more, htrees⟩ := exists_trees_progress deeper body f c
  unfold Outcome.Calm at *
  rw [htrees, Tree.forestStrip_append] at h
  exact (Tree.forestStutters_append h).1

section

variable {test : Kind → Kind → Bool} {f : Fault}
  (hprod : (loop test (progress body f)).Productive deeper) (hbody : body.IgnoresTrivia deeper)
  (hvacant : ∀ c, test c.current c.second = true → body.VacantIfStuck deeper c)
include hprod hbody hvacant

/-- If a pass takes trivia but no word, then the next one makes an empty statement again. -/
theorem not_calm_of_stuck {c : Cursor} (ht : test c.current c.second = true)
    (hstuck : body.Stuck deeper c)
    (htaken : (body.run deeper c).cursor.rest.length ≠ c.rest.length) :
    ¬ ((loop test (progress body f)).run deeper c).Calm := by
  intro hcalm
  -- The trivia counts as progress, so nothing is refused in the first pass.
  have hpass : (progress body f).run deeper c = body.run deeper c := if_neg htaken
  rw [run_loop hprod c, if_pos ht, hpass] at hcalm
  obtain ⟨hfirst, hrest⟩ := hcalm.of_andThen
  have hsame := Cursor.Abreast.of_words hstuck.symm
  have hsecond := run_loop hprod (body.run deeper c).cursor
  rw [← hsame.current_eq, ← hsame.second_eq, if_pos ht] at hsecond
  rw [hsecond] at hrest
  -- The second pass is in front of the same words, so it makes the same empty statement.
  have hagain := hbody _ _ _ _ hsame hfirst (calm_of_progress hrest.of_andThen.1)
  obtain ⟨v, hv, hvvacant⟩ := hvacant c ht hstuck
  obtain ⟨more, htrees⟩ := exists_trees_progress deeper body f (body.run deeper c).cursor
  unfold Outcome.Calm at hcalm
  simp only [Outcome.andThen, hsecond, htrees, Tree.forestStrip_append, ← hagain.trees, hv,
    List.append_assoc, List.singleton_append] at hcalm
  rw [Tree.forestStutters_of_isVacant _ hvvacant hvvacant] at hcalm
  cases hcalm

/-- A repetition that asks for progress ignores trivia, if its body makes an empty statement
wherever it is stuck. -/
theorem ignoresTrivia_loop_progress (hdeeper : ∀ k c, (deeper k c).Covers c) :
    (loop test (progress body f)).IgnoresTrivia deeper := by
  have hstep : ∀ {c}, test c.current c.second = true →
      (loop test (progress body f)).run deeper c =
        ((progress body f).run deeper c).andThen ((loop test (progress body f)).run deeper) :=
    fun {c} ht => (run_loop hprod c).trans (if_pos ht)
  have hfree : ∀ {c}, ¬ body.Stuck deeper c →
      (progress body f).run deeper c = body.run deeper c := by
    intro c hfree
    refine if_neg fun hlength => hfree (congrArg Token.words ?_)
    exact (run_covers hdeeper body c).rest_eq hlength
  have hrefused : ∀ {c}, test c.current c.second = true → body.Stuck deeper c →
      ((loop test (progress body f)).run deeper c).Calm →
      (progress body f).run deeper c = (body.run deeper c).andThen (Cursor.reject f) :=
    fun ht hstuck hcalm => if_pos (not_not.mp fun htaken =>
      not_calm_of_stuck hprod hbody hvacant ht hstuck htaken hcalm)
  intro ps qs c d hcd
  -- Each pass takes a token of the first text, trivia included.
  induction hn : c.rest.length using Nat.strong_induction_on generalizing c d with
  | _ n ih =>
    intro hc hd
    cases ht : test c.current c.second with
    | false =>
      rw [run_loop hprod c, run_loop hprod d, ← hcd.current_eq, ← hcd.second_eq, ht]
      exact hcd.stay
    | true =>
      have ht' : test d.current d.second = true := by
        rw [← hcd.current_eq, ← hcd.second_eq, ht]
      have hagrees := hbody ps qs c d hcd (calm_of_progress (hstep ht ▸ hc).of_andThen.1)
        (calm_of_progress (hstep ht' ▸ hd).of_andThen.1)
      have hpass : ((progress body f).run deeper c).Agrees ps qs
          ((progress body f).run deeper d) := by
        -- The bodies leave the same words, so both are stuck or neither is.
        by_cases hstuck : body.Stuck deeper c
        · have hstuck' : body.Stuck deeper d :=
            hagrees.cursor.words.symm.trans (hstuck.trans hcd.words)
          rw [hrefused ht hstuck hc, hrefused ht' hstuck' hd]
          exact hagrees.andThen (hagrees.cursor.reject f)
        · have hstuck' : ¬ body.Stuck deeper d := fun h =>
            hstuck (hagrees.cursor.words.trans (h.trans hcd.words.symm))
          rw [hfree hstuck, hfree hstuck']
          exact hagrees
      rw [hstep ht] at hc ⊢
      rw [hstep ht'] at hd ⊢
      exact hpass.andThen (ih _ (hn ▸ hprod.2 c ht) _ _ hpass.cursor rfl hc.of_andThen.2
        hd.of_andThen.2)

end

/-! ## Statements -/

theorem not_stuck_bump {c : Cursor} (hc : c.words ≠ []) : ¬ bump.Stuck deeper c := by
  intro hstuck
  have hlength := congrArg List.length hstuck
  rw [show (bump.run deeper c).cursor.words = _ from c.words_bump, List.length_tail] at hlength
  have hpos := List.length_pos_iff.mpr hc
  omega

section

variable (hd : Lively deeper)
include hd

/-- A node starts with a word, so it takes a word if its body takes anything. -/
theorem not_stuck_node {c : Cursor} (hbody : body.Eager deeper) (hc : c.words ≠ []) :
    ¬ (node k body).Stuck deeper c := by
  intro hstuck
  obtain ⟨t, ts, hwords⟩ := List.exists_cons_of_ne_nil hc
  obtain ⟨us, hrest, hus⟩ := Cursor.dropWhile_rest hwords
  have hgap : c.gap.cursor.rest = t :: us := c.rest_gap.trans hrest
  have htakes := hbody c.gap.cursor (by rw [hgap]; exact List.cons_ne_nil t us)
  have hcovers := run_covers hd.covers body c.gap.cursor
  replace hstuck : (body.run deeper c.gap.cursor).cursor.words = c.words := hstuck
  unfold Outcome.Covers at hcovers
  unfold Takes at htakes
  -- Behind the gap stands a word, so whatever the body takes starts with it.
  cases htokens : Tree.forestTokens (body.run deeper c.gap.cursor).trees with
  | nil =>
    rw [htokens, List.nil_append] at hcovers
    rw [hcovers] at htakes
    exact Nat.lt_irrefl _ htakes
  | cons u vs =>
    rw [htokens, hgap, List.cons_append] at hcovers
    have hlength := congrArg List.length hus
    rw [← (List.cons.inj hcovers).2, Token.words_append, List.length_append] at hlength
    have hsame := congrArg List.length (hstuck.trans hwords)
    rw [List.length_cons, Cursor.words] at hsame
    omega

/-- A statement that consists of nothing but a missing expression is an empty one. -/
theorem vacantIfStuck_exprStmt (body : Rule) (c : Cursor) :
    (node .exprStmt body).VacantIfStuck deeper c := by
  intro hstuck
  have htaken :
      Token.words (Tree.forestTokens ((node .exprStmt body).run deeper c).trees) = [] := by
    have hcovers := congrArg Token.words (run_covers hd.covers (node .exprStmt body) c)
    rw [Token.words_append] at hcovers
    exact List.append_cancel_right (hcovers.trans hstuck.symm)
  have htrees : Tree.forestStrip ((node .exprStmt body).run deeper c).trees =
      [.node .exprStmt (Tree.forestStrip (body.run deeper c.gap.cursor).trees)] := by
    show Tree.forestStrip (c.gap.trees ++ [.node .exprStmt _]) = _
    rw [Tree.forestStrip_append, Cursor.trees_gap, Tree.forestStrip_leaves,
      Token.words_of_trivia fun _ => c.trivia_of_mem_takeWhile]
    simp [Tree.forestStrip, Tree.isTrivia, Tree.strip]
  refine ⟨_, htrees, ?_⟩
  rw [← Tree.forestTokens_forestStrip, htrees] at htaken
  simpa [Tree.isVacant, Tree.forestTokens, Tree.tokens] using htaken

/-- Where a statement can start, a word is taken; elsewhere an empty statement is made. -/
theorem vacantIfStuck_statement
    (hblock : ∀ c, c.current = .lBrace → ¬ (nest .block).Stuck deeper c) {c : Cursor}
    (hc : c.words ≠ []) : statement.VacantIfStuck deeper c := by
  have hbump : bump.Eager deeper := eager_bump
  refine VacantIfStuck.look fun k hk => ?_
  -- All kinds of statements but the last start with a word of their own.
  split
  · exact fun h =>
      absurd h (not_stuck_node hd ((hbump.seq_left hd.covers _).seq_right hd.covers _) hc)
  · exact fun h => absurd h (hblock c hk)
  · exact fun h => absurd h (not_stuck_bump hc)
  · exact fun h => absurd h (not_stuck_node hd (hbump.seq_left hd.covers _) hc)
  · exact fun h => absurd h (not_stuck_node (k := .errorNode) hd hbump hc)
  · exact fun h => absurd h (not_stuck_node (k := .errorNode) hd hbump hc)
  · exact vacantIfStuck_exprStmt hd _ c

/-- Whether a statement took a token is asked of all tokens, so trivia in front of an empty one
count. A second empty statement then follows, and the tree stutters. -/
theorem ignoresTrivia_block (hdeeper : ∀ k, (nest k).IgnoresTrivia deeper)
    (hblock : ∀ c, c.current = .lBrace → ¬ (nest .block).Stuck deeper c) :
    block.IgnoresTrivia deeper := by
  have hbump : bump.IgnoresTrivia deeper := ignoresTrivia_of_steady hdeeper trivial rfl
  have hstatement : statement.IgnoresTrivia deeper :=
    ignoresTrivia_of_steady hdeeper productive_statement (by decide +kernel)
  have hclose : closeBrace.IgnoresTrivia deeper :=
    ignoresTrivia_of_steady hdeeper (productive_expect _ _) (by decide +kernel)
  refine (hbump.seq (IgnoresTrivia.seq ?_ hclose)).node
  refine
    ignoresTrivia_loop_progress (productive_statements hd) hstatement (fun c ht => ?_) hd.covers
  refine vacantIfStuck_statement hd hblock fun hnil => ?_
  rw [c.current_eq_front, hnil] at ht
  cases ht

end

end Rule

/-! ## Constructs -/

/-- A brace that opens a group is passed over together with the group. -/
theorem Cursor.words_cutOff_ne {c : Cursor} (h : c.current = .lBrace) :
    c.cutOff.cursor.words ≠ c.words := by
  intro hstuck
  rw [words_cutOff] at hstuck
  rw [current_eq_front] at h
  cases hwords : c.words with
  | nil =>
    rw [hwords] at h
    cases h
  | cons t ts =>
    have hkind : t.kind = .lBrace := by rwa [hwords] at h
    have htrivia : t.isTrivia = false := by
      have ht : t ∈ c.words := hwords ▸ List.mem_cons_self
      simpa using (List.mem_filter.mp ht).2
    have hpos : 0 < Token.swallow 0 (t :: ts) :=
      Token.swallow_pos ts htrivia (by rw [hkind]; rfl) (by rw [hkind]; rfl)
    have hlength := congrArg List.length hstuck
    rw [hwords, List.length_drop, List.length_cons] at hlength
    omega

/-- In front of a brace, a block takes it, or is cut off with it. -/
theorem Construct.not_stuck_block (n : Nat) {c : Cursor} (h : c.current = .lBrace) :
    ¬ (Rule.nest .block).Stuck (parse n) c := by
  cases n with
  | zero => exact Cursor.words_cutOff_ne h
  | succ n =>
    have hd := lively n
    refine Rule.not_stuck_node hd (Rule.eager_bump.seq_left hd.covers _) fun hnil => ?_
    rw [c.current_eq_front, hnil] at h
    cases h

/-- Every construct ignores trivia, however deep it is nested. -/
theorem Construct.ignoresTrivia (n : Nat) (k : Construct) :
    (Rule.nest k).IgnoresTrivia (parse n) := by
  induction n generalizing k with
  | zero => exact fun ps qs c d hcd => hcd.cutOff.alike
  | succ n ih =>
    show k.rule.IgnoresTrivia (parse n)
    cases k with
    | block => exact Rule.ignoresTrivia_block (lively n) ih fun c => not_stuck_block n
    | classDecl => exact Rule.ignoresTrivia_of_steady ih (productive n _) (by decide +kernel)
    | anonymousType => exact Rule.ignoresTrivia_of_steady ih (productive n _) (by decide +kernel)
    | expression => exact Rule.ignoresTrivia_of_steady ih (productive n _) (by decide +kernel)

/-! ## Texts -/

/-- Texts with the same tree, trivia aside, and the same faults in the same order, each at the same
word or at the end of both. -/
structure ParsesAlike (a b : String) : Prop where
  tree : (parse a).tree.strip = (parse b).tree.strip
  problems : List.Forall₂
    (Problem.Corresponds (Token.places 0 (Token.scan a)) (Token.places 0 (Token.scan b)))
    (parse a).problems (parse b).problems

/-- Trivia make no difference to texts of which neither stutters. -/
theorem parsesAlike_of_not_stutters {a b : String}
    (h : Token.words (Token.scan a) = Token.words (Token.scan b))
    (ha : (parse a).stutters = false) (hb : (parse b).stutters = false) : ParsesAlike a b := by
  have habreast : Cursor.Abreast (Token.places 0 (Token.scan a)) (Token.places 0 (Token.scan b))
      ⟨0, Token.scan a⟩ ⟨0, Token.scan b⟩ := ⟨h, 0, rfl, rfl⟩
  have hfile : Rule.file.IgnoresTrivia (Construct.parse maxDepth) :=
    Rule.ignoresTrivia_of_steady (Construct.ignoresTrivia maxDepth)
      (Rule.productive_file (Construct.lively maxDepth)) (by decide +kernel)
  have hagrees := hfile _ _ _ _ habreast ha hb
  exact ⟨congrArg (Tree.node .sourceFile) hagrees.trees, hagrees.problems⟩

/-- A text whose tree does not stutter is parsed like another one with the same words exactly if the
tree of that one does not stutter either. So blanks and comments change what is parsed only by
making an empty statement twice. -/
theorem parsesAlike_iff {a b : String}
    (h : Token.words (Token.scan a) = Token.words (Token.scan b))
    (ha : (parse a).stutters = false) : ParsesAlike a b ↔ (parse b).stutters = false := by
  constructor
  · intro halike
    rw [Parsed.stutters, ← halike.tree]
    exact ha
  · exact parsesAlike_of_not_stutters h ha

theorem parsesAlike_of_comment :
    (parse "class A { function f() {)} }").problems.length = 3 ∧
      ParsesAlike "class A { function f() {)} }" "class A{function f(){)/**/}}//" := by
  refine ⟨by decide +kernel, ?_⟩
  exact (parsesAlike_iff (by decide +kernel) (by decide +kernel)).mpr (by decide +kernel)

/-- A blank before a token that starts no statement changes the tree. -/
theorem not_parsesAlike_of_blank :
    Token.words (Token.scan "class A { function f() {)} }") =
        Token.words (Token.scan "class A { function f() { )} }") ∧
      ¬ ParsesAlike "class A { function f() {)} }" "class A { function f() { )} }" := by
  refine ⟨by decide +kernel, fun halike => ?_⟩
  have hne : (parse "class A { function f() {)} }").tree.strip ≠
      (parse "class A { function f() { )} }").tree.strip := by
    decide +kernel
  exact hne halike.tree

end ClassNav
