import ClassNav.Proofs.Grammar.Acceptance
import ClassNav.Proofs.Grammar.WellFormed

/-!
# What rules build

A `Sketch` is what is known of a tree if blanks and comments do not count, the statements of a block
are given by their tokens, and expressions are left open. `Sketch.Fits` compares a row of sketches
with a row of trees.

`Rule.Builds` says what a rule makes of the words in front of it, words being the tokens that are
neither blanks nor comments: trees of a row of sketches, the rest of the words left over, and no
problem. There is one lemma for each way to make a rule, so that what a rule builds is put together
from what its parts build. Blocks and expressions build what their tokens say because they are
accepted (`Construct.complete`) and lose nothing (`Construct.parse_covers`).
-/

namespace ClassNav

/-! ## Sketches -/

/-- What is known of a tree, blanks and comments aside. -/
inductive Sketch
  | leaf (t : Token)
  | node (k : Kind) (row : List Sketch)
  /-- A block with the words `ts`. -/
  | block (ts : List Token)
  /-- All trees of an expression. -/
  | value

namespace Sketch

/-- Trees that are, blanks and comments aside, those of a row of sketches. -/
inductive Fits : List Sketch → List Tree → Prop
  | nil : Fits [] []
  | trivia {t : Token} {row : List Sketch} {ts : List Tree} :
      t.isTrivia = true → Fits row ts → Fits row (.leaf t :: ts)
  | leaf {t : Token} {row : List Sketch} {ts : List Tree} :
      Fits row ts → Fits (.leaf t :: row) (.leaf t :: ts)
  | node {k : Kind} {inner row : List Sketch} {cs ts : List Tree} :
      Fits inner cs → Fits row ts → Fits (.node k inner :: row) (.node k cs :: ts)
  | block {us : List Token} {row : List Sketch} {cs ts : List Tree} :
      Token.words (Tree.forestTokens cs) = us → Fits row ts →
      Fits (.block us :: row) (.node .block cs :: ts)
  | value {row : List Sketch} {vs ts : List Tree} :
      Form.Derives 0 .expressionParts (Tree.forestKinds vs) → Fits row ts →
      Fits (.value :: row) (vs ++ ts)

theorem Fits.append {row row' : List Sketch} {ts us : List Tree} (h : Fits row ts)
    (h' : Fits row' us) : Fits (row ++ row') (ts ++ us) := by
  induction h with
  | nil => exact h'
  | trivia ht _ ih => exact .trivia ht ih
  | leaf _ ih => exact .leaf ih
  | node hinner _ _ ih => exact .node hinner ih
  | block hwords _ ih => exact .block hwords ih
  | value hparts _ ih =>
    rw [List.append_assoc]
    exact .value hparts ih

/-- A sketch says nothing of blanks and comments. -/
theorem fits_trivia {ts : List Token} (h : ∀ t ∈ ts, t.isTrivia = true) :
    Fits [] (ts.map .leaf) := by
  induction ts with
  | nil => exact .nil
  | cons t ts ih =>
    exact .trivia (h t List.mem_cons_self) (ih fun u hu => h u (List.mem_cons_of_mem t hu))

end Sketch

/-! ## What an outcome has built -/

/-- An outcome without problems that made a row of sketches and left some words. -/
structure Outcome.Builds (o : Outcome) (row : List Sketch) (rest : List Token) : Prop where
  clean : o.problems = []
  fits : Sketch.Fits row o.trees
  left : o.cursor.words = rest

namespace Outcome

variable {o : Outcome} {row row' : List Sketch} {ms rest : List Token}

theorem Builds.andThen {next : Cursor → Outcome} (h : o.Builds row ms)
    (hnext : (next o.cursor).Builds row' rest) : (o.andThen next).Builds (row ++ row') rest :=
  ⟨by simp [h.clean, hnext.clean], h.fits.append hnext.fits, hnext.left⟩

theorem Builds.enclose (k : Kind) (h : o.Builds row rest) :
    (o.enclose k).Builds [.node k row] rest :=
  ⟨h.clean, .node h.fits .nil, h.left⟩

end Outcome

namespace Cursor

variable {c : Cursor} {t : Token} {ts : List Token}

theorem stay_builds (c : Cursor) : c.stay.Builds [] c.words := ⟨rfl, .nil, rfl⟩

/-- Trivia may be taken anywhere without a trace in the sketch. -/
theorem gap_builds (c : Cursor) : c.gap.Builds [] c.words := by
  refine ⟨rfl, ?_, c.words_gap⟩
  rw [trees_gap]
  exact Sketch.fits_trivia fun _ => c.trivia_of_mem_takeWhile

/-- Behind a gap stands the first word. -/
theorem bump_builds (h : c.words = t :: ts) : c.bump.Builds [.leaf t] ts := by
  obtain ⟨us, hrest, hwords⟩ := dropWhile_rest h
  have htake : c.rest.take (c.triviaCount + 1) = c.rest.takeWhile Token.isTrivia ++ [t] := by
    conv_lhs => rw [← List.takeWhile_append_dropWhile (p := Token.isTrivia) (l := c.rest), hrest]
    exact List.take_length_add_append 1
  refine ⟨rfl, ?_, ?_⟩
  · show Sketch.Fits [.leaf t] ((c.rest.take (c.triviaCount + 1)).map .leaf)
    rw [htake, List.map_append]
    exact (Sketch.fits_trivia fun _ => c.trivia_of_mem_takeWhile).append (.leaf .nil)
  · show Token.words (c.rest.drop (c.triviaCount + 1)) = ts
    rw [drop_triviaCount_succ, hrest, List.tail_cons, hwords]

end Cursor

/-! ## What rules build -/

/-- In front of the words `ts`, a rule makes a row of sketches and leaves the words `rest`. -/
def Rule.Builds (deeper : Construct → Cursor → Outcome) (r : Rule) (row : List Sketch)
    (ts rest : List Token) : Prop :=
  ∀ c : Cursor, c.words = ts → (r.run deeper c).Builds row rest

namespace Rule

variable {deeper : Construct → Cursor → Outcome} {r a b body : Rule} {row row' : List Sketch}
  {ts ms rest : List Token} {k : Kind} {t : Token}

theorem builds_done : done.Builds deeper [] ts ts := by
  rintro c rfl
  exact c.stay_builds

theorem builds_gap : gap.Builds deeper [] ts ts := by
  rintro c rfl
  exact c.gap_builds

theorem builds_bump : bump.Builds deeper [.leaf t] (t :: ts) ts :=
  fun _ => Cursor.bump_builds

theorem Builds.seq (ha : a.Builds deeper row ts ms) (hb : b.Builds deeper row' ms rest) :
    (seq a b).Builds deeper (row ++ row') ts rest :=
  fun c hc => (ha c hc).andThen (hb _ (ha c hc).left)

theorem Builds.node (h : body.Builds deeper row ts rest) :
    (node k body).Builds deeper [.node k row] ts rest := by
  rintro c rfl
  exact c.gap_builds.andThen ((h _ c.words_gap).enclose k)

theorem Builds.look {skip : Kind → Bool} {next : Kind → Rule}
    (h : (next (Kind.front ((ts.map Token.kind).dropWhile skip))).Builds deeper row ts rest) :
    (look skip next).Builds deeper row ts rest := by
  rintro c rfl
  have hrun := h c rfl
  rwa [← Cursor.kinds_eq_map_words, ← Cursor.peek_eq] at hrun

theorem Builds.peek {next : Kind → Rule}
    (h : (next (Token.front ts)).Builds deeper row ts rest) :
    (peek next).Builds deeper row ts rest := by
  rintro c rfl
  have hrun := h c rfl
  rw [← Cursor.current_eq_front] at hrun
  exact hrun

theorem Builds.whenAt (h : r.Builds deeper row ts rest) (hk : Token.front ts = k) :
    (whenAt k r).Builds deeper row ts rest := by
  refine Builds.peek ?_
  rwa [if_pos hk]

theorem builds_whenAt_skip (hk : Token.front ts ≠ k) : (whenAt k r).Builds deeper [] ts ts := by
  refine Builds.peek ?_
  rw [if_neg hk]
  exact builds_done

theorem builds_expect {f : Fault} (hk : t.kind = k) :
    (expect k f).Builds deeper [.leaf t] (t :: ts) ts := by
  refine Builds.peek ?_
  rw [Token.front_cons, if_pos hk]
  exact builds_bump

theorem builds_loop_stop {test : Kind → Kind → Bool} (hprod : (loop test body).Productive deeper)
    (ht : test (Token.front ts) (Token.front ts.tail) = false) :
    (loop test body).Builds deeper [] ts ts := by
  rintro c rfl
  rw [← Cursor.current_eq_front, ← Cursor.second_eq_front] at ht
  rw [run_loop hprod, ht]
  exact c.stay_builds

/-- A repetition makes what its first pass makes, and then what it makes from there. -/
theorem Builds.loop {test : Kind → Kind → Bool} (hbody : body.Builds deeper row ts ms)
    (hrest : (loop test body).Builds deeper row' ms rest)
    (hprod : (loop test body).Productive deeper)
    (ht : test (Token.front ts) (Token.front ts.tail) = true) :
    (loop test body).Builds deeper (row ++ row') ts rest := by
  rintro c rfl
  rw [← Cursor.current_eq_front, ← Cursor.second_eq_front] at ht
  rw [run_loop hprod, ht]
  exact (hbody c rfl).andThen (hrest _ (hbody c rfl).left)

end Rule

/-! ## Blocks and expressions -/

/-- Where a construct is accepted, it takes exactly the tokens of its derivation. -/
theorem Construct.parse_of_derives {n : Nat} {k : Construct} {us rest : List Token} {c : Cursor}
    (h : Form.Derives n (.nested k) (us.map Token.kind)) (hend : k.endsAt (Token.front rest) = true)
    (hc : c.words = us ++ rest) :
    (parse n k c).problems = [] ∧ (parse n k c).cursor.words = rest ∧
      Token.words (Tree.forestTokens (parse n k c).trees) = us := by
  have hkinds : c.kinds = us.map Token.kind ++ rest.map Token.kind := by
    rw [c.kinds_eq_map_words, hc, List.map_append]
  have hreads := Construct.complete n k c.kinds (rest.map Token.kind) ⟨_, hkinds, h⟩ hend
  obtain ⟨hclean, hleft⟩ := (Construct.reads_iff n k c _).mp hreads
  have hcovers : Token.words (Tree.forestTokens (parse n k c).trees) ++ (parse n k c).cursor.words =
      us ++ rest := by
    rw [← hc, Cursor.words, Cursor.words, ← Token.words_append, Construct.parse_covers n k c]
  have hlength : (parse n k c).cursor.words.length = rest.length := by
    have hlengths := congrArg List.length hleft
    rwa [Cursor.kinds_eq_map_words, List.length_map, List.length_map] at hlengths
  obtain ⟨htaken, hrest⟩ := List.append_inj' hcovers hlength
  exact ⟨hclean, hrest, htaken⟩

namespace Rule

variable {n : Nat} {us rest : List Token}

/-- What an expression makes is left open; it is enough that its words have the form of one and that
it ends in front of what follows. -/
theorem builds_expression (h : Form.Derives n .expr (us.map Token.kind))
    (hend : (Token.front rest).endsExpression = true) :
    (nest .expression).Builds (Construct.parse n) [.value] (us ++ rest) rest := by
  intro c hc
  obtain ⟨hclean, hleft, -⟩ := Construct.parse_of_derives h hend hc
  have hmakes := Construct.parse_makes n .expression c trivial
  refine ⟨hclean, ?_, hleft⟩
  have hfits := Sketch.Fits.value hmakes.1 .nil
  rwa [List.append_nil] at hfits

/-- A sketch of a block says which words it has and nothing of what it makes of them. -/
theorem builds_block (h : Form.Derives n (.nested .block) (us.map Token.kind)) :
    (nest .block).Builds (Construct.parse n) [.block us] (us ++ rest) rest := by
  intro c hc
  obtain ⟨hclean, hleft, hwords⟩ := Construct.parse_of_derives h rfl hc
  refine ⟨hclean, ?_, hleft⟩
  cases n with
  | zero => cases h
  | succ n =>
    -- A block is a node behind a gap.
    obtain ⟨cs, htrees⟩ : ∃ cs, (Construct.parse (n + 1) .block c).trees =
        c.gap.trees ++ [.node .block cs] := ⟨_, rfl⟩
    have hgap : Token.words (Tree.forestTokens c.gap.trees) = [] := by
      rw [Cursor.trees_gap, Tree.forestTokens_leaves,
        Token.words_of_trivia fun _ => c.trivia_of_mem_takeWhile]
    rw [htrees, Tree.forestTokens_append, Token.words_append, hgap, List.nil_append,
      Tree.forestTokens, Tree.tokens, Tree.forestTokens, List.append_nil] at hwords
    show Sketch.Fits [.block us] (Construct.parse (n + 1) .block c).trees
    rw [htrees]
    exact c.gap_builds.fits.append (.block hwords .nil)

end Rule

end ClassNav
