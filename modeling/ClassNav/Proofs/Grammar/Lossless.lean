import ClassNav.Proofs.Grammar.Progress

/-!
# Trees spell their texts

Parsing keeps every token of a text, in order, as a leaf of one tree. No rule loses a token
(`Construct.parse_covers`), and the rule of a file goes on to the end of the text, since every pass
of its repetition takes a token.
-/

namespace ClassNav

/-- At the end of a text, whatever is left is trivia. -/
theorem Cursor.rest_gap_eq_nil {c : Cursor} (h : c.current = .eof)
    (hts : ∀ t ∈ c.rest, t.kind ≠ .eof) : c.gap.cursor.rest = [] := by
  show c.rest.drop c.triviaCount = []
  rw [drop_triviaCount]
  by_contra hne
  obtain ⟨t, ts, hd⟩ := List.exists_cons_of_ne_nil hne
  have htrivia := List.head_dropWhile_not Token.isTrivia (l := c.rest) hne
  rw [current_eq, kinds, ← Token.kinds_dropWhile, hd, Token.kinds_cons] at h
  have hmem : t ∈ c.rest := List.dropWhile_subset _ (hd ▸ List.mem_cons_self)
  simp only [hd, List.head_cons] at htrivia
  simp only [htrivia] at h
  exact hts t hmem h

/-- The rule of a file takes every token. -/
theorem Rule.rest_run_file {deeper : Construct → Cursor → Outcome} (hd : Lively deeper) {c : Cursor}
    (hts : ∀ t ∈ c.rest, t.kind ≠ .eof) : (file.run deeper c).cursor.rest = [] := by
  have hend : ((declarations.run deeper c).cursor.current != .eof) = false :=
    test_run_manyWhile (productive_declarations hd) c
  refine Cursor.rest_gap_eq_nil (by simpa using hend) fun t ht => hts t ?_
  exact (run_covers hd.covers _ c).mem_rest ht

/-- The leaves of the tree of some tokens are these tokens. -/
theorem tokens_parseTokens {ts : List Token} (hts : ∀ t ∈ ts, t.kind ≠ .eof) :
    (parseTokens ts).tree.tokens = ts := by
  have hd := Construct.lively maxDepth
  have hcovers := Rule.run_covers hd.covers Rule.file ⟨0, ts⟩
  unfold Outcome.Covers at hcovers
  rw [Rule.rest_run_file hd hts, List.append_nil] at hcovers
  exact hcovers

theorem tokens_parse (text : String) : (parse text).tree.tokens = Token.scan text :=
  tokens_parseTokens fun _ => Token.kind_ne_eof_of_mem_scan

/-- The tree of a text is one node for the file. Its leaves are the tokens of the text, each once
and in order, with their own kinds and texts; none of them marks the end of the input. So the
leaves spell the text, whatever problems there are and however deep it is nested. -/
theorem parse_lossless (text : String) :
    (∃ children, (parse text).tree = .node .sourceFile children) ∧
      (parse text).tree.tokens = Token.scan text ∧
      (∀ t ∈ (parse text).tree.tokens, t.kind ≠ .eof) ∧
      (parse text).tree.text = text := by
  refine ⟨⟨_, rfl⟩, tokens_parse text, ?_, ?_⟩
  · intro t ht
    rw [tokens_parse] at ht
    exact Token.kind_ne_eof_of_mem_scan ht
  · unfold Tree.text
    rw [tokens_parse]
    exact Token.join_text_scan text

end ClassNav
