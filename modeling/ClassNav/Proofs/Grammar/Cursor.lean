import ClassNav.Grammar.Parse
import ClassNav.Proofs.Syntax.Scan
import Mathlib.Data.List.TakeWhile

/-!
# Cursors without their trivia, and what a rule does to the tokens

Rules decide by the kinds of the significant tokens alone, so `Cursor.kinds` is all that they see
of a cursor: `Cursor.peek_eq` says what is seen, and `kinds_gap` and `kinds_bump` what is left of
it after the two ways of taking tokens. `Cursor.words` are these tokens themselves.

An outcome `Outcome.Covers` a cursor if the leaves of its trees, followed by the tokens it left,
are the tokens that the cursor had. Every rule does so (`Rule.run_covers`), because `Cursor.take`
is the only way in which tokens become leaves; hence so does every construct.
-/

namespace ClassNav

/-! ## Significant kinds -/

/-- The tokens that are neither blanks nor comments. -/
def Token.words (ts : List Token) : List Token := ts.filter (!·.isTrivia)

/-- The kinds of the tokens that are neither blanks nor comments. -/
def Token.kinds (ts : List Token) : List Kind := (ts.filter (!·.isTrivia)).map Token.kind

/-- The kind in front; `eof` if there is none. -/
def Kind.front (ks : List Kind) : Kind := ks.headD .eof

@[simp] theorem Kind.front_nil : Kind.front [] = .eof := rfl

@[simp] theorem Kind.front_cons (k : Kind) (ks : List Kind) : Kind.front (k :: ks) = k := rfl

namespace Token

@[simp] theorem kinds_nil : kinds [] = [] := rfl

theorem kinds_append (ts us : List Token) : kinds (ts ++ us) = kinds ts ++ kinds us := by
  simp [kinds]

theorem kinds_cons (t : Token) (ts : List Token) :
    kinds (t :: ts) = if t.isTrivia then kinds ts else t.kind :: kinds ts := by
  cases h : t.isTrivia <;> simp [kinds, h]

theorem kinds_takeWhile (ts : List Token) : kinds (ts.takeWhile isTrivia) = [] := by
  simp only [kinds, List.map_eq_nil_iff, List.filter_eq_nil_iff]
  intro t ht
  simpa using List.mem_takeWhile_imp ht

theorem kinds_dropWhile (ts : List Token) : kinds (ts.dropWhile isTrivia) = kinds ts := by
  conv_rhs => rw [← List.takeWhile_append_dropWhile (p := isTrivia) (l := ts)]
  rw [kinds_append, kinds_takeWhile, List.nil_append]

theorem kinds_tail_dropWhile (ts : List Token) :
    kinds (ts.dropWhile isTrivia).tail = (kinds ts).tail := by
  rw [← kinds_dropWhile ts]
  cases h : ts.dropWhile isTrivia with
  | nil => rfl
  | cons t us =>
    have ht := List.head_dropWhile_not isTrivia (l := ts) (by simp [h])
    have ht : t.isTrivia = false := by simpa [h] using ht
    rw [kinds_cons, ht]
    rfl

end Token

namespace Cursor

/-- What a rule sees of a cursor. -/
def kinds (c : Cursor) : List Kind := Token.kinds c.rest

/-- To look ahead is to ask for the first kind that is not skipped, trivia aside. -/
theorem peek_eq (skip : Kind → Bool) (c : Cursor) :
    c.peek skip = Kind.front (c.kinds.dropWhile skip) := by
  unfold peek kinds
  induction c.rest with
  | nil => rfl
  | cons t ts ih =>
    rw [List.find?_cons, Token.kinds_cons]
    cases ht : t.isTrivia with
    | true => exact ih
    | false =>
      cases hs : skip t.kind with
      | true => simpa [hs] using ih
      | false => simp [hs]

theorem current_eq (c : Cursor) : c.current = Kind.front c.kinds := by
  rw [current, peek_eq]
  cases c.kinds <;> rfl

theorem drop_triviaCount (c : Cursor) :
    c.rest.drop c.triviaCount = c.rest.dropWhile Token.isTrivia :=
  drop_length_takeWhile Token.isTrivia c.rest

theorem drop_triviaCount_succ (c : Cursor) :
    c.rest.drop (c.triviaCount + 1) = (c.rest.dropWhile Token.isTrivia).tail := by
  rw [← drop_triviaCount, List.tail_drop]

theorem second_eq (c : Cursor) : c.second = Kind.front c.kinds.tail := by
  rw [second, current_eq]
  show Kind.front (Token.kinds (c.rest.drop (c.triviaCount + 1))) = _
  rw [drop_triviaCount_succ, Token.kinds_tail_dropWhile]
  rfl

theorem kinds_gap (c : Cursor) : c.gap.cursor.kinds = c.kinds := by
  show Token.kinds (c.rest.drop c.triviaCount) = _
  rw [drop_triviaCount, Token.kinds_dropWhile]
  rfl

theorem kinds_bump (c : Cursor) : c.bump.cursor.kinds = c.kinds.tail := by
  show Token.kinds (c.rest.drop (c.triviaCount + 1)) = _
  rw [drop_triviaCount_succ, Token.kinds_tail_dropWhile]
  rfl

theorem rest_ne_nil_of_peek {c : Cursor} {skip : Kind → Bool} (h : c.peek skip ≠ .eof) :
    c.rest ≠ [] := by
  intro hnil
  simp [peek, hnil] at h

theorem rest_ne_nil {c : Cursor} (h : c.current ≠ .eof) : c.rest ≠ [] := rest_ne_nil_of_peek h

end Cursor

/-! ## Words -/

namespace Token

@[simp] theorem words_nil : words [] = [] := rfl

theorem words_cons (t : Token) (ts : List Token) :
    words (t :: ts) = if t.isTrivia then words ts else t :: words ts := by
  cases h : t.isTrivia <;> simp [words, h]

theorem words_append (ts us : List Token) : words (ts ++ us) = words ts ++ words us :=
  List.filter_append ts us

theorem words_of_trivia {ts : List Token} (h : ∀ t ∈ ts, t.isTrivia = true) : words ts = [] := by
  refine List.filter_eq_nil_iff.mpr fun t ht => ?_
  simp [h t ht]

def front (ts : List Token) : Kind := Kind.front (ts.map kind)

@[simp] theorem front_nil : front [] = .eof := rfl

@[simp] theorem front_cons (t : Token) (ts : List Token) : front (t :: ts) = t.kind := rfl

end Token

namespace Cursor

def words (c : Cursor) : List Token := Token.words c.rest

theorem kinds_eq_map_words (c : Cursor) : c.kinds = c.words.map Token.kind := rfl

theorem current_eq_front (c : Cursor) : c.current = Token.front c.words := c.current_eq

theorem second_eq_front (c : Cursor) : c.second = Token.front c.words.tail := by
  rw [c.second_eq, kinds_eq_map_words, ← List.map_tail]
  rfl

theorem trivia_of_mem_takeWhile (c : Cursor) {t : Token}
    (h : t ∈ c.rest.takeWhile Token.isTrivia) : t.isTrivia = true :=
  List.mem_takeWhile_imp h

/-- A gap takes trivia only. -/
theorem trees_gap (c : Cursor) : c.gap.trees = (c.rest.takeWhile Token.isTrivia).map .leaf := by
  show (c.rest.take (c.rest.takeWhile Token.isTrivia).length).map Tree.leaf = _
  rw [← List.prefix_iff_eq_take.mp (List.takeWhile_prefix Token.isTrivia)]

theorem rest_gap (c : Cursor) : c.gap.cursor.rest = c.rest.dropWhile Token.isTrivia :=
  c.drop_triviaCount

theorem words_gap (c : Cursor) : c.gap.cursor.words = c.words := by
  unfold words
  conv_rhs => rw [← List.takeWhile_append_dropWhile (p := Token.isTrivia) (l := c.rest)]
  rw [rest_gap, Token.words_append, Token.words_of_trivia fun _ => c.trivia_of_mem_takeWhile,
    List.nil_append]

theorem words_bump (c : Cursor) : c.bump.cursor.words = c.words.tail := by
  show Token.words (c.rest.drop (c.triviaCount + 1)) = c.words.tail
  rw [← words_gap, words, rest_gap, drop_triviaCount_succ]
  cases hd : c.rest.dropWhile Token.isTrivia with
  | nil => rfl
  | cons t us =>
    have ht := List.head_dropWhile_not Token.isTrivia (l := c.rest) (by simp [hd])
    simp only [hd, List.head_cons] at ht
    rw [Token.words_cons, ht]
    rfl

/-- Before its first word, a cursor has trivia only. -/
theorem dropWhile_rest {c : Cursor} {t : Token} {ts : List Token} (h : c.words = t :: ts) :
    ∃ us, c.rest.dropWhile Token.isTrivia = t :: us ∧ Token.words us = ts := by
  rw [← words_gap, words, rest_gap] at h
  cases hd : c.rest.dropWhile Token.isTrivia with
  | nil =>
    rw [hd] at h
    cases h
  | cons u us =>
    have hu := List.head_dropWhile_not Token.isTrivia (l := c.rest) (by simp [hd])
    simp only [hd, List.head_cons] at hu
    rw [hd, Token.words, List.filter_cons_of_pos (by simp [hu])] at h
    cases h
    exact ⟨us, rfl, rfl⟩

end Cursor

/-- What a rule that goes down to a construct has seen in front of it. -/
def Construct.Opens : Construct → List Kind → Prop
  | classDecl, ks => Kind.front (ks.dropWhile Kind.isModifier) = .classKw ∨
      Kind.front (ks.dropWhile Kind.isModifier) = .interfaceKw
  | anonymousType, ks => Kind.front ks = .lBrace
  | block, ks => Kind.front ks = .lBrace
  | expression, _ => True

/-! ## What is reported -/

namespace Outcome

@[simp] theorem problems_andThen (o : Outcome) (next : Cursor → Outcome) :
    (o.andThen next).problems = o.problems ++ (next o.cursor).problems := rfl

@[simp] theorem cursor_andThen (o : Outcome) (next : Cursor → Outcome) :
    (o.andThen next).cursor = (next o.cursor).cursor := rfl

@[simp] theorem problems_enclose (o : Outcome) (k : Kind) : (o.enclose k).problems = o.problems :=
  rfl

@[simp] theorem cursor_enclose (o : Outcome) (k : Kind) : (o.enclose k).cursor = o.cursor := rfl

end Outcome

theorem Cursor.problems_reject (f : Fault) (c : Cursor) : (c.reject f).problems ≠ [] := by
  simp [Cursor.reject, Cursor.report]

theorem Cursor.problems_cutOff (c : Cursor) : c.cutOff.problems ≠ [] := by
  simp [Cursor.cutOff, Cursor.report]

/-- What has been reported before something is wrapped stays reported. -/
theorem Outcome.problems_of_wrapWhile {wrap : Kind → Option Kind} {next : Kind → Cursor → Outcome}
    {n : Nat} {o : Outcome} (h : (wrapWhile wrap next n o).problems = []) : o.problems = [] := by
  induction n generalizing o with
  | zero => exact h
  | succ n ih =>
    unfold wrapWhile at h
    split at h
    · exact h
    · exact (List.append_eq_nil_iff.mp (ih h)).1

/-! ## Nothing is lost -/

/-- The leaves that were made and the tokens that are left are the tokens there were. -/
def Outcome.Covers (o : Outcome) (c : Cursor) : Prop :=
  Tree.forestTokens o.trees ++ o.cursor.rest = c.rest

namespace Outcome

variable {c : Cursor} {o : Outcome}

theorem Covers.andThen {next : Cursor → Outcome} (h : o.Covers c)
    (hnext : (next o.cursor).Covers o.cursor) : (o.andThen next).Covers c := by
  show Tree.forestTokens (o.trees ++ (next o.cursor).trees) ++ (next o.cursor).cursor.rest = c.rest
  rw [Tree.forestTokens_append, List.append_assoc, hnext]
  exact h

theorem Covers.enclose (k : Kind) (h : o.Covers c) : (o.enclose k).Covers c := by
  show Tree.forestTokens [.node k o.trees] ++ o.cursor.rest = c.rest
  simp only [Tree.forestTokens, Tree.tokens, List.append_nil]
  exact h

theorem Covers.mem_rest (h : o.Covers c) {t : Token} (ht : t ∈ o.cursor.rest) : t ∈ c.rest :=
  h ▸ List.mem_append_right _ ht

theorem Covers.rest_eq (h : o.Covers c) (hlength : o.cursor.rest.length = c.rest.length) :
    o.cursor.rest = c.rest :=
  List.IsSuffix.eq_of_length ⟨_, h⟩ hlength

theorem Covers.rest_length_le (h : o.Covers c) : o.cursor.rest.length ≤ c.rest.length := by
  have hlength := congrArg List.length h
  simp only [List.length_append] at hlength
  omega

end Outcome

namespace Cursor

theorem take_covers (n : Nat) (c : Cursor) : (c.take n).Covers c := by
  show Tree.forestTokens ((c.rest.take n).map .leaf) ++ c.rest.drop n = c.rest
  rw [Tree.forestTokens_leaves, List.take_append_drop]

theorem stay_covers (c : Cursor) : c.stay.Covers c := rfl

theorem report_covers (f : Fault) (c : Cursor) : (c.report f).Covers c := rfl

theorem reject_covers (f : Fault) (c : Cursor) : (c.reject f).Covers c :=
  (report_covers f c).andThen ((take_covers _ _).andThen ((take_covers _ _).enclose _))

theorem cutOff_covers (c : Cursor) : c.cutOff.Covers c :=
  (report_covers _ c).andThen ((take_covers _ _).andThen ((take_covers _ _).enclose _))

theorem repeatWhile_covers {test : Cursor → Bool} {body : Cursor → Outcome}
    (hbody : ∀ c, (body c).Covers c) (n : Nat) (c : Cursor) :
    (repeatWhile test body n c).Covers c := by
  induction n generalizing c with
  | zero => exact stay_covers c
  | succ n ih =>
    unfold repeatWhile
    split
    · exact (hbody c).andThen (ih _)
    · exact stay_covers c

end Cursor

/-- Wrapping moves trees below a new node and loses none of their leaves. -/
theorem Outcome.wrapWhile_covers {wrap : Kind → Option Kind} {next : Kind → Cursor → Outcome}
    (hnext : ∀ k c, (next k c).Covers c) {c : Cursor} (n : Nat) {o : Outcome} (h : o.Covers c) :
    (wrapWhile wrap next n o).Covers c := by
  induction n generalizing o with
  | zero => exact h
  | succ n ih =>
    unfold wrapWhile
    split
    · exact h
    · exact ih ((h.andThen (hnext _ _)).enclose _)

/-- A rule loses no token, provided that the constructs one level deeper do not. -/
theorem Rule.run_covers {deeper : Construct → Cursor → Outcome}
    (hdeeper : ∀ k c, (deeper k c).Covers c) (r : Rule) (c : Cursor) :
    (r.run deeper c).Covers c := by
  induction r generalizing c with
  | done => exact c.stay_covers
  | gap => exact c.take_covers _
  | bump => exact c.take_covers _
  | report f => exact c.report_covers f
  | seq a b iha ihb => exact (iha c).andThen (ihb _)
  | node k body ih => exact (c.take_covers _).andThen ((ih _).enclose k)
  | look skip next ih => exact ih _ c
  | loop test body ih => exact Cursor.repeatWhile_covers ih _ c
  | chain first wrap next ihf ihn => exact Outcome.wrapWhile_covers ihn _ (ihf c)
  | progress body f ih =>
    simp only [run]
    split
    · exact (ih c).andThen (Cursor.reject_covers f _)
    · exact ih c
  | nest k => exact hdeeper k c

/-- A construct loses no token, however deep it is nested. -/
theorem Construct.parse_covers (n : Nat) (k : Construct) (c : Cursor) : (parse n k c).Covers c := by
  induction n generalizing k c with
  | zero => exact c.cutOff_covers
  | succ n ih => exact Rule.run_covers ih k.rule c

end ClassNav
