import ClassNav.Proofs.Syntax.Scan
import Mathlib.Data.List.TakeWhile

/-!
# Tokens are longest matches

`Token.Lexeme` gives the rules of tokens without saying how to find one. `Token.Munched` says what
it means to cut a text by longest match: at every place the token is the longest that any rule
allows there; where no rule allows any, it is an error, which takes a string that is left open as
far as it goes on, and else one character.

There is one way to cut a text so, and the scanner finds it (`scan_eq_iff_munched`).

* `exists_first_extent`: what `extent` says is a token by the rules, or an error.
* `Lexeme.within_extent`: no rule allows a longer token there, nor one of the same length and of
  another kind.
-/

namespace ClassNav

namespace Token

/-! ## The rules of tokens -/

def isQuote (c : Char) : Bool := c == '"' || c == '\''

/-- What may stand between two quotes `q`: characters other than the quote and the backslash, and
backslashes, each with a character other than a line end. -/
inductive StringBody (q : Char) : List Char → Prop
  | nil : StringBody q []
  | plain {c : Char} {w : List Char} : c ≠ q → c ≠ '\\' → StringBody q w → StringBody q (c :: w)
  | escape {c : Char} {w : List Char} : c ≠ '\n' → StringBody q w → StringBody q ('\\' :: c :: w)

/-- No block comment ends within some characters. -/
def Unended (w : List Char) : Prop := ¬ ['*', '/'] <:+: w

/-- `Lexeme k w rest`: before `rest`, the characters `w` are a token of kind `k`. What follows
matters to comments only. -/
inductive Lexeme : Kind → List Char → List Char → Prop
  | blank {w rest : List Char} : w ≠ [] → (∀ c ∈ w, isBlank c = true) → Lexeme .whitespace w rest
  | lineComment {w rest : List Char} : '\n' ∉ w → (∀ c, rest.head? = some c → c = '\n') →
      Lexeme .comment ('/' :: '/' :: w) rest
  | blockComment {w rest : List Char} : Unended (w ++ ['*']) →
      Lexeme .comment ('/' :: '*' :: (w ++ ['*', '/'])) rest
  | openComment {w : List Char} : Unended w → Lexeme .comment ('/' :: '*' :: w) []
  | identifier {c : Char} {w rest : List Char} : isWordStart c = true →
      (∀ d ∈ w, isWordPart d = true) → Kind.ofKeyword? (String.ofList (c :: w)) = none →
      Lexeme .ident (c :: w) rest
  | keyword {c : Char} {w rest : List Char} {k : Kind} : isWordStart c = true →
      (∀ d ∈ w, isWordPart d = true) → Kind.ofKeyword? (String.ofList (c :: w)) = some k →
      Lexeme k (c :: w) rest
  | whole {c : Char} {w rest : List Char} : c.isDigit = true → (∀ d ∈ w, isNumberPart d = true) →
      Lexeme .number (c :: w) rest
  | fraction {c d : Char} {w f rest : List Char} : c.isDigit = true →
      (∀ e ∈ w, isNumberPart e = true) → d.isDigit = true → (∀ e ∈ f, e.isDigit = true) →
      Lexeme .number (c :: (w ++ '.' :: d :: f)) rest
  | string {q : Char} {w rest : List Char} : isQuote q = true → StringBody q w →
      Lexeme .string (q :: (w ++ [q])) rest
  | sign {c : Char} {k : Kind} {rest : List Char} : punctuation? c = some k → Lexeme k [c] rest

/-! ## Longest match -/

/-- No rule allows a token at the front of a text. -/
def Unmatched (cs : List Char) : Prop := ∀ k w rest, cs = w ++ rest → ¬ Lexeme k w rest

/-- `First cs t rest`: the first token of the text `cs` is `t`, and `rest` is what follows. -/
inductive First (cs : List Char) : Token → List Char → Prop
  | longest {k : Kind} {w rest : List Char} : cs = w ++ rest → Lexeme k w rest →
      (∀ k' w' rest', cs = w' ++ rest' → Lexeme k' w' rest' → w'.length ≤ w.length) →
      First cs ⟨k, String.ofList w⟩ rest
  | openString {q : Char} {w rest : List Char} : Unmatched cs → isQuote q = true →
      cs = q :: (w ++ rest) → StringBody q w →
      (∀ w' rest', cs = q :: (w' ++ rest') → StringBody q w' → w'.length ≤ w.length) →
      First cs ⟨.error, String.ofList (q :: w)⟩ rest
  | unknown {c : Char} {rest : List Char} : Unmatched cs → isQuote c = false → cs = c :: rest →
      First cs ⟨.error, String.ofList [c]⟩ rest

/-- A text is cut into tokens by longest match. -/
inductive Munched : List Char → List Token → Prop
  | nil : Munched [] []
  | cons {cs rest : List Char} {t : Token} {ts : List Token} :
      First cs t rest → Munched rest ts → Munched cs (t :: ts)

/-! ## Characters -/

theorem isWordStart_of_isBlank {c : Char} (h : isBlank c = true) : isWordStart c = false := by
  simp only [isBlank, Bool.or_eq_true, beq_iff_eq] at h
  rcases h with (((rfl | rfl) | rfl) | rfl) | rfl
  all_goals decide

theorem isDigit_of_isBlank {c : Char} (h : isBlank c = true) : c.isDigit = false := by
  simp only [isBlank, Bool.or_eq_true, beq_iff_eq] at h
  rcases h with (((rfl | rfl) | rfl) | rfl) | rfl
  all_goals decide

theorem isWordStart_of_isDigit {c : Char} (h : c.isDigit = true) : isWordStart c = false := by
  -- All letters come behind the digits.
  have hdigit : c.val ≤ 57 := of_decide_eq_true (Bool.and_eq_true_iff.mp h).2
  have hbelow : ∀ {n : UInt32}, 57 < n → ¬ n ≤ c.val := by
    intro n hn hle
    exact absurd (UInt32.lt_of_lt_of_le hn hle) (UInt32.not_lt.mpr hdigit)
  have hupper : c.isUpper = false := decide_eq_false fun hc => hbelow (by decide) hc.1
  have hlower : c.isLower = false :=
    Bool.and_eq_false_iff.mpr (.inl (decide_eq_false (hbelow (by decide))))
  have hline : (c == '_') = false := by
    refine beq_false_of_ne ?_
    rintro rfl
    cases h
  rw [isWordStart, show c.isAlpha = (c.isUpper || c.isLower) from rfl, hupper, hlower, hline]
  rfl

/-- Quotes and the signs that are tokens by themselves are in no other class. -/
theorem classes_of_isQuote {c : Char} (h : isQuote c = true) :
    isBlank c = false ∧ isWordStart c = false ∧ c.isDigit = false ∧ c ≠ '\\' ∧ c ≠ '/' := by
  simp only [isQuote, Bool.or_eq_true, beq_iff_eq] at h
  rcases h with rfl | rfl
  all_goals decide

theorem classes_of_punctuation? {c : Char} {k : Kind} (h : punctuation? c = some k) :
    isBlank c = false ∧ isWordStart c = false ∧ c.isDigit = false ∧ isQuote c = false ∧
      k ≠ .error := by
  unfold punctuation? at h
  split at h
  all_goals cases h
  all_goals decide

/-! ## How far runs, strings and comments reach -/

theorem le_runLength {p : Char → Bool} {w : List Char} (hw : ∀ c ∈ w, p c = true)
    (rest : List Char) : w.length ≤ runLength p (w ++ rest) := by
  rw [runLength, List.takeWhile_append_of_pos hw, List.length_append]
  exact Nat.le_add_right _ _

theorem runLength_append {p : Char → Bool} {w : List Char} (hw : ∀ c ∈ w, p c = true)
    {rest : List Char} (hrest : ∀ c, rest.head? = some c → p c = false) :
    runLength p (w ++ rest) = w.length := by
  have hstop : rest.takeWhile p = [] := by
    cases rest with
    | nil => rfl
    | cons c cs => simp [hrest c rfl]
  rw [runLength, List.takeWhile_append_of_pos hw, hstop, List.append_nil]

/-- A run is split off, and what follows does not go on with it. -/
theorem exists_run (p : Char → Bool) (cs : List Char) : ∃ w rest, cs = w ++ rest ∧
    w.length = runLength p cs ∧ (∀ c ∈ w, p c = true) ∧ ∀ c, rest.head? = some c → p c = false := by
  refine ⟨cs.takeWhile p, cs.dropWhile p, List.takeWhile_append_dropWhile.symm, rfl,
    fun c => List.mem_takeWhile_imp, fun c hc => ?_⟩
  have hne : cs.dropWhile p ≠ [] := fun hnil => by simp [hnil] at hc
  have hstop := List.head_dropWhile_not p (l := cs) hne
  rw [List.head?_eq_some_head hne] at hc
  obtain rfl := Option.some.inj hc
  exact Bool.eq_false_iff.mpr (by simpa using hstop)

section Strings

variable {q : Char} {w : List Char}

theorem quoted_quote (q : Char) (cs : List Char) : quoted q (q :: cs) = (true, 1) := by
  rw [quoted.eq_def]
  simp

theorem quoted_plain {c : Char} (hc : c ≠ q) (hs : c ≠ '\\') (cs : List Char) :
    quoted q (c :: cs) = ((quoted q cs).1, (quoted q cs).2 + 1) := by
  rw [quoted.eq_def]
  simp [hc, hs]

/-- A backslash and the character behind it are passed over together, be that a quote. -/
theorem quoted_escape {c : Char} (hq : q ≠ '\\') (hc : c ≠ '\n') (cs : List Char) :
    quoted q ('\\' :: c :: cs) = ((quoted q cs).1, (quoted q cs).2 + 2) := by
  rw [quoted.eq_def]
  simp [hq.symm, hc]

/-- A string goes on over all that may stand in it. -/
theorem quoted_append (hq : q ≠ '\\') (hw : StringBody q w) (rest : List Char) :
    quoted q (w ++ rest) = ((quoted q rest).1, (quoted q rest).2 + w.length) := by
  induction hw with
  | nil => rfl
  | plain hc hs _ ih =>
    rw [List.cons_append, quoted_plain hc hs, ih, List.length_cons, Nat.add_assoc]
  | escape hc _ ih =>
    rw [List.cons_append, List.cons_append, quoted_escape hq hc, ih, List.length_cons,
      List.length_cons, Nat.add_assoc]

theorem quoted_closed (hq : q ≠ '\\') (hw : StringBody q w) (rest : List Char) :
    quoted q (w ++ q :: rest) = (true, w.length + 1) := by
  rw [quoted_append hq hw, quoted_quote, Nat.add_comm]

/-- A string is closed behind what may stand in it, or it is left open there. -/
theorem exists_quoted (q : Char) (cs : List Char) : ∃ w rest, cs = w ++ rest ∧ StringBody q w ∧
    ((quoted q cs = (false, w.length)) ∨
      ∃ rest', rest = q :: rest' ∧ quoted q cs = (true, w.length + 1)) := by
  fun_induction quoted q cs with
  | case1 => exact ⟨[], [], rfl, .nil, .inl rfl⟩
  | case2 rest => exact ⟨[], q :: rest, rfl, .nil, .inr ⟨rest, rfl, rfl⟩⟩
  | case3 => exact ⟨[], _, rfl, .nil, .inl rfl⟩
  | case4 rest => exact ⟨[], _, rfl, .nil, .inl rfl⟩
  | case5 e cs he _ ih =>
    obtain ⟨w, rest, rfl, hw, h⟩ := ih
    refine ⟨'\\' :: e :: w, rest, rfl, .escape he hw, ?_⟩
    rcases h with h | ⟨rest', rfl, h⟩
    · exact .inl (by simp [h])
    · exact .inr ⟨rest', rfl, by simp [h]⟩
  | case6 c cs hc hs ih =>
    obtain ⟨w, rest, rfl, hw, h⟩ := ih
    refine ⟨c :: w, rest, rfl, .plain hc hs hw, ?_⟩
    rcases h with h | ⟨rest', rfl, h⟩
    · exact .inl (by simp [h])
    · exact .inr ⟨rest', rfl, by simp [h]⟩

end Strings

section Comments

theorem Unended.tail {c : Char} {w : List Char} (h : Unended (c :: w)) : Unended w :=
  fun hin => h (hin.trans (List.suffix_cons c w).isInfix)

/-- A character before which no comment has ended ends none together with the next one. -/
theorem Unended.not_end {c : Char} {w : List Char} (h : Unended (c :: w)) (tail : List Char)
    (hc : c = '*') (hw : w = '/' :: tail) : False := by
  subst hc hw
  exact h (List.prefix_append ['*', '/'] tail).isInfix

theorem blockCommentLength_of_unended {w : List Char} (h : Unended w) :
    blockCommentLength w = w.length := by
  induction w with
  | nil => rfl
  | cons c w ih => rw [blockCommentLength.eq_3 c w h.not_end, ih h.tail, List.length_cons]

/-- A comment ends with the first end that it has. -/
theorem blockCommentLength_closed {w : List Char} (h : Unended (w ++ ['*'])) (rest : List Char) :
    blockCommentLength (w ++ '*' :: '/' :: rest) = w.length + 2 := by
  induction w with
  | nil => rfl
  | cons c w ih =>
    have hnot : ∀ tail, c = '*' → w ++ '*' :: '/' :: rest = '/' :: tail → False := by
      intro tail hc hw
      cases w with
      | nil => cases hw
      | cons d w =>
        obtain rfl : d = '/' := (List.cons.inj hw).1
        exact h.not_end _ hc rfl
    rw [List.cons_append, blockCommentLength.eq_3 c _ hnot, ih h.tail, List.length_cons]

theorem unended_cons {c : Char} {w : List Char} (h : Unended w)
    (hnot : ∀ tail, c = '*' → w = '/' :: tail → False) : Unended (c :: w) := by
  intro hin
  rcases List.infix_cons_iff.mp hin with hprefix | hin
  · obtain ⟨tail, htail⟩ := hprefix
    obtain ⟨hc, hw⟩ := List.cons.inj htail
    exact hnot tail hc.symm hw.symm
  · exact h hin

/-- A block comment ends at its first end, or with the text. -/
theorem exists_blockComment (cs : List Char) :
    (Unended cs ∧ blockCommentLength cs = cs.length) ∨ ∃ w rest, cs = w ++ '*' :: '/' :: rest ∧
      Unended (w ++ ['*']) ∧ blockCommentLength cs = w.length + 2 := by
  fun_induction blockCommentLength cs with
  | case1 => exact .inl ⟨by simp [Unended], rfl⟩
  | case2 rest => exact .inr ⟨[], rest, rfl, by simp [Unended, List.infix_cons_iff], rfl⟩
  | case3 c cs hnot ih =>
    rcases ih with ⟨hopen, hlength⟩ | ⟨w, rest, rfl, hclosed, hlength⟩
    · exact .inl ⟨unended_cons hopen hnot, by rw [hlength, List.length_cons]⟩
    · refine .inr ⟨c :: w, rest, rfl, unended_cons hclosed fun tail hc hw => ?_, ?_⟩
      · cases w with
        | nil => cases hw
        | cons d w =>
          obtain rfl : d = '/' := (List.cons.inj hw).1
          exact hnot _ hc rfl
      · rw [hlength, List.length_cons]

end Comments

/-! ## The extent of a token by its first character -/

section Extents

variable {c : Char} (cs : List Char)

theorem extent_of_isBlank (h : isBlank c = true) :
    extent c cs = (.whitespace, runLength isBlank cs) := by
  unfold extent
  rw [if_pos h]

theorem extent_of_isWordStart (h : isWordStart c = true) :
    extent c cs = (.ofWord (String.ofList (c :: cs.take (runLength isWordPart cs))),
      runLength isWordPart cs) := by
  have hblank : ¬ isBlank c = true := fun hb => by simp [isWordStart_of_isBlank hb] at h
  unfold extent
  rw [if_neg hblank, if_pos h]

theorem extent_of_isDigit (h : c.isDigit = true) : extent c cs = (.number, numberLength cs) := by
  have hblank : ¬ isBlank c = true := fun hb => by simp [isDigit_of_isBlank hb] at h
  have hword : ¬ isWordStart c = true := by simp [isWordStart_of_isDigit h]
  unfold extent
  rw [if_neg hblank, if_neg hword, if_pos h]

/-- A string that is not closed is an error, over everything that was read of it. -/
theorem extent_of_isQuote (h : isQuote c = true) :
    extent c cs = (if (quoted c cs).1 then .string else .error, (quoted c cs).2) := by
  obtain ⟨hblank, hword, hdigit, _⟩ := classes_of_isQuote h
  have hquote : c = '"' ∨ c = '\'' := by simpa [isQuote] using h
  simp only [extent, hblank, hword, hdigit, hquote, if_true, Bool.false_eq_true, if_false]
  split
  · next heq => simp [heq]
  · next heq => simp [heq]

theorem extent_lineComment :
    extent '/' ('/' :: cs) = (.comment, runLength (· != '\n') cs + 1) := rfl

theorem extent_blockComment : extent '/' ('*' :: cs) = (.comment, blockCommentLength cs + 1) := rfl

/-- Anything else is one character. -/
theorem extent_of_other (hblank : isBlank c = false) (hword : isWordStart c = false)
    (hdigit : c.isDigit = false) (hquote : isQuote c = false)
    (hline : ∀ tail, c = '/' → cs = '/' :: tail → False)
    (hblock : ∀ tail, c = '/' → cs = '*' :: tail → False) :
    extent c cs = ((punctuation? c).getD .error, 0) := by
  have hquote : ¬ (c = '"' ∨ c = '\'') := by simpa [isQuote] using hquote
  simp only [extent, hblank, hword, hdigit, hquote, Bool.false_eq_true, if_false]

end Extents

/-- To prove something of the token at any place, look at how it starts. -/
theorem extent_cases {P : Char → List Char → Prop}
    (blank : ∀ c cs, isBlank c = true → P c cs) (word : ∀ c cs, isWordStart c = true → P c cs)
    (digit : ∀ c cs, c.isDigit = true → P c cs) (quote : ∀ c cs, isQuote c = true → P c cs)
    (line : ∀ cs, P '/' ('/' :: cs)) (block : ∀ cs, P '/' ('*' :: cs))
    (other : ∀ c cs, isBlank c = false → isWordStart c = false → c.isDigit = false →
      isQuote c = false → (∀ tail, c = '/' → cs = '/' :: tail → False) →
      (∀ tail, c = '/' → cs = '*' :: tail → False) → P c cs)
    (c : Char) (cs : List Char) : P c cs := by
  cases hblank : isBlank c with
  | true => exact blank c cs hblank
  | false =>
  cases hword : isWordStart c with
  | true => exact word c cs hword
  | false =>
  cases hdigit : c.isDigit with
  | true => exact digit c cs hdigit
  | false =>
  cases hquote : isQuote c with
  | true => exact quote c cs hquote
  | false =>
  by_cases hline : c = '/' ∧ ∃ tail, cs = '/' :: tail
  · obtain ⟨rfl, tail, rfl⟩ := hline
    exact line tail
  by_cases hblock : c = '/' ∧ ∃ tail, cs = '*' :: tail
  · obtain ⟨rfl, tail, rfl⟩ := hblock
    exact block tail
  · exact other c cs hblank hword hdigit hquote (fun tail hc hcs => hline ⟨hc, tail, hcs⟩)
      (fun tail hc hcs => hblock ⟨hc, tail, hcs⟩)

/-! ## The extent is allowed by a rule -/

/-- Every row of word characters that starts as a word is one, reserved or not. -/
theorem lexeme_word {c : Char} {w : List Char} (hc : isWordStart c = true)
    (hw : ∀ d ∈ w, isWordPart d = true) (rest : List Char) :
    Lexeme (.ofWord (String.ofList (c :: w))) (c :: w) rest := by
  cases hk : Kind.ofKeyword? (String.ofList (c :: w)) with
  | none =>
    rw [Kind.ofWord, hk]
    exact .identifier hc hw hk
  | some k =>
    rw [Kind.ofWord, hk]
    exact .keyword hc hw hk

/-- A fraction is a dot and digits, at least one. -/
theorem exists_fraction (cs : List Char) : fractionLength cs = 0 ∨ ∃ d f rest,
    cs = '.' :: d :: (f ++ rest) ∧ d.isDigit = true ∧ (∀ e ∈ f, e.isDigit = true) ∧
      fractionLength cs = f.length + 2 := by
  unfold fractionLength
  split
  · next d cs =>
    split
    · next hd =>
      obtain ⟨f, rest, rfl, hlength, hf, _⟩ := exists_run Char.isDigit cs
      exact .inr ⟨d, f, rest, rfl, hd, hf, by rw [hlength]⟩
    · exact .inl rfl
  · exact .inl rfl

theorem exists_number {c : Char} (hc : c.isDigit = true) (cs : List Char) :
    ∃ w rest, cs = w ++ rest ∧ w.length = numberLength cs ∧ Lexeme .number (c :: w) rest := by
  obtain ⟨w, rest, rfl, hlength, hw, _⟩ := exists_run isNumberPart cs
  have hnumber : numberLength (w ++ rest) = w.length + fractionLength rest := by
    rw [numberLength, ← hlength, List.drop_left]
  rcases exists_fraction rest with hnone | ⟨d, f, rest, rfl, hd, hf, hfraction⟩
  · exact ⟨w, rest, rfl, by rw [hnumber, hnone, Nat.add_zero], .whole hc hw⟩
  · refine ⟨w ++ '.' :: d :: f, rest, by simp, ?_, .fraction hc hw hd hf⟩
    rw [hnumber, hfraction]
    simp

/-- What `extent` says is a token by the rules, or an error: a string that is left open, or one
character that is no quote. -/
theorem exists_extent (c : Char) (cs : List Char) : ∃ w rest, cs = w ++ rest ∧
    w.length = (extent c cs).2 ∧ (Lexeme (extent c cs).1 (c :: w) rest ∨
      (extent c cs).1 = .error ∧
        (isQuote c = true ∧ StringBody c w ∨ isQuote c = false ∧ w = [])) := by
  refine extent_cases (P := fun c cs => ∃ w rest, cs = w ++ rest ∧ w.length = (extent c cs).2 ∧
    (Lexeme (extent c cs).1 (c :: w) rest ∨ (extent c cs).1 = .error ∧
      (isQuote c = true ∧ StringBody c w ∨ isQuote c = false ∧ w = []))) ?_ ?_ ?_ ?_ ?_ ?_ ?_ c cs
  -- Blanks, words and numbers: a run, or a run and a fraction.
  · intro c cs hc
    obtain ⟨w, rest, hcs, hlength, hw, _⟩ := exists_run isBlank cs
    rw [extent_of_isBlank cs hc]
    exact ⟨w, rest, hcs, hlength, .inl (.blank (List.cons_ne_nil c w) (by simpa [hc] using hw))⟩
  · intro c cs hc
    obtain ⟨w, rest, rfl, hlength, hw, _⟩ := exists_run isWordPart cs
    rw [extent_of_isWordStart _ hc, ← hlength, List.take_left]
    exact ⟨w, rest, rfl, rfl, .inl (lexeme_word hc hw rest)⟩
  · intro c cs hc
    obtain ⟨w, rest, hcs, hlength, hnumber⟩ := exists_number hc cs
    rw [extent_of_isDigit cs hc]
    exact ⟨w, rest, hcs, hlength, .inl hnumber⟩
  -- Strings, which may be open.
  · intro q cs hq
    rw [extent_of_isQuote cs hq]
    obtain ⟨w, rest, rfl, hw, hopen | ⟨rest', rfl, hclosed⟩⟩ := exists_quoted q cs
    · rw [hopen]
      exact ⟨w, rest, rfl, rfl, .inr ⟨rfl, .inl ⟨hq, hw⟩⟩⟩
    · rw [hclosed]
      exact ⟨w ++ [q], rest', by simp, by simp, .inl (.string hq hw)⟩
  -- Comments, which end with the line, or with the first end of a comment if there is one.
  · intro cs
    obtain ⟨w, rest, rfl, hlength, hw, hrest⟩ := exists_run (· != '\n') cs
    rw [extent_lineComment, ← hlength]
    refine ⟨'/' :: w, rest, rfl, rfl, .inl (.lineComment (fun hin => ?_) fun c hc => ?_)⟩
    · simpa using hw '\n' hin
    · simpa using hrest c hc
  · intro cs
    rw [extent_blockComment]
    rcases exists_blockComment cs with ⟨hopen, hlength⟩ | ⟨w, rest, rfl, hclosed, hlength⟩
    · exact ⟨'*' :: cs, [], by simp, by simp [hlength], .inl (.openComment hopen)⟩
    · exact ⟨'*' :: (w ++ ['*', '/']), rest, by simp, by simp [hlength],
        .inl (.blockComment hclosed)⟩
  -- A single character, which is a sign or an error.
  · intro c cs hblank hword hdigit hquote hline hblock
    rw [extent_of_other cs hblank hword hdigit hquote hline hblock]
    refine ⟨[], cs, rfl, rfl, ?_⟩
    cases hk : punctuation? c with
    | none => exact .inr ⟨rfl, .inr ⟨hquote, rfl⟩⟩
    | some k => exact .inl (.sign hk)

/-! ## No rule allows more than the extent -/

/-- A token of kind `k` over `n` characters after its first is no longer than the one that an extent
describes, and of its kind if it is as long; the extent is not that of an error. -/
structure Within (k : Kind) (n : Nat) (e : Kind × Nat) : Prop where
  le : n ≤ e.2
  kind : n = e.2 → k = e.1
  known : e.1 ≠ .error

theorem ofKeyword?_ne_error (s : String) : Kind.ofKeyword? s ≠ some .error := by
  unfold Kind.ofKeyword?
  split <;> simp

theorem ofWord_ne_error (s : String) : Kind.ofWord s ≠ .error := by
  intro h
  cases hk : Kind.ofKeyword? s with
  | none => simp [Kind.ofWord, hk] at h
  | some k => exact ofKeyword?_ne_error s (by simpa [Kind.ofWord, hk] using h)

/-- Words are as long as they can be, and the longest one decides which word it is. -/
theorem within_word {c : Char} {w : List Char} (hc : isWordStart c = true)
    (hw : ∀ d ∈ w, isWordPart d = true) (rest : List Char) :
    Within (.ofWord (String.ofList (c :: w))) w.length (extent c (w ++ rest)) := by
  rw [extent_of_isWordStart _ hc]
  refine ⟨le_runLength hw rest, fun heq => ?_, ofWord_ne_error _⟩
  dsimp only at heq ⊢
  rw [← heq, List.take_left]

theorem numberLength_append {w : List Char} (hw : ∀ d ∈ w, isNumberPart d = true) {rest : List Char}
    (hrest : ∀ c, rest.head? = some c → isNumberPart c = false) :
    numberLength (w ++ rest) = w.length + fractionLength rest := by
  rw [numberLength, runLength_append hw hrest, List.drop_left]

/-- No rule allows for a longer token than the one that is taken, and none for another kind at the
same length. -/
theorem Lexeme.within_extent {k : Kind} {c : Char} {w rest : List Char}
    (h : Lexeme k (c :: w) rest) : Within k w.length (extent c (w ++ rest)) := by
  cases h with
  | blank _ hw =>
    rw [extent_of_isBlank _ (hw c List.mem_cons_self)]
    exact ⟨le_runLength (fun d hd => hw d (List.mem_cons_of_mem c hd)) rest, fun _ => rfl, nofun⟩
  | @lineComment w _ hw hrest =>
    rw [List.cons_append, extent_lineComment, runLength_append]
    · exact ⟨Nat.le_refl _, fun _ => rfl, nofun⟩
    · exact fun d hd => bne_iff_ne.mpr fun heq => hw (heq ▸ hd)
    · exact fun d hd => by simp [hrest d hd]
  | @blockComment w _ hw =>
    rw [List.cons_append, extent_blockComment, List.append_assoc, List.cons_append,
      List.cons_append, List.nil_append, blockCommentLength_closed hw]
    exact ⟨by simp, fun _ => rfl, nofun⟩
  | openComment hw =>
    rw [List.cons_append, extent_blockComment, List.append_nil, blockCommentLength_of_unended hw]
    exact ⟨Nat.le_refl _, fun _ => rfl, nofun⟩
  | identifier hc hw hk =>
    have hword := within_word hc hw rest
    rwa [Kind.ofWord, hk] at hword
  | keyword hc hw hk =>
    have hword := within_word hc hw rest
    rwa [Kind.ofWord, hk] at hword
  | whole hc hw =>
    rw [extent_of_isDigit _ hc]
    exact ⟨Nat.le_trans (le_runLength hw rest) (Nat.le_add_right _ _), fun _ => rfl, nofun⟩
  | @fraction _ d w f _ hc hw hd hf =>
    rw [extent_of_isDigit _ hc, List.append_assoc, List.cons_append, List.cons_append,
      numberLength_append hw]
    -- The dot ends the whole part, and the digits behind it go to the fraction.
    · have hle := le_runLength hf rest
      refine ⟨?_, fun _ => rfl, nofun⟩
      simp only [fractionLength, hd, if_true, List.length_append, List.length_cons]
      omega
    · intro e he
      obtain rfl : '.' = e := Option.some.inj he
      rfl
  | @string _ w _ hq hw =>
    obtain ⟨_, _, _, hslash, _⟩ := classes_of_isQuote hq
    rw [extent_of_isQuote _ hq, List.append_assoc, List.cons_append, quoted_closed hslash hw]
    exact ⟨by simp, fun _ => rfl, nofun⟩
  | sign hk =>
    obtain ⟨hblank, hword, hdigit, hquote, hne⟩ := classes_of_punctuation? hk
    -- A slash is a sign as well as the start of a comment, which is longer.
    by_cases hline : c = '/' ∧ ∃ tail, rest = '/' :: tail
    · obtain ⟨rfl, tail, rfl⟩ := hline
      rw [List.nil_append, extent_lineComment]
      exact ⟨Nat.zero_le _, nofun, nofun⟩
    by_cases hblock : c = '/' ∧ ∃ tail, rest = '*' :: tail
    · obtain ⟨rfl, tail, rfl⟩ := hblock
      rw [List.nil_append, extent_blockComment]
      exact ⟨Nat.zero_le _, nofun, nofun⟩
    · rw [List.nil_append, extent_of_other _ hblank hword hdigit hquote
        (fun tail hc hcs => hline ⟨hc, tail, hcs⟩) (fun tail hc hcs => hblock ⟨hc, tail, hcs⟩), hk]
      exact ⟨Nat.le_refl _, fun _ => rfl, hne⟩

/-! ## The first token -/

theorem Lexeme.exists_cons {k : Kind} {w rest : List Char} (h : Lexeme k w rest) :
    ∃ c w', w = c :: w' := by
  refine List.exists_cons_of_ne_nil ?_
  cases h with
  | blank hne _ => exact hne
  | _ => exact List.cons_ne_nil _ _

/-- Where a rule allows a token, the extent is not that of an error. -/
theorem unmatched_of_error {c : Char} {cs : List Char} (h : (extent c cs).1 = .error) :
    Unmatched (c :: cs) := by
  intro k w rest hcs hlexeme
  obtain ⟨d, w, rfl⟩ := hlexeme.exists_cons
  obtain ⟨rfl, rfl⟩ := List.cons.inj hcs
  exact hlexeme.within_extent.known h

/-- An open string reaches as far as any row of characters that may stand in a string. -/
theorem le_of_stringBody {q : Char} (hq : isQuote q = true) {w : List Char} (hw : StringBody q w)
    (rest : List Char) : w.length ≤ (extent q (w ++ rest)).2 := by
  obtain ⟨_, _, _, hslash, _⟩ := classes_of_isQuote hq
  rw [extent_of_isQuote _ hq, quoted_append hslash hw]
  exact Nat.le_add_left _ _

/-- The extent of a token gives the first token by longest match. -/
theorem exists_first_extent (c : Char) (cs : List Char) :
    ∃ w rest, cs = w ++ rest ∧ w.length = (extent c cs).2 ∧
      First (c :: cs) ⟨(extent c cs).1, String.ofList (c :: w)⟩ rest := by
  obtain ⟨w, rest, hcs, hlength, hlexeme | ⟨herror, ⟨hquote, hw⟩ | ⟨hquote, rfl⟩⟩⟩ :=
    exists_extent c cs
  · refine ⟨w, rest, hcs, hlength, .longest (by rw [hcs]; rfl) hlexeme ?_⟩
    intro k' w' rest' hsplit hlexeme'
    obtain ⟨d, w', rfl⟩ := hlexeme'.exists_cons
    obtain ⟨rfl, rfl⟩ := List.cons.inj hsplit
    have hle := hlexeme'.within_extent.le
    rw [List.length_cons, List.length_cons, hlength]
    exact Nat.succ_le_succ hle
  · refine ⟨w, rest, hcs, hlength, ?_⟩
    rw [herror]
    refine .openString (unmatched_of_error herror) hquote (by rw [hcs]) hw ?_
    intro w' rest' hsplit hw'
    obtain rfl := (List.cons.inj hsplit).2
    rw [hlength]
    exact le_of_stringBody hquote hw' rest'
  · refine ⟨[], rest, hcs, hlength, ?_⟩
    rw [herror]
    exact .unknown (unmatched_of_error herror) hquote (by rw [hcs]; rfl)

/-- The first token by longest match has the kind and the length that `extent` says. -/
theorem First.eq_extent {c : Char} {cs rest : List Char} {t : Token} (h : First (c :: cs) t rest) :
    ∃ w, cs = w ++ rest ∧ w.length = (extent c cs).2 ∧
      t = ⟨(extent c cs).1, String.ofList (c :: w)⟩ := by
  obtain ⟨v, rest', hcs, hlength, hextent⟩ := exists_extent c cs
  cases h with
  | longest hsplit hlexeme hmax =>
    obtain ⟨d, w, rfl⟩ := hlexeme.exists_cons
    rw [List.cons_append] at hsplit
    obtain ⟨rfl, rfl⟩ := List.cons.inj hsplit
    obtain ⟨hle, hkind, hknown⟩ := hlexeme.within_extent
    -- The extent is allowed by a rule as well, so neither of the two is longer.
    have hallowed := hextent.resolve_right fun herror => hknown herror.1
    have hge := hmax _ (c :: v) rest' (by rw [List.cons_append, ← hcs]) hallowed
    have heq : w.length = (extent c (w ++ rest)).2 := by
      simp only [List.length_cons] at hge
      omega
    exact ⟨w, rfl, heq, by rw [hkind heq]⟩
  | @openString q w _ hnone hquote hsplit hw hmax =>
    obtain ⟨rfl, rfl⟩ := List.cons.inj hsplit
    obtain ⟨herror, hbody⟩ := hextent.resolve_left (hnone _ (c :: v) rest' (by rw [hcs]; rfl))
    have hv := hbody.resolve_right fun h => by simp [hquote] at h
    have hge := hmax v rest' (by rw [← hcs]) hv.2
    have hle := le_of_stringBody hquote hw rest
    exact ⟨w, rfl, by omega, by rw [herror]⟩
  | unknown hnone hquote hsplit =>
    obtain ⟨rfl, rfl⟩ := List.cons.inj hsplit
    obtain ⟨herror, hbody⟩ := hextent.resolve_left (hnone _ (c :: v) rest' (by rw [hcs]; rfl))
    have hv := hbody.resolve_left fun h => by simp [hquote] at h
    exact ⟨[], rfl, by rw [← hlength, hv.2], by rw [herror]⟩

/-! ## Whole texts -/

theorem scanChars_of_split {c : Char} {cs w rest : List Char} (hcs : cs = w ++ rest)
    (hlength : w.length = (extent c cs).2) :
    scanChars (c :: cs) = ⟨(extent c cs).1, String.ofList (c :: w)⟩ :: scanChars rest := by
  rw [scanChars_cons, ← hlength, hcs, List.take_left, List.drop_left]

/-- Scanning takes the longest match at each token. -/
theorem munched_scanChars (cs : List Char) : Munched cs (scanChars cs) := by
  induction cs using scanChars_induction with
  | nil => exact .nil
  | cons c cs ih =>
    obtain ⟨w, rest, hcs, hlength, hfirst⟩ := exists_first_extent c cs
    have hdrop : cs.drop (extent c cs).2 = rest := by rw [← hlength, hcs, List.drop_left]
    rw [scanChars_of_split hcs hlength]
    exact .cons hfirst (hdrop ▸ ih)

theorem First.ne_nil {t : Token} {rest : List Char} (h : First [] t rest) : False := by
  cases h with
  | longest hsplit hlexeme _ =>
    obtain ⟨c, w, rfl⟩ := hlexeme.exists_cons
    cases hsplit
  | openString _ _ hsplit _ _ => cases hsplit
  | unknown _ _ hsplit => cases hsplit

/-- There is one way only to cut a text by longest match. -/
theorem Munched.eq_scanChars {cs : List Char} {ts : List Token} (h : Munched cs ts) :
    scanChars cs = ts := by
  induction h with
  | nil => rfl
  | @cons cs rest t ts hfirst _ ih =>
    cases cs with
    | nil => exact hfirst.ne_nil.elim
    | cons c cs =>
      obtain ⟨w, hcs, hlength, rfl⟩ := hfirst.eq_extent
      rw [scanChars_of_split hcs hlength, ih]

/-- The scanner cuts a text into tokens that are not empty, by longest match, and this is the only
way to cut it so: each token is the longest that a rule allows where it starts, and has the kind of
that rule; an error stands only where no rule allows a token, and takes a string that is left open
as far as it goes on, or else one character. -/
theorem scan_eq_iff_munched (text : String) : (∀ t ∈ scan text, t.text ≠ "") ∧
    ∀ ts, scan text = ts ↔ Munched text.toList ts := by
  refine ⟨fun t ht hempty => ?_, fun ts => ⟨?_, Munched.eq_scanChars⟩⟩
  · have hpos := size_pos_of_mem_scan ht
    rw [size, hempty] at hpos
    cases hpos
  · rintro rfl
    exact munched_scanChars text.toList

theorem scan_eq_iff_munched_of_open_string :
    (⟨.error, "'a"⟩ : Token) ∈ scan "1.5.x/*/ */'a\\" ∧ "'a" ≠ "" ∧
      Munched "1.5.x/*/ */'a\\".toList [⟨.number, "1.5"⟩, ⟨.dot, "."⟩, ⟨.ident, "x"⟩,
        ⟨.comment, "/*/ */"⟩, ⟨.error, "'a"⟩, ⟨.error, "\\"⟩] := by
  have hmem : (⟨.error, "'a"⟩ : Token) ∈ scan "1.5.x/*/ */'a\\" := by decide +kernel
  obtain ⟨hne, hiff⟩ := scan_eq_iff_munched "1.5.x/*/ */'a\\"
  exact ⟨hmem, hne _ hmem, (hiff _).mp (by decide +kernel)⟩

end Token

end ClassNav
