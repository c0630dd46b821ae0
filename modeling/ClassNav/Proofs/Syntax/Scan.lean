import ClassNav.Syntax.Token
import Mathlib.Data.List.Chain

/-!
# What the scanner yields

The tokens of a text spell the text (`join_text_scan`). No token is empty, none marks the end of
the input, and no two identifiers stand side by side (`not_ident_ident_scan`): a word goes on as
long as it can, so what follows it starts with a character that no word starts with.
-/

namespace ClassNav

theorem drop_length_takeWhile {α : Type} (p : α → Bool) (xs : List α) :
    xs.drop (xs.takeWhile p).length = xs.dropWhile p := by
  calc xs.drop (xs.takeWhile p).length
      = (xs.takeWhile p ++ xs.dropWhile p).drop (xs.takeWhile p).length := by
        rw [List.takeWhile_append_dropWhile]
    _ = xs.dropWhile p := List.drop_left

namespace Token

/-! ## Induction along a text -/

/-- A property of texts that each token passes on to the text before it holds of every text. -/
theorem scanChars_induction {P : List Char → Prop} (nil : P [])
    (cons : ∀ c cs, P (cs.drop (extent c cs).2) → P (c :: cs)) : ∀ cs, P cs
  | [] => nil
  | c :: cs => cons c cs (scanChars_induction nil cons (cs.drop (extent c cs).2))
termination_by cs => cs.length
decreasing_by
  simp only [List.length_cons, List.length_drop]
  omega

theorem flatMap_text_scanChars (cs : List Char) :
    (scanChars cs).flatMap (·.text.toList) = cs := by
  induction cs using scanChars_induction with
  | nil => rfl
  | cons c cs ih =>
    rw [scanChars_cons, List.flatMap_cons, ih, String.toList_ofList, List.cons_append,
      List.take_append_drop]

/-- The texts of the tokens of a text spell it. -/
theorem join_text_scan (text : String) : String.join ((scan text).map Token.text) = text := by
  rw [← String.toList_inj, String.toList_join, List.flatMap_map]
  exact flatMap_text_scanChars text.toList

/-- Every token starts with some character and reaches as far as `extent` says. -/
theorem exists_extent_of_mem {cs : List Char} {t : Token} (h : t ∈ scanChars cs) :
    ∃ c rest, t = ⟨(extent c rest).1, String.ofList (c :: rest.take (extent c rest).2)⟩ := by
  induction cs using scanChars_induction with
  | nil => cases h
  | cons c cs ih =>
    rw [scanChars_cons] at h
    rcases List.mem_cons.mp h with rfl | h
    · exact ⟨c, cs, rfl⟩
    · exact ih h

/-- Every token takes a character at least. -/
theorem size_pos_of_mem_scan {text : String} {t : Token} (h : t ∈ scan text) : 0 < t.size := by
  obtain ⟨c, rest, rfl⟩ := exists_extent_of_mem h
  have hc : 0 < c.utf8Size := Char.utf8Size_pos c
  simp only [size, String.ofList_cons, String.utf8ByteSize_append, String.utf8ByteSize_singleton]
  omega

/-! ## Kinds of tokens -/

theorem punctuation?_ne (c : Char) : punctuation? c ≠ some .ident ∧ punctuation? c ≠ some .eof := by
  unfold punctuation?
  split <;> simp

theorem ofWord_ne_eof (w : String) : Kind.ofWord w ≠ .eof := by
  unfold Kind.ofWord Kind.ofKeyword?
  split <;> simp

/-- No token marks the end of the input, and only words are identifiers. -/
theorem extent_kind (c : Char) (cs : List Char) :
    (extent c cs).1 ≠ .eof ∧ ((extent c cs).1 = .ident → isWordStart c = true) := by
  unfold extent
  have hp := punctuation?_ne c
  split
  · simp
  split
  · next hw => exact ⟨ofWord_ne_eof _, fun _ => hw⟩
  split
  · simp
  split
  · split <;> simp
  split
  · simp
  · simp
  · cases h : punctuation? c with
    | none => simp
    | some k =>
      rw [h] at hp
      exact ⟨fun e => hp.2 (congrArg some e), fun e => absurd (congrArg some e) hp.1⟩

theorem kind_ne_eof_of_mem_scan {text : String} {t : Token} (h : t ∈ scan text) :
    t.kind ≠ .eof := by
  obtain ⟨c, rest, rfl⟩ := exists_extent_of_mem h
  exact (extent_kind c rest).1

/-! ## Neighbours -/

theorem isWordPart_of_isWordStart {c : Char} (h : isWordStart c = true) : isWordPart c = true := by
  simp only [isWordStart, isWordPart, Char.isAlphanum, Bool.or_eq_true] at h ⊢
  rcases h with h | h
  · exact .inl (.inl h)
  · exact .inr h

/-- An identifier takes every character that could go on in it. -/
theorem extent_of_ident {c : Char} {cs : List Char} (h : (extent c cs).1 = .ident) :
    cs.drop (extent c cs).2 = cs.dropWhile isWordPart := by
  have hw := (extent_kind c cs).2 h
  have hb : isBlank c = false := by
    cases hb : isBlank c with
    | false => rfl
    | true => simp [extent, hb] at h
  simp only [extent, hb, hw]
  exact drop_length_takeWhile isWordPart cs

/-- No two identifiers are neighbours. -/
theorem not_ident_ident_scan (text : String) :
    (scan text).IsChain fun a b => ¬ (a.kind = .ident ∧ b.kind = .ident) := by
  unfold scan
  generalize text.toList = cs
  induction cs using scanChars_induction with
  | nil => exact .nil
  | cons c cs ih =>
    rw [scanChars_cons, List.isChain_cons]
    refine ⟨fun b hb => ?_, ih⟩
    rintro ⟨hident, hnext⟩
    rw [extent_of_ident hident] at hb
    -- The next token starts with a character that ended the word.
    cases hd : cs.dropWhile isWordPart with
    | nil => simp [hd, scanChars_nil] at hb
    | cons d ds =>
      rw [hd, scanChars_cons] at hb
      obtain rfl : _ = b := by simpa using hb
      have hpart := isWordPart_of_isWordStart ((extent_kind d ds).2 hnext)
      have hstop := List.head_dropWhile_not isWordPart (l := cs) (by simp [hd])
      simp [hd, hpart] at hstop

end Token

end ClassNav
