import ClassNav.Proofs.Syntax.Munch
import Mathlib.Data.List.Infix

/-!
# Cutting a text between tokens

Where a token ends may depend on what follows it: a slash looks at the next character, a number at
the two after it, an open string at a backslash and what it escapes. Yet a token stays what it is
if the text is cut anywhere behind it (`extent_take`): a rule that stops where it does because of
some character also stops if there is no character.

So the tokens of the first part of a cut text are the first tokens of the whole
(`scanChars_of_append`). What comes before a token never matters, hence any tokens that stand side
by side in a text are the tokens of the text that they spell (`scan_join_of_infix`).
-/

namespace ClassNav

namespace Token

/-! ## A token in a cut text -/

/-- A run is cut short by the end of what is looked at, and by nothing else. -/
theorem runLength_take (p : Char → Bool) (m : Nat) (cs : List Char) :
    runLength p (cs.take m) = min m (runLength p cs) := by
  induction cs generalizing m with
  | nil => simp [runLength]
  | cons c cs ih =>
    cases m with
    | zero => simp [runLength]
    | succ m =>
      cases hc : p c with
      | false => simp [runLength, hc]
      | true =>
        have hrest := ih m
        simp only [runLength] at hrest
        simp [runLength, hc, hrest, Nat.succ_min_succ]

/-- To find the end of a comment, no character behind it is looked at. -/
theorem blockCommentLength_take {cs : List Char} {m : Nat} (h : blockCommentLength cs ≤ m) :
    blockCommentLength (cs.take m) = blockCommentLength cs := by
  rcases exists_blockComment cs with ⟨_, hlength⟩ | ⟨w, rest, rfl, hclosed, hlength⟩
  · rw [List.take_of_length_le (hlength ▸ h)]
  · obtain ⟨n, rfl⟩ := Nat.exists_eq_add_of_le (hlength ▸ h)
    have htake : (w ++ '*' :: '/' :: rest).take (w.length + 2 + n) =
        w ++ '*' :: '/' :: rest.take n := by
      rw [Nat.add_assoc, List.take_length_add_append, Nat.add_comm 2 n]
      rfl
    rw [htake, blockCommentLength_closed hclosed, hlength]

theorem eq_cons_of_take_eq {cs tail : List Char} {c : Char} {m : Nat} (h : cs.take m = c :: tail) :
    cs = c :: (tail ++ cs.drop m) := by
  rw [← List.cons_append, ← h, List.take_append_drop]

theorem fractionLength_take {cs : List Char} {m : Nat} (h : fractionLength cs ≤ m) :
    fractionLength (cs.take m) = fractionLength cs := by
  fun_cases fractionLength cs with
  | case1 c cs hc =>
    rw [fractionLength, if_pos hc] at h
    obtain ⟨n, rfl⟩ := Nat.exists_eq_add_of_le' h
    rw [← Nat.add_assoc, List.take_succ_cons, List.take_succ_cons, fractionLength, if_pos hc,
      runLength_take]
    omega
  | case2 c cs hc =>
    obtain _ | _ | n := m
    · rfl
    · rfl
    · rw [List.take_succ_cons, List.take_succ_cons, fractionLength, if_neg hc]
  | case3 cs hshape =>
    exact fractionLength.eq_2 _ fun c tail htake => hshape c _ (eq_cons_of_take_eq htake)

theorem numberLength_take {cs : List Char} {m : Nat} (h : numberLength cs ≤ m) :
    numberLength (cs.take m) = numberLength cs := by
  unfold numberLength at h ⊢
  dsimp only at h ⊢
  have hwhole : runLength isNumberPart (cs.take m) = runLength isNumberPart cs := by
    rw [runLength_take]
    omega
  rw [hwhole, List.drop_take, fractionLength_take]
  omega

/-- To find the end of a string, no character behind it is looked at. -/
theorem quoted_take {q : Char} {cs : List Char} {m : Nat} (h : (quoted q cs).2 ≤ m) :
    quoted q (cs.take m) = quoted q cs := by
  fun_induction quoted q cs generalizing m with
  | case1 => simp [quoted]
  | case2 rest =>
    obtain ⟨n, rfl⟩ := Nat.exists_eq_add_of_le' h
    exact quoted_quote q _
  | case3 hq =>
    obtain _ | n := m
    · rfl
    · simp [quoted, hq]
  | case4 rest hq =>
    -- The backslash escapes nothing, whether the line end behind it is cut off or not.
    obtain _ | _ | n := m
    · rfl
    · simp [quoted, hq]
    · simp [quoted, hq]
  | case5 e cs he hq ih =>
    obtain ⟨n, rfl⟩ := Nat.exists_eq_add_of_le' h
    rw [← Nat.add_assoc, List.take_succ_cons, List.take_succ_cons, quoted_escape (Ne.symm hq) he,
      ih (Nat.le_add_left _ _)]
  | case6 c cs hc hs ih =>
    obtain ⟨n, rfl⟩ := Nat.exists_eq_add_of_le' h
    rw [← Nat.add_assoc, List.take_succ_cons, quoted_plain hc hs, ih (Nat.le_add_left _ _)]

/-- A token stays what it is if the text is cut behind it. -/
theorem extent_take {c : Char} {cs : List Char} {m : Nat} (h : (extent c cs).2 ≤ m) :
    extent c (cs.take m) = extent c cs := by
  revert m
  refine extent_cases (P := fun c cs => ∀ {m : Nat}, (extent c cs).2 ≤ m →
    extent c (cs.take m) = extent c cs) ?_ ?_ ?_ ?_ ?_ ?_ ?_ c cs
  · intro c cs hc m h
    rw [extent_of_isBlank _ hc] at h ⊢
    rw [extent_of_isBlank _ hc, runLength_take, Nat.min_eq_right h]
  · intro c cs hc m h
    rw [extent_of_isWordStart _ hc] at h ⊢
    rw [extent_of_isWordStart _ hc, runLength_take, Nat.min_eq_right h, List.take_take,
      Nat.min_eq_left h]
  · intro c cs hc m h
    rw [extent_of_isDigit _ hc] at h ⊢
    rw [extent_of_isDigit _ hc, numberLength_take h]
  · intro q cs hq m h
    rw [extent_of_isQuote _ hq] at h ⊢
    rw [extent_of_isQuote _ hq, quoted_take h]
  -- A comment is told by two characters, and both are before the cut.
  · intro cs m h
    rw [extent_lineComment] at h ⊢
    obtain ⟨n, rfl⟩ := Nat.exists_eq_add_of_le' h
    rw [← Nat.add_assoc, List.take_succ_cons, extent_lineComment, runLength_take,
      Nat.min_eq_right (Nat.le_add_left _ _)]
  · intro cs m h
    rw [extent_blockComment] at h ⊢
    obtain ⟨n, rfl⟩ := Nat.exists_eq_add_of_le' h
    rw [← Nat.add_assoc, List.take_succ_cons, extent_blockComment,
      blockCommentLength_take (Nat.le_add_left _ _)]
  -- A cut cannot make a comment of a slash.
  · intro c cs hblank hword hdigit hquote hline hblock m _
    rw [extent_of_other cs hblank hword hdigit hquote hline hblock]
    exact extent_of_other _ hblank hword hdigit hquote
      (fun tail hc htake => hline _ hc (eq_cons_of_take_eq htake))
      (fun tail hc htake => hblock _ hc (eq_cons_of_take_eq htake))

/-! ## The tokens of a cut text -/

/-- The first tokens of a text are the tokens of the text that they spell. -/
theorem scanChars_of_append {cs : List Char} {ts us : List Token} (h : scanChars cs = ts ++ us) :
    scanChars (ts.flatMap (·.text.toList)) = ts := by
  induction ts generalizing cs with
  | nil => rfl
  | cons t ts ih =>
    cases cs with
    | nil => cases h
    | cons c cs =>
      obtain ⟨w, rest, hcs, hlength, _⟩ := exists_extent c cs
      rw [scanChars_of_split hcs hlength, List.cons_append] at h
      obtain ⟨rfl, hrest⟩ := List.cons.inj h
      -- The text is cut somewhere behind the first token.
      have hspell := flatMap_text_scanChars rest
      rw [hrest, List.flatMap_append] at hspell
      generalize hkept : ts.flatMap (·.text.toList) = kept at hspell
      have htake : cs.take (w ++ kept).length = w ++ kept := by
        rw [hcs, ← hspell, ← List.append_assoc, List.take_left]
      have hextent : extent c (w ++ kept) = extent c cs := by
        rw [← htake]
        exact extent_take (by rw [← hlength, List.length_append]; exact Nat.le_add_right _ _)
      rw [List.flatMap_cons, String.toList_ofList, hkept, List.cons_append,
        scanChars_of_split rfl (hlength.trans (congrArg Prod.snd hextent.symm)), hextent, ← hkept,
        ih hrest]

/-- What comes before some tokens does not matter to them. -/
theorem exists_scanChars_of_append {cs : List Char} {ts us : List Token}
    (h : scanChars cs = ts ++ us) : ∃ rest, scanChars rest = us := by
  induction ts generalizing cs with
  | nil => exact ⟨cs, h⟩
  | cons t ts ih =>
    cases cs with
    | nil => cases h
    | cons c cs =>
      rw [scanChars_cons, List.cons_append] at h
      exact ih (List.cons.inj h).2

/-- Tokens that stand in a row somewhere are cut in the same way on their own. -/
theorem scanChars_flatMap_of_infix {cs : List Char} {ts : List Token} (h : ts <:+: scanChars cs) :
    scanChars (ts.flatMap (·.text.toList)) = ts := by
  obtain ⟨before, after, hsplit⟩ := h
  rw [List.append_assoc] at hsplit
  obtain ⟨rest, hrest⟩ := exists_scanChars_of_append hsplit.symm
  exact scanChars_of_append hrest

/-- Tokens that stand side by side in a text are the tokens of the text that they spell; so every
token of a text is the one token of its own text. -/
theorem scan_join_of_infix (text : String) :
    (∀ ts, ts <:+: scan text → scan (String.join (ts.map Token.text)) = ts) ∧
      ∀ t ∈ scan text, scan t.text = [t] := by
  refine ⟨fun ts h => ?_, fun t ht => ?_⟩
  · rw [scan, String.toList_join, List.flatMap_map]
    exact scanChars_flatMap_of_infix h
  · have hone : [t] <:+: scanChars text.toList := (List.singleton_infix_iff t _).mpr ht
    have hscan := scanChars_flatMap_of_infix hone
    rwa [List.flatMap_singleton] at hscan

theorem scan_join_of_infix_of_open_string :
    let ts : List Token :=
      [⟨.number, "1"⟩, ⟨.dot, "."⟩, ⟨.op, "/"⟩, ⟨.error, "'a"⟩, ⟨.error, "\\"⟩]
    ts <:+: scan " 1./'a\\\n/*" ∧ scan "1./'a\\" = ts ∧
      (⟨.comment, "/*"⟩ : Token) ∈ scan " 1./'a\\\n/*" ∧ scan "/*" = [⟨.comment, "/*"⟩] := by
  intro ts
  obtain ⟨hjoin, hone⟩ := scan_join_of_infix " 1./'a\\\n/*"
  have hsplit : [⟨.whitespace, " "⟩] ++ ts ++ [⟨.whitespace, "\n"⟩, ⟨.comment, "/*"⟩] =
      scan " 1./'a\\\n/*" := by
    decide +kernel
  have hmem : (⟨.comment, "/*"⟩ : Token) ∈ scan " 1./'a\\\n/*" := by
    rw [← hsplit]
    exact List.mem_append_right _ (.tail _ (.head _))
  exact ⟨⟨_, _, hsplit⟩, hjoin ts ⟨_, _, hsplit⟩, hmem, hone _ hmem⟩

end Token

end ClassNav
