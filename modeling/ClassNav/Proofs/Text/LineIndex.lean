import ClassNav.Text.LineIndex
import Mathlib.Data.List.Count
import Mathlib.Data.Prod.Lex

/-!
# Bytes, lines and columns

Lines are counted here on the bytes of a text, without an index: `linesBefore` is the number of line
ends before a byte, and `lineStart` goes back from the byte to the last of them. A line index keeps
the places right behind all line ends, in order (`LineIndex.starts_ofText`). Of these, the ones up
to a byte are those of the text before the byte (`LineIndex.starts_split`), so there are as many as
there are line ends before it, and the last one is the start of its line.

Hence the line and the column that the index gives are those of the byte (`LineIndex.lineCol?_eq`),
the way back leads to the byte again (`LineIndex.offset?_of_lineCol?`), and later bytes have later
lines or, in the same line, later columns (`LineIndex.lineCol?_lt`).
-/

namespace ClassNav

/-! ## Lines of bytes -/

/-- The byte that ends a line. -/
def lineEnd : UInt8 := 10

def bytesOf (text : String) : List UInt8 := text.toByteArray.data.toList

/-- How many line ends there are before a byte. -/
def linesBefore (bs : List UInt8) (offset : Nat) : Nat := (bs.take offset).count lineEnd

/-- Where the line of a byte starts: right behind the last line end before the byte, or at the start
of the text. -/
def lineStart (bs : List UInt8) : Nat → Nat
  | 0 => 0
  | before + 1 => if bs[before]? = some lineEnd then before + 1 else lineStart bs before

variable {bs : List UInt8} {offset a b : Nat}

theorem lineStart_le (bs : List UInt8) (offset : Nat) : lineStart bs offset ≤ offset := by
  induction offset with
  | zero => exact Nat.le_refl 0
  | succ before ih =>
    rw [lineStart]
    split
    · exact Nat.le_refl _
    · exact Nat.le_succ_of_le ih

theorem linesBefore_succ (bs : List UInt8) (before : Nat) : linesBefore bs (before + 1) =
    linesBefore bs before + if bs[before]? = some lineEnd then 1 else 0 := by
  rw [linesBefore, List.take_add_one, List.count_append, linesBefore]
  cases bs[before]? with
  | none => simp
  | some c => simp [List.count_singleton]

theorem linesBefore_le (bs : List UInt8) (offset : Nat) : linesBefore bs offset ≤ offset :=
  Nat.le_trans List.count_le_length (List.length_take_le offset bs)

/-- Between two bytes there are line ends, or both are in one line. -/
theorem linesBefore_lt_or (bs : List UInt8) (h : a ≤ b) : linesBefore bs a < linesBefore bs b ∨
    linesBefore bs a = linesBefore bs b ∧ lineStart bs a = lineStart bs b := by
  induction b, h using Nat.le_induction with
  | base => exact .inr ⟨rfl, rfl⟩
  | succ b _ ih =>
    rw [linesBefore_succ, lineStart]
    split
    · exact .inl (by omega)
    · exact ih

/-! ## Line ends among the characters -/

theorem bytesOf_eq (text : String) : bytesOf text = text.toList.flatMap String.utf8EncodeChar := by
  obtain ⟨cs, rfl⟩ : ∃ cs, text = String.ofList cs := ⟨text.toList, String.ofList_toList.symm⟩
  rw [bytesOf, String.toByteArray_ofList, String.toList_ofList, List.utf8Encode,
    List.toList_data_toByteArray]

theorem length_bytesOf (text : String) : (bytesOf text).length = text.utf8ByteSize := by
  rw [bytesOf, Array.length_toList]
  rfl

theorem lineEnd_ne_ofNat {n : Nat} (h : 128 ≤ n) (h' : n < 256) : lineEnd ≠ UInt8.ofNat n := by
  intro heq
  have hnat := congrArg UInt8.toNat heq
  rw [UInt8.toNat_ofNat', Nat.mod_eq_of_lt h'] at hnat
  have hend : lineEnd.toNat = 10 := rfl
  omega

/-- The byte of a line end occurs in no other character. -/
theorem eq_of_lineEnd_mem {c : Char} (h : lineEnd ∈ String.utf8EncodeChar c) : c = '\n' := by
  unfold String.utf8EncodeChar at h
  simp only at h
  split at h
  · next hsmall =>
    have heq := congrArg UInt8.toNat (List.mem_singleton.mp h)
    rw [UInt8.toNat_ofNat', Nat.mod_eq_of_lt (Nat.lt_of_le_of_lt hsmall (by decide))] at heq
    exact Char.val_inj.mp (UInt32.toNat_inj.mp heq.symm)
  · -- A longer character has bytes from 128 on only.
    generalize c.val.toNat = v at h
    split_ifs at h <;>
      simp (disch := omega) only [List.mem_cons, lineEnd_ne_ofNat, List.not_mem_nil, or_self] at h

/-- Line ends can be looked for among the bytes, since no other character has that byte in it. -/
theorem idxsOf_utf8EncodeChar (c : Char) (start : Nat) :
    (String.utf8EncodeChar c).idxsOf lineEnd start = if c = '\n' then [start] else [] := by
  split
  · next h =>
    subst h
    rfl
  · next h =>
    refine List.idxsOf_eq_nil_iff.mpr fun b hb => ?_
    rw [beq_eq_false_iff_ne]
    rintro rfl
    exact h (eq_of_lineEnd_mem hb)

namespace LineIndex

theorem startsAfter_eq (start : Nat) (cs : List Char) : startsAfter start cs =
    (cs.flatMap String.utf8EncodeChar).idxsOf lineEnd (start + 1) := by
  induction cs generalizing start with
  | nil => rfl
  | cons c cs ih =>
    rw [startsAfter, List.flatMap_cons, List.idxsOf_append, idxsOf_utf8EncodeChar,
      String.length_utf8EncodeChar, ih, Nat.add_right_comm]
    split
    · next h =>
      subst h
      rfl
    · rfl

/-- An index keeps the start of the text and the places right behind all line ends, in order. -/
theorem starts_ofText (text : String) :
    (ofText text).starts = 0 :: (bytesOf text).idxsOf lineEnd 1 := by
  rw [ofText, startsAfter_eq, bytesOf_eq]

/-! ## The starts up to a byte -/

/-- The starts of lines up to a byte. -/
def startsUpTo (bs : List UInt8) (offset : Nat) : List Nat :=
  0 :: (bs.take offset).idxsOf lineEnd 1

/-- A byte is on the line with the number of line starts up to it, less one. -/
theorem length_startsUpTo (bs : List UInt8) (offset : Nat) :
    (startsUpTo bs offset).length = linesBefore bs offset + 1 := by
  rw [startsUpTo, List.length_cons, List.length_idxsOf, linesBefore]

theorem startsUpTo_succ (bs : List UInt8) (before : Nat) : startsUpTo bs (before + 1) =
    startsUpTo bs before ++ if bs[before]? = some lineEnd then [before + 1] else [] := by
  rw [startsUpTo, List.take_add_one, List.idxsOf_append, ← List.cons_append, ← startsUpTo]
  congr 1
  cases hbyte : bs[before]? with
  | none => simp
  | some c =>
    have hlen := (List.getElem?_eq_some_iff.mp hbyte).1
    rw [List.length_take_of_le (Nat.le_of_lt hlen), Nat.add_comm 1]
    by_cases h : c = lineEnd <;> simp [List.idxsOf_cons, h]

/-- The last start up to a byte is that of its line. -/
theorem getLast?_startsUpTo (bs : List UInt8) (offset : Nat) :
    (startsUpTo bs offset).getLast? = some (lineStart bs offset) := by
  induction offset with
  | zero => rfl
  | succ before ih =>
    rw [startsUpTo_succ, lineStart]
    split
    · rw [List.getLast?_append, List.getLast?_singleton]
      rfl
    · rw [List.append_nil, ih]

theorem le_of_mem_startsUpTo {start : Nat} (h : start ∈ startsUpTo bs offset) : start ≤ offset := by
  obtain rfl | h := List.mem_cons.mp h
  · exact Nat.zero_le offset
  · have hlt := List.lt_add_of_mem_idxsOf start h
    have hle := List.length_take_le offset bs
    omega

variable {text : String}

theorem length_ofText (text : String) : (ofText text).length = text.utf8ByteSize := rfl

/-- Behind the starts up to a byte come the starts past it. -/
theorem starts_split (h : offset ≤ text.utf8ByteSize) : ∃ later : List Nat,
    (∀ start ∈ later, offset < start) ∧
      (ofText text).starts = startsUpTo (bytesOf text) offset ++ later := by
  rw [← length_bytesOf] at h
  refine ⟨((bytesOf text).drop offset).idxsOf lineEnd (1 + offset), fun start hs => ?_, ?_⟩
  · have hge := List.ge_of_mem_idxsOf start hs
    omega
  · rw [starts_ofText, startsUpTo, List.cons_append, List.cons_inj_right]
    conv => lhs; rw [← List.take_append_drop offset (bytesOf text), List.idxsOf_append,
      List.length_take_of_le h]

theorem takeWhile_starts (h : offset ≤ text.utf8ByteSize) :
    (ofText text).starts.takeWhile (· ≤ offset) = startsUpTo (bytesOf text) offset := by
  obtain ⟨later, hlater, hstarts⟩ := starts_split h
  have hnone : later.takeWhile (· ≤ offset) = [] := by
    cases later with
    | nil => rfl
    | cons start _ =>
      have hpast := hlater start List.mem_cons_self
      simp [hpast]
  rw [hstarts, List.takeWhile_append_of_pos fun start hs => by simpa using le_of_mem_startsUpTo hs,
    hnone, List.append_nil]

/-- The table of line starts has the start of the line of a byte at the number of that line. -/
theorem starts_linesBefore (h : offset ≤ text.utf8ByteSize) :
    (ofText text).starts[linesBefore (bytesOf text) offset]? =
      some (lineStart (bytesOf text) offset) := by
  obtain ⟨later, -, hstarts⟩ := starts_split h
  have hlen := length_startsUpTo (bytesOf text) offset
  rw [hstarts, List.getElem?_append_left (by omega), ← getLast?_startsUpTo,
    List.getLast?_eq_getElem?, hlen, Nat.add_sub_cancel]

theorem le_lineStop (h : offset ≤ text.utf8ByteSize) :
    offset ≤ (ofText text).lineStop (linesBefore (bytesOf text) offset) := by
  obtain ⟨later, hlater, hstarts⟩ := starts_split h
  have hlen := length_startsUpTo (bytesOf text) offset
  rw [lineStop, hstarts, List.getElem?_append_right (by omega), hlen, Nat.sub_self]
  cases later with
  | nil => exact h
  | cons start _ => exact Nat.le_of_lt (hlater start List.mem_cons_self)

/-! ## The line and the column of a byte -/

theorem lineCol?_eq_none_iff :
    (ofText text).lineCol? offset = none ↔ text.utf8ByteSize < offset := by
  rw [lineCol?, length_ofText]
  split <;> simp_all

/-- The line of a byte counts the line ends before it, the column the bytes from the start of the
line. -/
theorem lineCol?_eq (h : offset ≤ text.utf8ByteSize) : (ofText text).lineCol? offset =
    some ⟨(linesBefore (bytesOf text) offset).toUInt32,
      (offset - lineStart (bytesOf text) offset).toUInt32⟩ := by
  rw [lineCol?, length_ofText, if_neg (Nat.not_lt.mpr h)]
  simp only [takeWhile_starts h, length_startsUpTo, Nat.add_sub_cancel, starts_linesBefore h,
    Option.getD_some]

/-- In a text whose length fits into a word, the line and the column of a byte are exact. -/
theorem toNat_of_lineCol? (hsize : text.utf8ByteSize < UInt32.size) {lc : LineCol}
    (h : (ofText text).lineCol? offset = some lc) : offset ≤ text.utf8ByteSize ∧
      lc.line.toNat = linesBefore (bytesOf text) offset ∧
        lineStart (bytesOf text) offset + lc.col.toNat = offset := by
  have hle : offset ≤ text.utf8ByteSize := by
    by_contra hgt
    rw [lineCol?_eq_none_iff.mpr (Nat.not_le.mp hgt)] at h
    cases h
  have hlines := linesBefore_le (bytesOf text) offset
  have hstart := lineStart_le (bytesOf text) offset
  rw [lineCol?_eq hle, Option.some_inj] at h
  subst h
  refine ⟨hle, UInt32.toNat_ofNat_of_lt' (by omega), ?_⟩
  rw [UInt32.toNat_ofNat_of_lt' (by omega)]
  omega

/-- The line and the column of a byte lead back to it. -/
theorem offset?_of_lineCol? (hsize : text.utf8ByteSize < UInt32.size) {lc : LineCol}
    (h : (ofText text).lineCol? offset = some lc) :
    (ofText text).offset? lc = .ok (some offset) := by
  obtain ⟨hle, hline, hcol⟩ := toNat_of_lineCol? hsize h
  rw [offset?, hline, starts_linesBefore hle]
  simp only [addWords, hcol]
  rw [if_pos (Nat.lt_of_le_of_lt hle hsize), Except.map, if_pos (le_lineStop hle)]

/-- A later byte is in a later line or, in the same line, has a later column. -/
theorem lineCol?_lt (hsize : text.utf8ByteSize < UInt32.size) {l r : LineCol}
    (hl : (ofText text).lineCol? a = some l) (hr : (ofText text).lineCol? b = some r) (h : a < b) :
    toLex (l.line, l.col) < toLex (r.line, r.col) := by
  obtain ⟨-, hlline, hlcol⟩ := toNat_of_lineCol? hsize hl
  obtain ⟨-, hrline, hrcol⟩ := toNat_of_lineCol? hsize hr
  have hlines := linesBefore_lt_or (bytesOf text) (Nat.le_of_lt h)
  simp only [Prod.Lex.toLex_lt_toLex, UInt32.lt_iff_toNat_lt, ← UInt32.toNat_inj]
  omega

/-- In a text whose length fits into a word, every byte up to the end has its own line and column,
in the order of the bytes, and they lead back to it. -/
theorem lineCol?_ofText (text : String) (hsize : text.utf8ByteSize < UInt32.size) :
    (∀ offset, (ofText text).lineCol? offset = none ↔ text.utf8ByteSize < offset) ∧
      (∀ offset lc, (ofText text).lineCol? offset = some lc →
        lc.line.toNat = linesBefore (bytesOf text) offset ∧
          lineStart (bytesOf text) offset + lc.col.toNat = offset ∧
            (ofText text).offset? lc = .ok (some offset)) ∧
      (∀ a b lc, (ofText text).lineCol? a = some lc → (ofText text).lineCol? b = some lc → a = b) ∧
      ∀ a b l r, a < b → (ofText text).lineCol? a = some l → (ofText text).lineCol? b = some r →
        toLex (l.line, l.col) < toLex (r.line, r.col) := by
  refine ⟨fun _ => lineCol?_eq_none_iff, fun offset lc h => ?_, fun a b lc ha hb => ?_,
    fun a b l r h hl hr => lineCol?_lt hsize hl hr h⟩
  · obtain ⟨-, hline, hcol⟩ := toNat_of_lineCol? hsize h
    exact ⟨hline, hcol, offset?_of_lineCol? hsize h⟩
  · have hback := (offset?_of_lineCol? hsize ha).symm.trans (offset?_of_lineCol? hsize hb)
    injection hback with hback
    injection hback

/-- With an empty line, a character of two bytes and a line end as the last byte: the end of the
text is the start of the line behind it, after the last column of the line before. -/
theorem lineCol?_ofText_of_empty_line :
    let ix := ofText "a\n\né\n"
    ix.lineCol? 5 = some ⟨2, 2⟩ ∧ ix.lineCol? 6 = some ⟨3, 0⟩ ∧ ix.lineCol? 7 = none ∧
      linesBefore (bytesOf "a\n\né\n") 6 = 3 ∧ ix.offset? ⟨3, 0⟩ = .ok (some 6) ∧
        toLex ((2, 2) : UInt32 × UInt32) < toLex (3, 0) := by
  obtain ⟨hnone, hexact, -, hmono⟩ := lineCol?_ofText "a\n\né\n" (by decide +kernel)
  have hlast : (ofText "a\n\né\n").lineCol? 5 = some ⟨2, 2⟩ := by decide +kernel
  have hend : (ofText "a\n\né\n").lineCol? 6 = some ⟨3, 0⟩ := by decide +kernel
  obtain ⟨hline, -, hback⟩ := hexact 6 ⟨3, 0⟩ hend
  exact ⟨hlast, hend, (hnone 7).mpr (by decide +kernel), hline.symm, hback,
    hmono 5 6 ⟨2, 2⟩ ⟨3, 0⟩ (by decide) hlast hend⟩

end LineIndex

end ClassNav
