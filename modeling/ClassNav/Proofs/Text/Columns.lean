import ClassNav.Files.Store
import ClassNav.Proofs.Text.LineIndex

/-!
# From lines and columns to bytes

What the way back from a line and a column does when they belong to no byte. It adds the column to
the start of the line and asks whether the sum is past the start of the next line, and both the sum
and the question can go wrong:

* the start of the next line passes, though it is not in the line (`LineIndex.BehindLineEnd`), so
  that one byte is reached from two columns;
* the sum of a start and a column need not be a word (`LineIndex.LeavesRange`), which is an error
  even though the column is far past the end of the line.

For every other line and column the way back is right: it leads to the byte they belong to, or to
none (`LineIndex.faithfulAt_iff`). The caret that a store answers is right for the same ones.
-/

namespace ClassNav

/-! ## The bytes of one line -/

section

variable {bs : List UInt8} {a b line : Nat}

theorem linesBefore_mono (bs : List UInt8) (h : a ≤ b) : linesBefore bs a ≤ linesBefore bs b := by
  obtain h | h := linesBefore_lt_or bs h
  · exact Nat.le_of_lt h
  · exact Nat.le_of_eq h.1

/-- Bytes of one line have one start. -/
theorem lineStart_eq (h : linesBefore bs a = linesBefore bs b) :
    lineStart bs a = lineStart bs b := by
  obtain hle | hle := Nat.le_total a b
  · exact ((linesBefore_lt_or bs hle).resolve_left (Nat.not_lt.mpr (Nat.le_of_eq h.symm))).2
  · exact ((linesBefore_lt_or bs hle).resolve_left (Nat.not_lt.mpr (Nat.le_of_eq h))).2.symm

theorem linesBefore_lineStart (bs : List UInt8) (offset : Nat) :
    linesBefore bs (lineStart bs offset) = linesBefore bs offset := by
  induction offset with
  | zero => rfl
  | succ before ih =>
    rw [lineStart]
    split
    · rfl
    · next h => rw [ih, linesBefore_succ, if_neg h, Nat.add_zero]

/-- No line is left out on the way to a byte. -/
theorem exists_linesBefore_eq (h : line ≤ linesBefore bs b) :
    ∃ offset ≤ b, linesBefore bs offset = line := by
  induction b with
  | zero => exact ⟨0, Nat.le_refl 0, (Nat.le_zero.mp h).symm⟩
  | succ b ih =>
    obtain heq | hlt := Nat.eq_or_lt_of_le h
    · exact ⟨b + 1, Nat.le_refl _, heq.symm⟩
    · have hstep : linesBefore bs (b + 1) ≤ linesBefore bs b + 1 := by
        rw [linesBefore_succ]
        split <;> omega
      obtain ⟨offset, hle, hline⟩ := ih (Nat.le_of_lt_succ (Nat.lt_of_lt_of_le hlt hstep))
      exact ⟨offset, Nat.le_succ_of_le hle, hline⟩

theorem linesBefore_of_lineEnd (h : bs[a]? = some lineEnd) :
    linesBefore bs (a + 1) = linesBefore bs a + 1 := by
  rw [linesBefore_succ, if_pos h]

theorem lineStart_of_lineEnd (h : bs[a]? = some lineEnd) : lineStart bs (a + 1) = a + 1 := by
  rw [lineStart, if_pos h]

/-- The start of a line that is not the first one is right behind a line end. -/
theorem exists_lineEnd (h : lineStart bs a = a) (hline : linesBefore bs a = line + 1) :
    ∃ before, a = before + 1 ∧ bs[before]? = some lineEnd ∧ linesBefore bs before = line := by
  cases a with
  | zero => cases hline
  | succ before =>
    have hend : bs[before]? = some lineEnd := by
      by_contra hne
      rw [lineStart, if_neg hne] at h
      have hle := lineStart_le bs before
      omega
    rw [linesBefore_of_lineEnd hend] at hline
    exact ⟨before, rfl, hend, Nat.succ.inj hline⟩

end

namespace LineIndex

variable {text : String} {lc : LineCol} {offset line : Nat}

/-! ## The end of a line -/

theorem length_starts (text : String) :
    (ofText text).starts.length = linesBefore (bytesOf text) text.utf8ByteSize + 1 := by
  rw [starts_ofText, List.length_cons, List.length_idxsOf, linesBefore, ← length_bytesOf,
    List.take_length]

/-- Every line of an index has a byte, or the end of the text. -/
theorem exists_of_lt_length (h : line < (ofText text).starts.length) :
    ∃ offset ≤ text.utf8ByteSize, linesBefore (bytesOf text) offset = line := by
  rw [length_starts] at h
  exact exists_linesBefore_eq (Nat.le_of_lt_succ h)

theorem lineStop_le (text : String) (line : Nat) :
    (ofText text).lineStop line ≤ text.utf8ByteSize := by
  rw [lineStop]
  cases hstart : (ofText text).starts[line + 1]? with
  | none => exact Nat.le_refl _
  | some start =>
    obtain ⟨offset, hle, hline⟩ := exists_of_lt_length (List.getElem?_eq_some_iff.mp hstart).1
    rw [← hline, starts_linesBefore hle, Option.some_inj] at hstart
    subst hstart
    exact Nat.le_trans (lineStart_le _ _) hle

/-- A line that is ended ends behind its line end, where the next line starts. -/
theorem lineStop_of_lineEnd (h : (bytesOf text)[offset]? = some lineEnd) :
    (ofText text).lineStop (linesBefore (bytesOf text) offset) = offset + 1 := by
  have hlt : offset < (bytesOf text).length := (List.getElem?_eq_some_iff.mp h).1
  rw [length_bytesOf] at hlt
  rw [lineStop, ← linesBefore_of_lineEnd h, starts_linesBefore hlt, lineStart_of_lineEnd h,
    Option.getD_some]

/-- What is not past the end of a line, as the index sees it: the bytes of the line, the end of the
text if it is in the line, and the byte right behind the line end, which is not. -/
theorem le_lineStop_iff {a : Nat} (ha : lineStart (bytesOf text) offset ≤ a) :
    a ≤ (ofText text).lineStop (linesBefore (bytesOf text) offset) ↔
      a ≤ text.utf8ByteSize ∧ linesBefore (bytesOf text) a = linesBefore (bytesOf text) offset ∨
      ∃ before, a = before + 1 ∧ (bytesOf text)[before]? = some lineEnd ∧
        linesBefore (bytesOf text) before = linesBefore (bytesOf text) offset := by
  constructor
  · intro hstop
    have hle := Nat.le_trans hstop (lineStop_le text _)
    have hmono := linesBefore_mono (bytesOf text) ha
    rw [linesBefore_lineStart] at hmono
    obtain heq | hlt := Nat.eq_or_lt_of_le hmono
    · exact .inl ⟨hle, heq.symm⟩
    · -- Some line end is before the byte, so the index ends the line at the start of the next one.
      obtain ⟨next, hnext, hline⟩ := exists_linesBefore_eq hlt
      have hstart := starts_linesBefore (Nat.le_trans hnext hle)
      rw [lineStop, ← Nat.succ_eq_add_one, ← hline, hstart, Option.getD_some] at hstop
      have heq : lineStart (bytesOf text) next = a :=
        Nat.le_antisymm (Nat.le_trans (lineStart_le _ _) hnext) hstop
      have hlines : linesBefore (bytesOf text) a = linesBefore (bytesOf text) next := by
        rw [← heq, linesBefore_lineStart]
      exact .inr (exists_lineEnd ((lineStart_eq hlines).trans heq) (hlines.trans hline))
  · rintro (⟨hle, hline⟩ | ⟨before, rfl, hend, hline⟩)
    · rw [← hline]
      exact le_lineStop hle
    · rw [← hline, lineStop_of_lineEnd hend]

/-! ## The way back -/

/-- The way back adds the column to the start of the line, and gives up past the end of the line. -/
theorem offset?_of_linesBefore (h : offset ≤ text.utf8ByteSize)
    (hline : linesBefore (bytesOf text) offset = lc.line.toNat) : (ofText text).offset? lc =
      (addWords (lineStart (bytesOf text) offset) lc.col.toNat).map fun a =>
        if a ≤ (ofText text).lineStop (linesBefore (bytesOf text) offset) then some a else none := by
  rw [offset?, ← hline, starts_linesBefore h]

theorem offset?_of_no_line
    (h : ∀ offset ≤ text.utf8ByteSize, linesBefore (bytesOf text) offset ≠ lc.line.toNat) :
    (ofText text).offset? lc = .ok none := by
  have hnone : (ofText text).starts[lc.line.toNat]? = none := by
    rw [List.getElem?_eq_none_iff]
    by_contra hlt
    obtain ⟨offset, hle, hline⟩ := exists_of_lt_length (Nat.not_le.mp hlt)
    exact h offset hle hline
  rw [offset?, hnone]

/-- The column is the one right behind the line end that ends the line. -/
def BehindLineEnd (text : String) (lc : LineCol) : Prop :=
  ∃ offset < text.utf8ByteSize, (bytesOf text)[offset]? = some lineEnd ∧
    linesBefore (bytesOf text) offset = lc.line.toNat ∧
      lineStart (bytesOf text) offset + lc.col.toNat = offset + 1

instance (text : String) (lc : LineCol) : Decidable (BehindLineEnd text lc) :=
  inferInstanceAs (Decidable (∃ offset < text.utf8ByteSize, _))

/-- There is such a line, and its start and the column have a sum that is no word. -/
def LeavesRange (text : String) (lc : LineCol) : Prop :=
  ∃ offset ≤ text.utf8ByteSize, linesBefore (bytesOf text) offset = lc.line.toNat ∧
    UInt32.size ≤ lineStart (bytesOf text) offset + lc.col.toNat

instance (text : String) (lc : LineCol) : Decidable (LeavesRange text lc) :=
  inferInstanceAs (Decidable (∃ offset ≤ text.utf8ByteSize, _))

/-- What the way back promises for a line and a column: it leads to a byte only if they are those of
the byte, and to none, without an error, if they are those of no byte. -/
structure FaithfulAt (text : String) (lc : LineCol) : Prop where
  sound : ∀ offset, (ofText text).offset? lc = .ok (some offset) →
    (ofText text).lineCol? offset = some lc
  none : (∀ offset, (ofText text).lineCol? offset ≠ some lc) → (ofText text).offset? lc = .ok none

theorem offset?_of_leavesRange (h : LeavesRange text lc) :
    (ofText text).offset? lc = .error .addition := by
  obtain ⟨offset, hle, hline, hsum⟩ := h
  rw [offset?_of_linesBefore hle hline, addWords, if_neg (Nat.not_lt.mpr hsum)]
  rfl

section

variable (hsize : text.utf8ByteSize < UInt32.size)

include hsize

/-- A line and a column are those of a byte if the line is its line and the column leads from the
start of that line to the byte. -/
theorem lineCol?_eq_some_iff : (ofText text).lineCol? offset = some lc ↔
    offset ≤ text.utf8ByteSize ∧ linesBefore (bytesOf text) offset = lc.line.toNat ∧
      lineStart (bytesOf text) offset + lc.col.toNat = offset := by
  constructor
  · intro h
    obtain ⟨hle, hline, hcol⟩ := toNat_of_lineCol? hsize h
    exact ⟨hle, hline.symm, hcol⟩
  · rintro ⟨hle, hline, hcol⟩
    rw [lineCol?_eq hle, hline, Nat.sub_eq_of_eq_add' hcol.symm]
    simp

/-- Behind a line end the way back leads to the start of the next line. -/
theorem offset?_of_behindLineEnd (h : BehindLineEnd text lc) :
    ∃ offset, (ofText text).offset? lc = .ok (some offset) ∧
      (ofText text).lineCol? offset = some ⟨lc.line + 1, 0⟩ := by
  obtain ⟨before, hlt, hend, hline, hcol⟩ := h
  refine ⟨before + 1, ?_, (lineCol?_eq_some_iff hsize).mpr ⟨hlt, ?_, ?_⟩⟩
  · rw [offset?_of_linesBefore (Nat.le_of_lt hlt) hline, addWords, hcol,
      if_pos (Nat.lt_of_le_of_lt hlt hsize), Except.map,
      if_pos (Nat.le_of_eq (lineStop_of_lineEnd hend).symm)]
  · have hword : lc.line.toNat + 1 < UInt32.size := by
      have hle := linesBefore_le (bytesOf text) before
      omega
    rw [linesBefore_of_lineEnd hend, hline, UInt32.toNat_add, UInt32.toNat_one,
      Nat.mod_eq_of_lt hword]
  · rw [lineStart_of_lineEnd hend, UInt32.toNat_zero, Nat.add_zero]

/-- A line and a column that are in range, and not right behind a line end, lead to a byte if and
only if they are those of the byte, and else to none. -/
theorem offset?_eq (hbehind : ¬ BehindLineEnd text lc) (hrange : ¬ LeavesRange text lc) :
    (∃ offset, (ofText text).offset? lc = .ok (some offset) ∧
      (ofText text).lineCol? offset = some lc) ∨ (ofText text).offset? lc = .ok none := by
  by_cases hline : ∃ offset ≤ text.utf8ByteSize, linesBefore (bytesOf text) offset = lc.line.toNat
  · obtain ⟨offset, hle, hline⟩ := hline
    have hsum : lineStart (bytesOf text) offset + lc.col.toNat < UInt32.size := by
      by_contra hge
      exact hrange ⟨offset, hle, hline, Nat.not_lt.mp hge⟩
    rw [offset?_of_linesBefore hle hline, addWords, if_pos hsum, Except.map]
    split
    · next hstop =>
      refine .inl ⟨_, rfl, (lineCol?_eq_some_iff hsize).mpr ?_⟩
      obtain ⟨ha, hsame⟩ | ⟨before, ha, hend, hsame⟩ :=
        (le_lineStop_iff (Nat.le_add_right _ _)).mp hstop
      · exact ⟨ha, hsame.trans hline, by rw [lineStart_eq hsame]⟩
      · have hlt : before < text.utf8ByteSize :=
          length_bytesOf text ▸ (List.getElem?_eq_some_iff.mp hend).1
        rw [← lineStart_eq hsame] at ha
        exact absurd ⟨before, hlt, hend, hsame.trans hline, ha⟩ hbehind
    · exact .inr rfl
  · exact .inr (offset?_of_no_line fun offset hle heq => hline ⟨offset, hle, heq⟩)

/-- The way back keeps its promise unless the column is right behind a line end, or the sum is no
word. -/
theorem faithfulAt_iff : FaithfulAt text lc ↔ ¬ BehindLineEnd text lc ∧ ¬ LeavesRange text lc := by
  constructor
  · intro h
    refine ⟨fun hbehind => ?_, fun hrange => ?_⟩
    · obtain ⟨offset, hback, hnext⟩ := offset?_of_behindLineEnd hsize hbehind
      have heq := Option.some.inj (hnext.symm.trans (h.sound offset hback))
      exact absurd (congrArg LineCol.line heq) (by simp)
    · have herror := offset?_of_leavesRange hrange
      -- A line and a column that are those of a byte lead to it, and not to an error.
      have hno : ∀ offset, (ofText text).lineCol? offset ≠ some lc := fun offset hlc => by
        cases herror.symm.trans (offset?_of_lineCol? hsize hlc)
      cases herror.symm.trans (h.none hno)
  · rintro ⟨hbehind, hrange⟩
    obtain ⟨offset, hback, hlc⟩ | hback := offset?_eq hsize hbehind hrange
    · refine ⟨fun a ha => ?_, fun hno => absurd hlc (hno offset)⟩
      cases hback.symm.trans ha
      exact hlc
    · refine ⟨fun a ha => ?_, fun _ => hback⟩
      cases hback.symm.trans ha

end

end LineIndex

/-! ## Carets of a store -/

namespace Store

/-- The same promise for the caret that a store answers. -/
structure FaithfulAt (s : Store) (f : FileId) (lc : LineCol) : Prop where
  sound : ∀ p, s.position? f lc = .ok (some p) →
    p.file = f ∧ ∃ text, s.text? f = some text ∧
      (LineIndex.ofText text).lineCol? p.offset = some lc
  none : (∀ text, s.text? f = some text →
    ∀ offset, (LineIndex.ofText text).lineCol? offset ≠ some lc) → s.position? f lc = .ok none

section

variable {s : Store} {f : FileId} {text : String} {lc : LineCol} (h : s.text? f = some text)

include h

theorem position?_eq_some_iff {p : FilePosition} : s.position? f lc = .ok (some p) ↔
    p.file = f ∧ (LineIndex.ofText text).offset? lc = .ok (some p.offset) := by
  obtain ⟨file, offset⟩ := p
  simp only [position?, h]
  rcases (LineIndex.ofText text).offset? lc with e | _ | o <;> simp [Except.map, eq_comm]

theorem position?_eq_none_iff : s.position? f lc = .ok none ↔
    (LineIndex.ofText text).offset? lc = .ok none := by
  simp only [position?, h]
  rcases (LineIndex.ofText text).offset? lc with e | _ | o <;> simp [Except.map]

theorem faithfulAt_iff : s.FaithfulAt f lc ↔ LineIndex.FaithfulAt text lc := by
  have htext : ∀ {text'}, s.text? f = some text' → text' = text := fun h' =>
    Option.some.inj (h'.symm.trans h)
  constructor
  · rintro ⟨hsound, hnone⟩
    refine ⟨fun offset ho => ?_, fun hno => ?_⟩
    · obtain ⟨-, text', h', hlc⟩ := hsound ⟨f, offset⟩ ((position?_eq_some_iff h).mpr ⟨rfl, ho⟩)
      exact htext h' ▸ hlc
    · exact (position?_eq_none_iff h).mp (hnone fun text' h' => htext h' ▸ hno)
  · rintro ⟨hsound, hnone⟩
    refine ⟨fun p hp => ?_, fun hno => ?_⟩
    · obtain ⟨hfile, ho⟩ := (position?_eq_some_iff h).mp hp
      exact ⟨hfile, text, h, hsound p.offset ho⟩
    · exact (position?_eq_none_iff h).mpr (hnone (hno text h))

end

end Store

namespace LineIndex

/-- In a text whose length fits into a word, the way back is right for every line and column except
two kinds: right behind a line end it leads to the start of the next line, and where the byte would
be no word it is an error. The same holds of the carets in a file with this text. -/
theorem offset?_faithful_iff (text : String) (hsize : text.utf8ByteSize < UInt32.size)
    (lc : LineCol) :
    (FaithfulAt text lc ↔ ¬ BehindLineEnd text lc ∧ ¬ LeavesRange text lc) ∧
      (BehindLineEnd text lc → ∃ offset, (ofText text).offset? lc = .ok (some offset) ∧
        (ofText text).lineCol? offset = some ⟨lc.line + 1, 0⟩) ∧
      (LeavesRange text lc → (ofText text).offset? lc = .error .addition) ∧
      ∀ (s : Store) (f : FileId), s.text? f = some text →
        (s.FaithfulAt f lc ↔ ¬ BehindLineEnd text lc ∧ ¬ LeavesRange text lc) :=
  ⟨faithfulAt_iff hsize, offset?_of_behindLineEnd hsize, offset?_of_leavesRange,
    fun _ _ h => (Store.faithfulAt_iff h).trans (faithfulAt_iff hsize)⟩

theorem offset?_faithful_iff_of_two_bytes :
    let s := Store.empty.setText ⟨0⟩ "a\né"
    s.text? ⟨0⟩ = some "a\né" ∧ FaithfulAt "a\né" ⟨1, 1⟩ ∧ s.FaithfulAt ⟨0⟩ ⟨0, 3⟩ ∧
      s.position? ⟨0⟩ ⟨1, 1⟩ = .ok (some ⟨⟨0⟩, 3⟩) ∧ s.position? ⟨0⟩ ⟨0, 3⟩ = .ok none := by
  intro s
  have htext : s.text? ⟨0⟩ = some "a\né" := rfl
  have hsize : "a\né".utf8ByteSize < UInt32.size := by decide +kernel
  exact ⟨htext, (offset?_faithful_iff _ hsize ⟨1, 1⟩).1.mpr (by decide +kernel),
    ((offset?_faithful_iff _ hsize ⟨0, 3⟩).2.2.2 s ⟨0⟩ htext).mpr (by decide +kernel),
    by decide +kernel, by decide +kernel⟩

/-- The start of the second line passes for a column of the first one, and a column that is far past
the end of the second line is an error. -/
theorem not_faithfulAt_of_two_lines :
    ¬ FaithfulAt "a\nb" ⟨0, 2⟩ ∧ ¬ FaithfulAt "a\nb" ⟨1, 4294967294⟩ ∧
      (ofText "a\nb").offset? ⟨0, 2⟩ = .ok (some 2) ∧
        (ofText "a\nb").lineCol? 2 = some ⟨1, 0⟩ ∧
          (ofText "a\nb").offset? ⟨1, 4294967294⟩ = .error .addition := by
  have hnext : (ofText "a\nb").offset? ⟨0, 2⟩ = .ok (some 2) := by decide +kernel
  have hback : (ofText "a\nb").lineCol? 2 = some ⟨1, 0⟩ := by decide +kernel
  have herror : (ofText "a\nb").offset? ⟨1, 4294967294⟩ = .error .addition := by decide +kernel
  refine ⟨fun h => ?_, fun h => ?_, hnext, hback, herror⟩
  · cases hback.symm.trans (h.sound 2 hnext)
  · have hno : ∀ offset, (ofText "a\nb").lineCol? offset ≠ some ⟨1, 4294967294⟩ := by
      intro offset hlc
      cases herror.symm.trans (offset?_of_lineCol? (by decide +kernel) hlc)
    cases herror.symm.trans (h.none hno)

end LineIndex

end ClassNav
