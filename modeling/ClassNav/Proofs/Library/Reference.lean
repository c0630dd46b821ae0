import ClassNav.Library.Reference
import Mathlib.Data.List.Basic

/-!
# Reading and writing library references

The texts that are library references are `haxelib|`, a name, a bar and a version, where the name is
not empty and neither has a bar in it (`LibraryRef.Spells`). Reading accepts these texts and no
others, and writing gives them back; a text that is refused has a first flaw, in the order of the
checks (`LibraryRef.refusal`).

Both directions rest on splitting at a separator: the fields of a text are the only pieces without
separator that make up the text when they are joined (`splitOn_eq_iff`).
-/

namespace ClassNav

/-! ## Fields -/

section

variable {sep c : Char} {cs : List Char} {ws : List (List Char)}

theorem splitOn_cons_self (sep : Char) (cs : List Char) :
    (sep :: cs).splitOn sep = [] :: cs.splitOn sep := by
  rw [List.splitOn_cons_eq_if_modifyHead, if_pos (beq_self_eq_true sep)]

/-- A character that is no separator goes to the first field. -/
theorem splitOn_cons_of_ne (cs : List Char) (h : c ≠ sep) : ∃ w ws,
    cs.splitOn sep = w :: ws ∧ (c :: cs).splitOn sep = (c :: w) :: ws := by
  obtain ⟨w, ws, hws⟩ := List.exists_cons_of_ne_nil (List.splitOn_ne_nil sep cs)
  refine ⟨w, ws, hws, ?_⟩
  rw [List.splitOn_cons_eq_if_modifyHead, if_neg (by simpa using h), hws, List.modifyHead_cons]

/-- There is one field more than there are separators. -/
theorem length_splitOn (sep : Char) (cs : List Char) :
    (cs.splitOn sep).length = cs.count sep + 1 := by
  induction cs with
  | nil => rfl
  | cons c cs ih =>
    by_cases h : c = sep
    · rw [h, splitOn_cons_self, List.length_cons, ih, List.count_cons_self]
    · obtain ⟨w, ws, hws, hcons⟩ := splitOn_cons_of_ne cs h
      rw [hcons, List.count_cons_of_ne h, ← ih, hws, List.length_cons, List.length_cons]

/-- The first field of a text is what stands before the first separator. -/
theorem head?_splitOn (sep : Char) (cs : List Char) :
    (cs.splitOn sep).head? = some (cs.takeWhile (· ≠ sep)) := by
  induction cs with
  | nil => rfl
  | cons c cs ih =>
    by_cases h : c = sep
    · rw [h, splitOn_cons_self, List.head?_cons, List.takeWhile_cons_of_neg (by simp)]
    · obtain ⟨w, ws, hws, hcons⟩ := splitOn_cons_of_ne cs h
      rw [hws, List.head?_cons, Option.some_inj] at ih
      rw [hcons, List.head?_cons, List.takeWhile_cons_of_pos (by simpa using h), ih]

theorem not_mem_of_mem_splitOn {w : List Char} (h : w ∈ cs.splitOn sep) : sep ∉ w := by
  induction cs generalizing w with
  | nil =>
    rw [List.mem_singleton.mp h]
    exact List.not_mem_nil
  | cons c cs ih =>
    by_cases hc : c = sep
    · rw [hc, splitOn_cons_self, List.mem_cons] at h
      obtain rfl | h := h
      · exact List.not_mem_nil
      · exact ih h
    · obtain ⟨v, ws, hws, hcons⟩ := splitOn_cons_of_ne cs hc
      rw [hcons, List.mem_cons] at h
      obtain rfl | h := h
      · rw [List.mem_cons, not_or]
        exact ⟨Ne.symm hc, ih (hws ▸ List.mem_cons_self)⟩
      · exact ih (hws ▸ List.mem_cons_of_mem v h)

/-- The fields of a text are the only pieces without separator that make up the text. -/
theorem splitOn_eq_iff : cs.splitOn sep = ws ↔
    ws ≠ [] ∧ (∀ w ∈ ws, sep ∉ w) ∧ [sep].intercalate ws = cs := by
  constructor
  · rintro rfl
    exact ⟨List.splitOn_ne_nil sep cs, fun w => not_mem_of_mem_splitOn,
      List.intercalate_splitOn sep⟩
  · rintro ⟨hne, hplain, rfl⟩
    exact List.splitOn_intercalate sep hplain hne

end

namespace LibraryRef

variable {r : LibraryRef} {s : String}

/-! ## The texts of references -/

/-- The text of a library reference: `haxelib|`, a name that is not empty, a bar and a version,
without bars in the name and the version. -/
structure Spells (r : LibraryRef) (s : String) : Prop where
  name_ne : r.name ≠ ""
  name_plain : '|' ∉ r.name.toList
  version_plain : '|' ∉ r.version.toList
  text : s = "haxelib|" ++ r.name ++ "|" ++ r.version

theorem display_eq (r : LibraryRef) : r.display = "haxelib|" ++ r.name ++ "|" ++ r.version := by
  rw [← String.toList_inj, display, String.toList_ofList]
  simp [List.intercalate, source, separator]

/-- Without bars in the name and the version, a reference has three fields. -/
theorem splitOn_of_spells (h : r.Spells s) :
    s.toList.splitOn separator = [source.toList, r.name.toList, r.version.toList] := by
  have hsource : separator ∉ source.toList := by decide +kernel
  refine splitOn_eq_iff.mpr ⟨List.cons_ne_nil _ _, ?_, ?_⟩
  · simp only [List.mem_cons, List.not_mem_nil, or_false, forall_eq_or_imp, forall_eq]
    exact ⟨hsource, h.name_plain, h.version_plain⟩
  · rw [h.text, ← display_eq, display, String.toList_ofList]

/-- A text in the format is read as the reference that it spells. -/
theorem parse_of_spells (h : r.Spells s) : parse s = .ok r := by
  have hname : r.name.toList ≠ [] := fun hnil => h.name_ne (String.toList_eq_nil_iff.mp hnil)
  rw [parse, splitOn_of_spells h]
  simp only [ne_eq, not_true_eq_false, if_false, hname, String.ofList_toList]

/-- A text that is read as a reference is in the format. -/
theorem spells_of_parse (h : parse s = .ok r) : r.Spells s := by
  unfold parse at h
  split at h
  · next src name version hfields =>
    obtain ⟨-, hplain, htext⟩ := splitOn_eq_iff.mp hfields
    simp only [List.mem_cons, List.not_mem_nil, or_false, forall_eq_or_imp, forall_eq] at hplain
    split_ifs at h with hsource hname
    cases h
    refine ⟨fun hnil => hname (String.ofList_eq_empty_iff.mp hnil), ?_, ?_, ?_⟩
    · rw [String.toList_ofList]
      exact hplain.2.1
    · rw [String.toList_ofList]
      exact hplain.2.2
    · rw [← display_eq, display, String.toList_ofList, String.toList_ofList,
        ← not_not.mp hsource, htext, String.ofList_toList]
  · cases h

/-! ## What is refused -/

/-- What stands before the first bar of a text. -/
def firstField (s : String) : String := String.ofList (s.toList.takeWhile (· ≠ '|'))

/-- The first flaw of a text that is no library reference: the number of its fields, which is one
more than the number of its bars; its source; an empty name. -/
def refusal (s : String) : LibraryError :=
  if s.toList.count '|' + 1 ≠ 3 then .fieldCount (s.toList.count '|' + 1)
  else if firstField s ≠ "haxelib" then .unknownSource (firstField s)
  else .emptyName

/-- A text that is not in the format is refused for the first of its flaws. -/
theorem eq_refusal_of_parse {e : LibraryError} (h : parse s = .error e) : e = refusal s := by
  have hcount : (s.toList.splitOn separator).length = s.toList.count '|' + 1 :=
    length_splitOn separator s.toList
  unfold parse at h
  split at h
  · next src name version hfields =>
    have hfirst := head?_splitOn separator s.toList
    rw [hfields, List.head?_cons, Option.some_inj] at hfirst
    have hsrc : firstField s = String.ofList src := congrArg String.ofList hfirst.symm
    have hthree : ¬ s.toList.count '|' + 1 ≠ 3 := by
      rw [← hcount, hfields]
      exact not_not.mpr rfl
    rw [refusal, if_neg hthree, hsrc]
    -- With three fields, the source is looked at before the name.
    split_ifs at h with hsource hname
    · cases h
      have hne : String.ofList src ≠ "haxelib" := fun heq =>
        hsource (String.ofList_inj.mp (heq.trans String.ofList_toList.symm))
      rw [if_pos hne]
    · cases h
      rw [not_not.mp hsource, String.ofList_toList, source, if_neg (not_not.mpr rfl)]
  · next hno =>
    have hthree : s.toList.count '|' + 1 ≠ 3 := by
      rw [← hcount]
      intro hlength
      obtain ⟨src, name, version, hfields⟩ := List.length_eq_three.mp hlength
      exact hno src name version hfields
    cases h
    rw [refusal, if_pos hthree, hcount]

/-! ## Both directions -/

/-- Reading accepts the texts of library references and no others, writing gives the same text back,
every reference that can be written without loss is read again, and any other text is refused for
its first flaw. -/
theorem parse_codec :
    (∀ s r, parse s = .ok r ↔ r.Spells s) ∧
      (∀ s r, parse s = .ok r → r.display = s) ∧
      (∀ r : LibraryRef, r.name ≠ "" → '|' ∉ r.name.toList → '|' ∉ r.version.toList →
        parse r.display = .ok r) ∧
      ∀ s, (∀ r, ¬ LibraryRef.Spells r s) → parse s = .error (refusal s) := by
  refine ⟨fun s r => ⟨spells_of_parse, parse_of_spells⟩, fun s r h => ?_, fun r hne hn hv => ?_,
    fun s hno => ?_⟩
  · rw [display_eq, ← (spells_of_parse h).text]
  · exact parse_of_spells ⟨hne, hn, hv, display_eq r⟩
  · cases h : parse s with
    | ok r => exact absurd (spells_of_parse h) (hno r)
    | error e => rw [eq_refusal_of_parse h]

/-- An empty version is read and written; of two flaws, the source comes before the empty name. -/
theorem parse_codec_of_empty_fields :
    parse "haxelib|a|" = .ok ⟨"a", ""⟩ ∧ (⟨"a", ""⟩ : LibraryRef).display = "haxelib|a|" ∧
      parse (⟨"a", ""⟩ : LibraryRef).display = .ok ⟨"a", ""⟩ ∧
        parse "hax||" = .error (.unknownSource "hax") := by
  obtain ⟨hiff, hback, hround, hrefuse⟩ := parse_codec
  have hok : parse "haxelib|a|" = .ok ⟨"a", ""⟩ := by decide +kernel
  have hfails : (parse "hax||").isOk = false := by decide +kernel
  have hno : ∀ r, ¬ LibraryRef.Spells r "hax||" := fun r h => by
    rw [(hiff _ _).mpr h] at hfails
    cases hfails
  exact ⟨hok, hback _ _ hok, hround _ (by decide) (by decide) (by decide),
    (hrefuse _ hno).trans (by decide +kernel)⟩

end LibraryRef

end ClassNav
