import ClassNav.Files.FileMap
import ClassNav.Proofs.Syntax.Place
import ClassNav.Symbols.Index
import Mathlib.Data.List.Flatten
import Mathlib.Data.List.Perm.Basic

/-!
# What an index lists

An index keeps its classes by name, each name with a list in order, and apart from them the files
that it has. `SymbolIndex.Lists` says that all this is what some trees ask for: the files are those
of the trees, the list of a name has from each file the classes with that name in source order, no
list is empty, and together the lists have each named class once. Adding and removing files keeps
this (`Lists.addFile`, `Lists.removeFile`).

Putting a list in order changes no part of it that is in order already
(`DeclPtr.filter_mergeSort`), and a list in order is known by the part that each file has in it
(`DeclPtr.eq_of_filter_file`). So the trees leave no choice what the index answers (`Lists.alike`).
-/

namespace ClassNav

/-! ## Maps from files -/

namespace FileMap

variable {β : Type}

/-- A file has at most one entry, and its value is the one that is found. -/
theorem filter_entries_eq (m : FileMap β) (f : FileId) :
    m.entries.filter (·.1 = f) = ((m.get? f).map (f, ·)).toList := by
  obtain ⟨es, hes⟩ := m
  show es.filter (·.1 = f) = ((es.lookup f).map (f, ·)).toList
  induction es with
  | nil => rfl
  | cons e es ih =>
    obtain ⟨hmin, hes⟩ := List.pairwise_cons.mp hes
    rw [Keyed.lookup_cons, List.filter_cons]
    by_cases hf : e.1 = f
    · have hnone : es.filter (·.1 = f) = [] := List.filter_eq_nil_iff.mpr fun e' he' heq =>
        FileId.ne_of_lt (hmin e' he') (hf.trans (of_decide_eq_true heq).symm)
      rw [if_pos hf, if_pos (decide_eq_true hf), hnone]
      simp [← hf]
    · simpa [hf] using ih hes

/-- Of things that belong to the files of some entries, those with a test on files belong to the
entries that pass it. -/
theorem filter_flatMap {γ : Type} {file : γ → FileId} {g : FileId × β → List γ}
    (only : FileId → Bool) (hg : ∀ e, ∀ c ∈ g e, file c = e.1) {l : List (FileId × β)} :
    (l.flatMap g).filter (fun c => only (file c)) = (l.filter (only ·.1)).flatMap g := by
  induction l with
  | nil => rfl
  | cons e l ih =>
    rw [List.flatMap_cons, List.filter_append, ih, List.filter_cons]
    cases honly : only e.1 with
    | true =>
      rw [List.filter_eq_self.mpr fun c hc => by rw [hg e c hc, honly], if_pos rfl,
        List.flatMap_cons]
    | false =>
      rw [List.filter_eq_nil_iff.mpr fun c hc => by rw [hg e c hc, honly]; nofun]
      rfl

/-- No two entries have the same file. -/
theorem nodup_files (m : FileMap β) : (m.entries.map (·.1)).Nodup := by
  refine List.pairwise_map.mpr (m.ascending.imp fun hlt heq => ?_)
  exact Nat.lt_irrefl _ (heq ▸ hlt)

/-- Up to the order, a map with a new entry has that entry and those of the other files. -/
theorem entries_insert_perm (m : FileMap β) (f : FileId) (b : β) :
    (m.insert f b).entries.Perm ((f, b) :: (m.erase f).entries) := by
  have hrest : (m.entries.filter (·.1 < f) ++ m.entries.filter (f < ·.1)).Perm
      (m.entries.filter (·.1 ≠ f)) := by
    have hsplit := List.filter_append_perm (·.1 < f) (m.entries.filter (·.1 ≠ f))
    rw [List.filter_filter, List.filter_filter] at hsplit
    refine .trans (.of_eq ?_) hsplit
    congr 1
    · refine List.filter_congr fun e _ => Bool.eq_iff_iff.mpr ?_
      simp only [Bool.and_eq_true, decide_eq_true_eq, FileId.lt_iff]
      exact ⟨fun hlt => ⟨hlt, fun heq => Nat.lt_irrefl _ (heq ▸ hlt)⟩, And.left⟩
    · refine List.filter_congr fun e _ => Bool.eq_iff_iff.mpr ?_
      simp only [Bool.and_eq_true, Bool.not_eq_true', decide_eq_true_eq, decide_eq_false_iff_not,
        FileId.lt_iff]
      refine ⟨fun hlt => ⟨Nat.lt_asymm hlt, fun heq => Nat.lt_irrefl _ (heq ▸ hlt)⟩, ?_⟩
      rintro ⟨hge, hne⟩
      exact Nat.lt_of_le_of_ne (Nat.le_of_not_lt hge) fun heq => hne (FileId.ext_index heq.symm)
  exact List.perm_middle.trans (hrest.cons _)

theorem erase_eq_self {m : FileMap β} {f : FileId} (h : m.get? f = none) : m.erase f = m := by
  refine ext_get? fun g => ?_
  rw [get?_erase]
  split
  · next hg => rw [← hg, h]
  · rfl

end FileMap

/-! ## Pointers in order -/

namespace DeclPtr

theorem precedes_iff {p q : DeclPtr} : p.precedes q = true ↔
    p.file.index < q.file.index ∨ p.file = q.file ∧ p.span.start ≤ q.span.start := by
  simp [precedes, FileId.lt_iff]

theorem precedes_trans (p q r : DeclPtr) (hpq : p.precedes q = true) (hqr : q.precedes r = true) :
    p.precedes r = true := by
  rw [precedes_iff] at *
  rcases hpq with hpq | ⟨hpq, hstart⟩
  · rcases hqr with hqr | ⟨hqr, _⟩
    · exact .inl (Nat.lt_trans hpq hqr)
    · exact .inl (hqr ▸ hpq)
  · rw [hpq]
    exact hqr.imp_right fun ⟨hqr, hstart'⟩ => ⟨hqr, Nat.le_trans hstart hstart'⟩

theorem precedes_total (p q : DeclPtr) : (p.precedes q || q.precedes p) = true := by
  rw [Bool.or_eq_true, precedes_iff, precedes_iff]
  rcases Nat.lt_trichotomy p.file.index q.file.index with hlt | heq | hgt
  · exact .inl (.inl hlt)
  · have hfile := FileId.ext_index heq
    exact (Nat.le_total p.span.start q.span.start).imp (fun h => .inr ⟨hfile, h⟩)
      fun h => .inr ⟨hfile.symm, h⟩
  · exact .inr (.inl hgt)

theorem file_le_of_precedes {p q : DeclPtr} (h : p.precedes q = true) :
    p.file.index ≤ q.file.index := by
  rcases precedes_iff.mp h with hlt | ⟨heq, _⟩
  · exact Nat.le_of_lt hlt
  · exact Nat.le_of_eq (congrArg FileId.index heq)

theorem pairwise_mergeSort (ps : List DeclPtr) :
    (ps.mergeSort precedes).Pairwise (·.precedes ·) :=
  List.pairwise_mergeSort precedes_trans precedes_total ps

/-- Putting pointers in order leaves those with a test as they were if they were in order. -/
theorem filter_mergeSort {test : DeclPtr → Bool} {ps : List DeclPtr}
    (h : (ps.filter test).Pairwise (·.precedes ·)) :
    (ps.mergeSort precedes).filter test = ps.filter test := by
  have hsublist : (ps.filter test).Sublist (ps.mergeSort precedes) :=
    List.sublist_mergeSort precedes_trans precedes_total h List.filter_sublist
  have hfilter : (ps.filter test).Sublist ((ps.mergeSort precedes).filter test) := by
    simpa using hsublist.filter test
  have hperm := (List.mergeSort_perm ps precedes).filter test
  exact (hfilter.eq_of_length hperm.length_eq.symm).symm

theorem mem_iff_of_filter_file {ps qs : List DeclPtr} {p : DeclPtr}
    (h : ∀ f, ps.filter (·.file = f) = qs.filter (·.file = f)) : p ∈ ps ↔ p ∈ qs := by
  have hfile : p ∈ ps.filter (·.file = p.file) ↔ p ∈ qs.filter (·.file = p.file) := by rw [h]
  simpa using hfile

/-- Pointers in the order of their files are known by those of each file. -/
theorem eq_of_filter_file {ps qs : List DeclPtr}
    (hps : ps.Pairwise fun p q => p.file.index ≤ q.file.index)
    (hqs : qs.Pairwise fun p q => p.file.index ≤ q.file.index)
    (h : ∀ f, ps.filter (·.file = f) = qs.filter (·.file = f)) : ps = qs := by
  induction ps generalizing qs with
  | nil =>
    refine (List.eq_nil_iff_forall_not_mem.mpr fun q hq => ?_).symm
    exact nomatch (mem_iff_of_filter_file h).mpr hq
  | cons p ps ih =>
    cases qs with
    | nil => exact nomatch (mem_iff_of_filter_file h).mp (List.mem_cons_self (a := p))
    | cons q qs =>
      obtain ⟨hmin, htail⟩ := List.pairwise_cons.mp hps
      obtain ⟨hmin', htail'⟩ := List.pairwise_cons.mp hqs
      -- Both lists start with the lowest of the same files.
      have hpq : p.file.index ≤ q.file.index := by
        rcases List.mem_cons.mp ((mem_iff_of_filter_file h).mpr List.mem_cons_self) with heq | hq
        · exact Nat.le_of_eq (by rw [heq])
        · exact hmin q hq
      have hqp : q.file.index ≤ p.file.index := by
        rcases List.mem_cons.mp ((mem_iff_of_filter_file h).mp List.mem_cons_self) with heq | hp
        · exact Nat.le_of_eq (by rw [heq])
        · exact hmin' p hp
      have hfile : p.file = q.file := FileId.ext_index (Nat.le_antisymm hpq hqp)
      have hfirst := h p.file
      rw [List.filter_cons_of_pos (by simp), List.filter_cons_of_pos (by simp [hfile])] at hfirst
      obtain ⟨rfl, hrest⟩ := List.cons.inj hfirst
      have hall : ∀ f, ps.filter (·.file = f) = qs.filter (·.file = f) := by
        intro f
        by_cases hf : p.file = f
        · rw [← hf, hrest]
        · simpa [hf] using h f
      rw [ih htail htail' hall]

end DeclPtr

/-! ## What an index lists -/

namespace SymbolIndex

/-- The pointers to the top-level classes of a file that pass a test, in source order. -/
def classPtrs (test : Site → Bool) (f : FileId) (t : Tree) : List DeclPtr :=
  ((Site.root t).classes.filter test).map (.ofSite f)

/-- The classes that a map has under a name. -/
def listed (m : NameMap (List DeclPtr)) (x : String) : List DeclPtr := (m.get? x).getD []

/-- An index is that of the trees of some files. -/
structure Lists (ix : SymbolIndex) (m : FileMap Tree) : Prop where
  /-- The index knows which files it has. -/
  files : ∀ f, f ∈ ix.files ↔ (m.get? f).isSome = true
  /-- The classes of a name are in order. -/
  inOrder : ∀ x, (listed ix.classes x).Pairwise (·.precedes ·)
  /-- From each file, a name has the classes with that name, in source order. -/
  own : ∀ x f, (listed ix.classes x).filter (·.file = f) =
    ((m.get? f).map (classPtrs (Site.isNamed x) f)).getD []
  /-- Together the names have each named class once. -/
  all : ix.toList.Perm (m.entries.flatMap fun e => classPtrs (·.name?.isSome) e.1 e.2)
  /-- Every name in the index has a class. -/
  nonempty : ∀ x ps, ix.classes.get? x = some ps → ps ≠ []

theorem lists_empty : empty.Lists .empty := by
  refine ⟨fun f => ?_, fun x => .nil, fun x f => rfl, .nil, fun x ps => nofun⟩
  simp [empty, FileMap.get?_empty]

theorem file_of_mem_classPtrs {test : Site → Bool} {f : FileId} {t : Tree} {p : DeclPtr}
    (h : p ∈ classPtrs test f t) : p.file = f := by
  obtain ⟨c, _, rfl⟩ := List.mem_map.mp h
  rfl

/-- In one file, the order of declarations is that of the source. -/
theorem pairwise_classPtrs (test : Site → Bool) (f : FileId) (t : Tree) :
    (classPtrs test f t).Pairwise (·.precedes ·) := by
  have hchildren : (Site.root t).children.Pairwise fun c d => c.start ≤ d.start :=
    Site.pairwise_row.imp fun h => Nat.le_trans (Nat.le_add_right _ _) h
  refine List.pairwise_map.mpr ((hchildren.filter _).filter _ |>.imp fun hstart => ?_)
  exact DeclPtr.precedes_iff.mpr (.inr ⟨rfl, hstart⟩)

/-- The symbols with a name point to the classes with that name. -/
theorem map_ptr_filter_symbols (x : String) (f : FileId) (t : Tree) :
    ((symbolsOf f t).filter (·.name == x)).map Symbol.ptr = classPtrs (Site.isNamed x) f t := by
  rw [symbolsOf, classPtrs]
  induction (Site.root t).classes with
  | nil => rfl
  | cons c cs ih =>
    rw [List.filter_cons, Site.isNamed]
    cases hname : c.name? with
    | none => simpa [hname] using ih
    | some y =>
      by_cases hy : y = x
      · simpa [hname, hy] using ih
      · simpa [hname, hy] using ih

theorem map_ptr_symbolsOf (f : FileId) (t : Tree) :
    (symbolsOf f t).map Symbol.ptr = classPtrs (·.name?.isSome) f t := by
  rw [symbolsOf, classPtrs]
  induction (Site.root t).classes with
  | nil => rfl
  | cons c cs ih =>
    rw [List.filter_cons]
    cases hname : c.name? with
    | none => simpa [hname] using ih
    | some y => simpa [hname] using ih

/-- Of the classes of all files, those with a test on files are the classes of the files that pass
it. -/
theorem filter_flatMap_classPtrs (only : FileId → Bool) (test : Site → Bool)
    (l : List (FileId × Tree)) :
    (l.flatMap fun e => classPtrs test e.1 e.2).filter (only ·.file) =
      (l.filter (only ·.1)).flatMap fun e => classPtrs test e.1 e.2 :=
  FileMap.filter_flatMap only fun _ _ => file_of_mem_classPtrs

/-! ## One class more -/

/-- A class is added to those of its name, and the other names keep theirs. -/
theorem listed_addSymbol (m : NameMap (List DeclPtr)) (s : Symbol) (x : String) :
    listed (addSymbol m s) x = if s.name = x then
      (listed m x ++ [s.ptr]).mergeSort DeclPtr.precedes else listed m x := by
  rw [listed, addSymbol, NameMap.get?_update]
  split
  · next hx => rw [← hx]; rfl
  · rfl

theorem inOrder_addSymbol {m : NameMap (List DeclPtr)}
    (h : ∀ x, (listed m x).Pairwise (·.precedes ·)) (s : Symbol) (x : String) :
    (listed (addSymbol m s) x).Pairwise (·.precedes ·) := by
  rw [listed_addSymbol]
  split
  · exact DeclPtr.pairwise_mergeSort _
  · exact h x

theorem nonempty_addSymbol {m : NameMap (List DeclPtr)} (h : ∀ x ps, m.get? x = some ps → ps ≠ [])
    (s : Symbol) (x : String) (ps : List DeclPtr) (hps : (addSymbol m s).get? x = some ps) :
    ps ≠ [] := by
  rw [addSymbol, NameMap.get?_update] at hps
  split at hps
  · obtain rfl := Option.some.inj hps
    refine List.ne_nil_of_length_pos ?_
    rw [List.length_mergeSort, List.length_append]
    exact Nat.succ_pos _
  · exact h x ps hps

theorem perm_addSymbol (m : NameMap (List DeclPtr)) (s : Symbol) :
    ((addSymbol m s).entries.flatMap (·.2)).Perm (m.entries.flatMap (·.2) ++ [s.ptr]) := by
  show ((NameMap.renew _ _ m.entries).flatMap (·.2)).Perm _
  induction m.entries with
  | nil => simp [NameMap.renew]
  | cons e es ih =>
    rw [NameMap.renew]
    split
    · rw [List.flatMap_cons, List.flatMap_cons]
      refine ((List.mergeSort_perm _ _).append_right _).trans ?_
      rw [List.append_assoc, List.append_assoc]
      exact List.perm_append_comm.append_left e.2
    · rw [List.flatMap_cons, List.flatMap_cons, List.append_assoc]
      exact ih.append_left e.2

/-! ## All classes of a file -/

theorem inOrder_foldl_addSymbol {m : NameMap (List DeclPtr)}
    (h : ∀ x, (listed m x).Pairwise (·.precedes ·)) (ss : List Symbol) :
    ∀ x, (listed (ss.foldl addSymbol m) x).Pairwise (·.precedes ·) := by
  induction ss generalizing m with
  | nil => exact h
  | cons s ss ih => exact ih (inOrder_addSymbol h s)

theorem nonempty_foldl_addSymbol {m : NameMap (List DeclPtr)}
    (h : ∀ x ps, m.get? x = some ps → ps ≠ []) (ss : List Symbol) :
    ∀ x ps, (ss.foldl addSymbol m).get? x = some ps → ps ≠ [] := by
  induction ss generalizing m with
  | nil => exact h
  | cons s ss ih => exact ih (nonempty_addSymbol h s)

theorem perm_foldl_addSymbol (m : NameMap (List DeclPtr)) (ss : List Symbol) :
    ((ss.foldl addSymbol m).entries.flatMap (·.2)).Perm
      (m.entries.flatMap (·.2) ++ ss.map Symbol.ptr) := by
  induction ss generalizing m with
  | nil => rw [List.map_nil, List.append_nil]; exact .refl _
  | cons s ss ih =>
    refine (ih (addSymbol m s)).trans ?_
    rw [List.map_cons, List.append_cons]
    exact (perm_addSymbol m s).append_right _

/-- Classes that come in order are put behind those that were there. -/
theorem filter_listed_foldl {test : DeclPtr → Bool} {x : String} {ss : List Symbol}
    {m : NameMap (List DeclPtr)}
    (h : ((listed m x ++ (ss.filter (·.name == x)).map Symbol.ptr).filter test).Pairwise
      (·.precedes ·)) :
    (listed (ss.foldl addSymbol m) x).filter test =
      (listed m x ++ (ss.filter (·.name == x)).map Symbol.ptr).filter test := by
  induction ss generalizing m with
  | nil => rw [List.filter_nil, List.map_nil, List.append_nil]; rfl
  | cons s ss ih =>
    rw [List.foldl_cons]
    by_cases hx : s.name = x
    · rw [List.filter_cons_of_pos (by simp [hx]), List.map_cons, List.append_cons,
        List.filter_append] at h ⊢
      have hstep : (listed (addSymbol m s) x).filter test =
          (listed m x ++ [s.ptr]).filter test := by
        rw [listed_addSymbol, if_pos hx]
        exact DeclPtr.filter_mergeSort (List.pairwise_append.mp h).1
      rw [← hstep, ← List.filter_append] at h ⊢
      exact ih h
    · rw [List.filter_cons_of_neg (by simp [hx])] at h ⊢
      have hstep : listed (addSymbol m s) x = listed m x := by rw [listed_addSymbol, if_neg hx]
      rw [← hstep] at h ⊢
      exact ih h

/-- The classes of a file that had none are all that a name has of the file, and what the name has
of other files is as it was. -/
theorem filter_listed_symbolsOf {m : NameMap (List DeclPtr)}
    (h : ∀ x, (listed m x).Pairwise (·.precedes ·)) {f : FileId} {x : String}
    (hnone : (listed m x).filter (·.file = f) = []) (t : Tree) (g : FileId) :
    (listed ((symbolsOf f t).foldl addSymbol m) x).filter (·.file = g) =
      if f = g then classPtrs (Site.isNamed x) f t else (listed m x).filter (·.file = g) := by
  have hparts : (listed m x ++ ((symbolsOf f t).filter (·.name == x)).map Symbol.ptr).filter
      (·.file = g) =
        if f = g then classPtrs (Site.isNamed x) f t else (listed m x).filter (·.file = g) := by
    rw [map_ptr_filter_symbols, List.filter_append]
    split
    · next hg =>
      rw [← hg, hnone, List.nil_append]
      exact List.filter_eq_self.mpr fun p hp => decide_eq_true (file_of_mem_classPtrs hp)
    · next hg =>
      refine (congrArg _ (List.filter_eq_nil_iff.mpr fun p hp => ?_)).trans (List.append_nil _)
      simp [file_of_mem_classPtrs hp, hg]
  rw [filter_listed_foldl, hparts]
  rw [hparts]
  split
  · exact pairwise_classPtrs _ f t
  · exact (h x).filter _

/-! ## A file less -/

theorem ne_nil_of_dropFile {f : FileId} {ps qs : List DeclPtr} (h : dropFile f ps = some qs) :
    qs ≠ [] := by
  rw [dropFile] at h
  split at h
  · cases h
  · next hne =>
    obtain rfl := Option.some.inj h
    exact fun hnil => hne (List.isEmpty_iff.mpr hnil)

theorem getD_dropFile (f : FileId) (ps : List DeclPtr) :
    (dropFile f ps).getD [] = ps.filter (·.file ≠ f) := by
  rw [dropFile]
  split
  · next h => rw [List.isEmpty_iff.mp h]; rfl
  · rfl

theorem listed_retain (m : NameMap (List DeclPtr)) (f : FileId) (x : String) :
    listed (m.retain (dropFile f)) x = (listed m x).filter (·.file ≠ f) := by
  rw [listed, listed, NameMap.get?_retain]
  cases m.get? x with
  | none => rfl
  | some ps => exact getD_dropFile f ps

theorem flatMap_retain (m : NameMap (List DeclPtr)) (f : FileId) :
    (m.retain (dropFile f)).entries.flatMap (·.2) =
      (m.entries.flatMap (·.2)).filter (·.file ≠ f) := by
  show (NameMap.retained _ m.entries).flatMap (·.2) = _
  induction m.entries with
  | nil => rfl
  | cons e es ih =>
    rw [List.flatMap_cons, List.filter_append, ← ih, ← getD_dropFile, NameMap.retained,
      List.filterMap_cons]
    cases dropFile f e.2 with
    | none => rfl
    | some ps => rfl

/-- Without a file, the index lists the other files, and drops the names that have no class left. -/
theorem Lists.removeFile {ix : SymbolIndex} {m : FileMap Tree} (h : ix.Lists m) (f : FileId) :
    (ix.removeFile f).Lists (m.erase f) := by
  rw [SymbolIndex.removeFile]
  split
  · refine ⟨fun g => ?_, fun x => ?_, fun x g => ?_, ?_, fun x ps hps => ?_⟩
    · rw [FileMap.get?_erase, List.mem_filter, h.files g]
      by_cases hg : f = g
      · simp [hg]
      · simp [hg, Ne.symm hg]
    · rw [listed_retain]
      exact (h.inOrder x).filter _
    · rw [listed_retain, FileMap.get?_erase, List.filter_filter]
      by_cases hg : f = g
      · rw [if_pos hg]
        refine List.filter_eq_nil_iff.mpr fun p _ => ?_
        simp [hg]
      · rw [if_neg hg, ← h.own x g]
        refine List.filter_congr fun p _ => ?_
        by_cases hp : p.file = g
        · simp [hp, Ne.symm hg]
        · simp [hp]
    · rw [toList, flatMap_retain]
      refine (h.all.filter _).trans (.of_eq ?_)
      exact filter_flatMap_classPtrs (fun g => decide (g ≠ f)) _ _
    · rw [NameMap.get?_retain] at hps
      obtain ⟨_, _, hdrop⟩ := Option.bind_eq_some_iff.mp hps
      exact ne_nil_of_dropFile hdrop
  · next hf =>
    rw [FileMap.erase_eq_self]
    · exact h
    · simpa [h.files f] using hf

/-! ## A file more -/

/-- With a file added, the index lists its new tree in place of the one before. -/
theorem Lists.addFile {ix : SymbolIndex} {m : FileMap Tree} (h : ix.Lists m) (f : FileId)
    (t : Tree) : (ix.addFile f t).Lists (m.insert f t) := by
  -- The tree that the file had before is taken out first.
  have hrest := h.removeFile f
  have hother : ∀ g, f ≠ g → (m.erase f).get? g = m.get? g := fun g hg => by
    rw [FileMap.get?_erase, if_neg hg]
  refine ⟨fun g => ?_, inOrder_foldl_addSymbol hrest.inOrder _, fun x g => ?_, ?_,
    nonempty_foldl_addSymbol hrest.nonempty _⟩
  · show g ∈ (ix.removeFile f).files ++ [f] ↔ _
    rw [List.mem_append, List.mem_singleton, hrest.files g, FileMap.get?_insert]
    by_cases hg : f = g
    · simp [hg]
    · simp [hg, Ne.symm hg, hother g hg]
  · have hnone : (listed (ix.removeFile f).classes x).filter (·.file = f) = [] := by
      rw [hrest.own, FileMap.get?_erase, if_pos rfl]
      rfl
    refine (filter_listed_symbolsOf hrest.inOrder hnone t g).trans ?_
    rw [FileMap.get?_insert]
    split
    · next hg => rw [← hg]; rfl
    · next hg => rw [hrest.own, hother g hg]
  · refine (perm_foldl_addSymbol _ _).trans ?_
    rw [map_ptr_symbolsOf]
    refine List.perm_append_comm.trans ?_
    refine (hrest.all.append_left _).trans ?_
    exact ((m.entries_insert_perm f t).flatMap_right fun e => classPtrs _ e.1 e.2).symm

/-! ## What the answers are -/

section Answers

variable {ix ix' : SymbolIndex} {m : FileMap Tree}

theorem named_eq (ix : SymbolIndex) (x : String) (home : FileId) :
    ix.named x home = (listed ix.classes x).filter (·.file = home) ++
      (listed ix.classes x).filter (·.file ≠ home) := by
  rw [named, listed]
  cases ix.classes.get? x with
  | none => rfl
  | some ps => simp [List.partition_eq_filter_filter, Function.comp_def]

/-- Under a name, classes are listed file by file, each file in source order. -/
theorem Lists.listed_eq (h : ix.Lists m) (x : String) :
    listed ix.classes x = m.entries.flatMap fun e => classPtrs (Site.isNamed x) e.1 e.2 := by
  refine DeclPtr.eq_of_filter_file ((h.inOrder x).imp DeclPtr.file_le_of_precedes) ?_ fun f => ?_
  · refine List.pairwise_flatMap.mpr ⟨fun e _ => ?_, m.ascending.imp fun hlt p hp q hq => ?_⟩
    · exact (pairwise_classPtrs (Site.isNamed x) e.1 e.2).imp DeclPtr.file_le_of_precedes
    · rw [file_of_mem_classPtrs hp, file_of_mem_classPtrs hq]
      exact Nat.le_of_lt hlt
  · rw [h.own, filter_flatMap_classPtrs (fun g => decide (g = f)), FileMap.filter_entries_eq]
    cases m.get? f <;> simp

/-- The classes named `x` are those of the file that asks, and then those of the others in ascending
order. -/
theorem Lists.named_eq (h : ix.Lists m) (x : String) (home : FileId) :
    ix.named x home = ((m.get? home).map (classPtrs (Site.isNamed x) home)).getD [] ++
      (m.erase home).entries.flatMap fun e => classPtrs (Site.isNamed x) e.1 e.2 := by
  rw [SymbolIndex.named_eq, h.own, h.listed_eq,
    filter_flatMap_classPtrs (fun g => decide (g ≠ home))]
  rfl

theorem Lists.size_eq (h : ix.Lists m) :
    ix.size =
      (m.entries.flatMap fun e => (Site.root e.2).classes.filter (·.name?.isSome)).length := by
  rw [size, h.all.length_eq]
  simp [classPtrs, List.length_flatMap]

/-- No name is kept without a class. -/
theorem Lists.isEmpty_iff (h : ix.Lists m) :
    ix.isEmpty = true ↔ ix.size = 0 := by
  rw [isEmpty, size, List.isEmpty_iff, List.length_eq_zero_iff, toList, List.flatMap_eq_nil_iff]
  refine ⟨fun hnil e he => ?_, fun hall => List.eq_nil_iff_forall_not_mem.mpr fun e he => ?_⟩
  · rw [hnil] at he
    cases he
  · exact h.nonempty e.1 e.2 (NameMap.get?_eq_some_iff.mpr he) (hall e he)

/-- Two indexes have the same files and answer alike. -/
structure Alike (ix ix' : SymbolIndex) : Prop where
  files : ∀ f, f ∈ ix.files ↔ f ∈ ix'.files
  named : ∀ x home, ix.named x home = ix'.named x home
  size : ix.size = ix'.size
  isEmpty : ix.isEmpty = ix'.isEmpty

/-- Trees leave an index no choice. -/
theorem Lists.alike (h : ix.Lists m) (h' : ix'.Lists m) : ix.Alike ix' where
  files f := by rw [h.files, h'.files]
  named x home := by rw [h.named_eq, h'.named_eq]
  size := by rw [h.size_eq, h'.size_eq]
  isEmpty := by rw [Bool.eq_iff_iff, h.isEmpty_iff, h'.isEmpty_iff, h.size_eq, h'.size_eq]

end Answers

end SymbolIndex

end ClassNav
