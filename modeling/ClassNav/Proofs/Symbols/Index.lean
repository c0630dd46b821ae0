import ClassNav.Proofs.Files.Host
import ClassNav.Proofs.Symbols.Listing
import Mathlib.Data.List.Induction

/-!
# The index has no history

`SymbolIndex.run` is the index after any files were added and removed, in any order, with files
added again and unknown files removed among them. It lists the trees that the files have in the end
(`SymbolIndex.lists_run`), and each of these is that of the last edit of its file
(`IndexEdit.lastTree?`). So it answers like every other index of these trees.
-/

namespace ClassNav

/-! ## Edits of an index -/

/-- Something that is done to an index. -/
inductive IndexEdit
  /-- Puts the classes of a file into the index, in place of those it had there. -/
  | add (file : FileId) (tree : Tree)
  /-- Takes the classes of a file out of the index. -/
  | remove (file : FileId)

namespace IndexEdit

def file : IndexEdit → FileId
  | add f _ => f
  | remove f => f

/-- The tree that an edit leaves its file with. -/
def tree? : IndexEdit → Option Tree
  | add _ t => some t
  | remove _ => none

def apply (ix : SymbolIndex) : IndexEdit → SymbolIndex
  | add f t => ix.addFile f t
  | remove f => ix.removeFile f

/-- The map from files to trees after an edit. -/
def applyTrees (m : FileMap Tree) : IndexEdit → FileMap Tree
  | add f t => m.insert f t
  | remove f => m.erase f

/-- The tree of a file after some edits: that of the last edit of the file, which may have removed
it. -/
def lastTree? (es : List IndexEdit) (f : FileId) : Option Tree :=
  (es.reverse.find? (·.file = f)).bind tree?

/-- Every file that has a tree after some edits, with its tree. -/
def trees (es : List IndexEdit) : FileMap Tree := es.foldl applyTrees .empty

theorem lastTree?_append_singleton (es : List IndexEdit) (e : IndexEdit) (f : FileId) :
    lastTree? (es ++ [e]) f = if e.file = f then e.tree? else lastTree? es f := by
  unfold lastTree?
  rw [List.reverse_append, List.reverse_singleton, List.singleton_append, List.find?_cons]
  by_cases hf : e.file = f
  · simp [hf]
  · simp [hf]

theorem get?_applyTrees (m : FileMap Tree) (e : IndexEdit) (f : FileId) :
    (e.applyTrees m).get? f = if e.file = f then e.tree? else m.get? f := by
  cases e with
  | add g t => exact FileMap.get?_insert m g f t
  | remove g => exact FileMap.get?_erase m g f

theorem get?_trees (es : List IndexEdit) (f : FileId) : (trees es).get? f = lastTree? es f := by
  induction es using List.reverseRecOn with
  | nil => rfl
  | append_singleton es e ih =>
    rw [trees, List.foldl_append, lastTree?_append_singleton, ← ih]
    exact get?_applyTrees _ e f

/-- Among files that are added once each, every one keeps its tree. -/
theorem lastTree?_map_add {l : List (FileId × Tree)} (hl : (l.map (·.1)).Nodup) {f : FileId}
    {t : Tree} : lastTree? (l.map fun e => add e.1 e.2) f = some t ↔ (f, t) ∈ l := by
  induction l using List.reverseRecOn with
  | nil => simp [lastTree?]
  | append_singleton l e ih =>
    rw [List.map_append, List.nodup_append] at hl
    obtain ⟨hl, _, hdisjoint⟩ := hl
    rw [List.map_append, List.map_singleton, lastTree?_append_singleton]
    by_cases hf : e.1 = f
    · have hnew : (f, t) ∉ l := fun hmem =>
        hdisjoint f (List.mem_map.mpr ⟨(f, t), hmem, rfl⟩) e.1 List.mem_cons_self hf.symm
      simp [file, tree?, hf, hnew, Prod.ext_iff, eq_comm]
    · simp [file, hf, ih hl, Prod.ext_iff, Ne.symm hf]

end IndexEdit

namespace SymbolIndex

open IndexEdit (lastTree? trees)

def run (es : List IndexEdit) : SymbolIndex := es.foldl IndexEdit.apply .empty

/-- An index that lists the trees of some files goes on doing so through every edit. -/
theorem Lists.apply {ix : SymbolIndex} {m : FileMap Tree} (h : ix.Lists m) (e : IndexEdit) :
    (e.apply ix).Lists (e.applyTrees m) := by
  cases e with
  | add f t => exact h.addFile f t
  | remove f => exact h.removeFile f

theorem lists_run (es : List IndexEdit) : (run es).Lists (trees es) := by
  suffices hall : ∀ ix m, Lists ix m →
      (es.foldl IndexEdit.apply ix).Lists (es.foldl IndexEdit.applyTrees m) from
    hall .empty .empty lists_empty
  induction es with
  | nil => exact fun ix m h => h
  | cons e es ih => exact fun ix m h => ih _ _ (h.apply e)

/-- Files that are added once each are listed with their trees, in whatever order they came. -/
theorem lists_build {l : List (FileId × Tree)} (hl : (l.map (·.1)).Nodup) {m : FileMap Tree}
    (h : ∀ f t, (f, t) ∈ l ↔ m.get? f = some t) : (build l).Lists m := by
  have hrun : build l = run (l.map fun e => .add e.1 e.2) := by
    rw [build, run, List.foldl_map]
    rfl
  have htrees : trees (l.map fun e => .add e.1 e.2) = m := by
    refine FileMap.ext_get? fun f => Option.ext fun t => ?_
    rw [IndexEdit.get?_trees, IndexEdit.lastTree?_map_add hl, h]
  rw [hrun, ← htrees]
  exact lists_run _

/-- An index that is built does not depend on the order of the files. -/
theorem lists_build_of_perm {l : List (FileId × Tree)} {m : FileMap Tree}
    (hl : l.Perm m.entries) : (build l).Lists m := by
  refine lists_build ((hl.map _).nodup_iff.mpr m.nodup_files) fun f t => ?_
  rw [hl.mem_iff, FileMap.get?_eq_some_iff]

end SymbolIndex

/-! ## The index of a store -/

theorem Store.mem_trees {s : Store} {f : FileId} {t : Tree} :
    (f, t) ∈ s.trees ↔ s.tree? f = some t := by
  simp only [trees, List.mem_filterMap, Option.map_eq_some_iff, Prod.mk.injEq]
  constructor
  · rintro ⟨g, _, u, hu, rfl, rfl⟩
    exact hu
  · intro ht
    obtain ⟨d, hd, _⟩ := exists_document_of_tree? ht
    exact ⟨f, List.mem_map.mpr ⟨(f, d), FileMap.get?_eq_some_iff.mp hd, rfl⟩, t, ht, rfl, rfl⟩

theorem Store.ascending_trees (s : Store) : s.trees.Pairwise fun a b => a.1 < b.1 := by
  have hfiles : s.files.Pairwise (· < ·) := List.pairwise_map.mpr s.documents.ascending
  refine List.pairwise_filterMap.mpr (hfiles.imp ?_)
  rintro f g hlt e he e' he'
  obtain ⟨t, _, rfl⟩ := Option.map_eq_some_iff.mp he
  obtain ⟨t', _, rfl⟩ := Option.map_eq_some_iff.mp he'
  exact hlt

theorem Store.nodup_trees (s : Store) : (s.trees.map (·.1)).Nodup :=
  (FileMap.mk s.trees s.ascending_trees).nodup_files

/-- The index of a store lists the trees that its files have. -/
theorem SymbolIndex.lists_indexOf {s : Store} {m : FileMap Tree}
    (h : ∀ f, s.tree? f = m.get? f) : (Host.indexOf s).Lists m := by
  refine lists_build s.nodup_trees fun f t => ?_
  rw [Store.mem_trees, h]

theorem SymbolIndex.listed_indexOf (s : Store) (x : String) :
    listed (Host.indexOf s).classes x =
      s.trees.flatMap fun e => classPtrs (Site.isNamed x) e.1 e.2 :=
  (lists_build_of_perm (m := ⟨s.trees, s.ascending_trees⟩) (.refl _)).listed_eq x

/-! ## Every run -/

namespace SymbolIndex

open IndexEdit (lastTree? trees)

/-- After any edits, the index holds the named top-level classes of the trees that the files have in
the end, each file with the tree of its last edit. Seen from a file, the classes with a name are its
own in source order, then those of the other files in ascending order. So it is like the index made
by adding these files once each, in any order, and like that of any store that holds them. -/
theorem run_lists_last_trees (es : List IndexEdit) :
    (∀ f, (trees es).get? f = lastTree? es f) ∧
      (∀ x home, (run es).named x home =
        (((trees es).get? home).map (classPtrs (Site.isNamed x) home)).getD [] ++
          ((trees es).erase home).entries.flatMap fun e => classPtrs (Site.isNamed x) e.1 e.2) ∧
      (run es).size = ((trees es).entries.flatMap fun e =>
        (Site.root e.2).classes.filter (·.name?.isSome)).length ∧
      ((run es).isEmpty = true ↔ (run es).size = 0) ∧
      (∀ l : List (FileId × Tree), l.Perm (trees es).entries → (build l).Alike (run es)) ∧
      ∀ s : Store, (∀ f, s.tree? f = (trees es).get? f) → (Host.indexOf s).Alike (run es) := by
  have h := lists_run es
  refine ⟨IndexEdit.get?_trees es, h.named_eq, h.size_eq, h.isEmpty_iff, fun l hl => ?_,
    fun s hs => ?_⟩
  · exact (lists_build_of_perm hl).alike h
  · exact (lists_indexOf hs).alike h

theorem run_lists_last_trees_of_replaced :
    let a := "class A {}"
    let b := "class A {} class B {}"
    let es : List IndexEdit := [.add ⟨1⟩ (parse b).tree, .add ⟨0⟩ (parse b).tree, .remove ⟨7⟩,
      .add ⟨1⟩ (parse a).tree, .add ⟨2⟩ (parse a).tree, .remove ⟨2⟩]
    (run es).named "A" ⟨1⟩ = [⟨⟨1⟩, .classDecl, ⟨0, 10⟩⟩, ⟨⟨0⟩, .classDecl, ⟨0, 10⟩⟩] ∧
      (run es).size = 3 ∧
      (build [(⟨1⟩, (parse a).tree), (⟨0⟩, (parse b).tree)]).Alike (run es) ∧
      (Host.indexOf ((Store.empty.setText ⟨1⟩ a).setText ⟨0⟩ b)).Alike (run es) := by
  intro a b es
  obtain ⟨_, hnamed, hsize, _, hperm, hstore⟩ := run_lists_last_trees es
  refine ⟨?_, ?_, hperm _ (.swap _ _ _), hstore _ fun f => ?_⟩
  · rw [hnamed]
    decide +kernel
  · rw [hsize]
    decide +kernel
  · show ((List.lookup f [(⟨0⟩, .ofParsed b (parse b)), (⟨1⟩, .ofParsed a (parse a))]).map
      Document.tree).filter (Tree.isNode .sourceFile) =
        List.lookup f [(⟨0⟩, (parse b).tree), (⟨1⟩, (parse a).tree)]
    simp only [Keyed.lookup_cons]
    split
    · rfl
    · split
      · rfl
      · rfl

end SymbolIndex

end ClassNav
