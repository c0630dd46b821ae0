import ClassNav.Proofs.Files.Paths
import Mathlib.Data.Set.Card

/-!
# A number is given once

A store is changed by `Store.Action`s, of which each may name any path and any number, also one that
was never given. After any of them, in any order, the store `Store.Identifies` its files: paths and
numbers are found from each other, and documents are listed by number.

Over time, a number that was given to a path stays with it until it is removed
(`Store.mem_foldl`), and is `Store.Retired` from then on: no path gets it again
(`Store.Retired.foldl`). A host removes and stores by path, so that it keeps a document
for exactly the registered numbers (`Host.filled_run`).
-/

namespace ClassNav

namespace Store

/-! ## Actions -/

/-- Something that is done to a store. -/
inductive Action
  /-- Asks for the number of a path. -/
  | register (path : Path)
  /-- Parses a text and stores it under a number. -/
  | setText (file : FileId) (text : String)
  /-- Stores a document under a number. -/
  | setDocument (file : FileId) (document : Document)
  /-- Forgets a number. -/
  | remove (file : FileId)

namespace Action

def apply (s : Store) : Action → Store
  | register p => (s.register p).2
  | setText f text => s.setText f text
  | setDocument f d => s.setDocument f d
  | remove f => s.remove f

/-- Whether an action asks for a number. -/
def isRegister : Action → Bool
  | register _ => true
  | _ => false

end Action

def run (as : List Action) : Store := as.foldl Action.apply .empty

variable {s : Store} {f : FileId} {p q : Path}

/-- No action leaves two paths with one number, or two numbers with one path. -/
theorem Registered.apply (hs : s.Registered) (a : Action) : (a.apply s).Registered := by
  cases a with
  | register p => exact hs.register p
  | setText f text => exact hs.setDocument f _
  | setDocument f d => exact hs.setDocument f d
  | remove f => exact hs.remove f

theorem Registered.foldl (hs : s.Registered) (as : List Action) :
    (as.foldl Action.apply s).Registered := by
  induction as generalizing s with
  | nil => exact hs
  | cons a as ih => exact ih (hs.apply a)

theorem registered_run (as : List Action) : (run as).Registered := registered_empty.foldl as

theorem run_append (as as' : List Action) : run (as ++ as') = as'.foldl Action.apply (run as) :=
  List.foldl_append

/-! ## The next number -/

theorem nextId_register (s : Store) (p : Path) :
    s.nextId ≤ (s.register p).2.nextId ∧ (s.register p).2.nextId ≤ s.nextId + 1 := by
  unfold register
  split
  · exact ⟨Nat.le_refl _, Nat.le_succ _⟩
  · exact ⟨Nat.le_succ _, Nat.le_refl _⟩

/-- Numbers that were used up are not taken back. -/
theorem nextId_le_apply (s : Store) (a : Action) : s.nextId ≤ (a.apply s).nextId := by
  cases a with
  | register p => exact (s.nextId_register p).1
  | setText | setDocument | remove => exact Nat.le_refl _

/-- Numbers are used up only where one is asked for. -/
theorem nextId_foldl_le (s : Store) (as : List Action) :
    (as.foldl Action.apply s).nextId ≤ s.nextId + as.countP Action.isRegister := by
  induction as generalizing s with
  | nil => exact Nat.le_refl _
  | cons a as ih =>
    refine Nat.le_trans (ih (a.apply s)) ?_
    cases a with
    | register p =>
      have hnext : (Action.apply s (.register p)).nextId ≤ s.nextId + 1 := (s.nextId_register p).2
      rw [List.countP_cons_of_pos (by rfl)]
      omega
    | setText | setDocument | remove =>
      rw [List.countP_cons_of_neg (by simp [Action.isRegister])]
      exact Nat.le_refl _

/-! ## A number stays until it is removed -/

/-- A path keeps its number until that is removed. -/
theorem mem_apply (hf : (f, p) ∈ s.paths) {a : Action} (ha : a ≠ .remove f) :
    (f, p) ∈ (a.apply s).paths := by
  cases a with
  | register q => exact mem_paths_register.mpr (.inl hf)
  | setText | setDocument => exact hf
  | remove g =>
    have hne : f ≠ g := fun h => ha (h ▸ rfl)
    exact List.mem_filter.mpr ⟨hf, decide_eq_true hne⟩

theorem mem_foldl (hf : (f, p) ∈ s.paths) {as : List Action} (has : .remove f ∉ as) :
    (f, p) ∈ (as.foldl Action.apply s).paths := by
  induction as generalizing s with
  | nil => exact hf
  | cons a as ih =>
    obtain ⟨hne, has⟩ := not_or.mp (mt List.mem_cons.mpr has)
    exact ih (mem_apply hf (Ne.symm hne)) has

/-- A registered path has a number already, and gets it again under another spelling. -/
theorem Registered.register_eq (hs : s.Registered) (hf : (f, p) ∈ s.paths)
    (hsame : p.same q = true) : (s.register q).1 = f := by
  have hfind : s.find? q = some f := hs.find?_eq_some_iff.mpr ⟨p, hf, hsame⟩
  rw [Store.register, hfind]

/-! ## A removed number does not come back -/

/-- A number was given and stands for no path any more. -/
structure Retired (s : Store) (f : FileId) : Prop where
  below : f.index < s.nextId
  unregistered : ∀ p, (f, p) ∉ s.paths

/-- No action brings a retired number back. -/
theorem Retired.apply (hf : s.Retired f) (a : Action) : (a.apply s).Retired f := by
  refine ⟨Nat.lt_of_lt_of_le hf.below (s.nextId_le_apply a), fun p hp => ?_⟩
  cases a with
  | register q =>
    rcases mem_paths_register.mp hp with hp | ⟨_, hnew⟩
    · exact hf.unregistered p hp
    · -- The new number is the next one, and those were all given before.
      cases hnew
      exact Nat.lt_irrefl _ hf.below
  | setText | setDocument => exact hf.unregistered p hp
  | remove g => exact hf.unregistered p (List.mem_filter.mp hp).1

theorem Retired.foldl (hf : s.Retired f) (as : List Action) :
    (as.foldl Action.apply s).Retired f := by
  induction as generalizing s with
  | nil => exact hf
  | cons a as ih => exact ih (hf.apply a)

theorem retired_remove (hf : f.index < s.nextId) : (s.remove f).Retired f := by
  refine ⟨hf, fun p hp => ?_⟩
  exact of_decide_eq_true (List.mem_filter.mp hp).2 rfl

theorem nextId_le_foldl (s : Store) (as : List Action) :
    s.nextId ≤ (as.foldl Action.apply s).nextId := by
  induction as generalizing s with
  | nil => exact Nat.le_refl _
  | cons a as ih => exact Nat.le_trans (s.nextId_le_apply a) (ih (a.apply s))

/-- A number that was given is retired if it is removed at any later time. -/
theorem retired_of_mem (hf : f.index < s.nextId) {as : List Action} (has : .remove f ∈ as) :
    (as.foldl Action.apply s).Retired f := by
  obtain ⟨before, later, rfl⟩ := List.append_of_mem has
  rw [List.foldl_append, List.foldl_cons]
  exact (retired_remove (Nat.lt_of_lt_of_le hf (s.nextId_le_foldl before))).foldl later

/-- No path is given a retired number. -/
theorem Registered.register_ne (hs : s.Registered) (hf : s.Retired f) (q : Path) :
    (s.register q).1 ≠ f := by
  rintro rfl
  obtain ⟨r, hr, _⟩ := hs.mem_register q
  exact (hf.apply (.register q)).unregistered r hr

/-! ## What a store looks like at any time -/

/-- Paths and numbers are found from each other, and documents are listed by number. -/
structure Identifies (s : Store) : Prop where
  /-- The number of a path is the number of which the path is that path, up to its spelling. -/
  inverse : ∀ p f, s.find? p = some f ↔ ∃ q, s.path? f = some q ∧ q.same p = true
  /-- Registered numbers were given before. -/
  below : ∀ f p, s.path? f = some p → f.index < s.nextId
  /-- Paths with different steps have different numbers. -/
  separate : ∀ p q f, s.find? p = some f → p.same q = false → s.find? q ≠ some f
  /-- The size counts registered paths, each once however it is spelled. -/
  size : s.size = Set.ncard {steps | ∃ p, p.components = steps ∧ (s.find? p).isSome = true}
  /-- Files are listed in strictly ascending order. -/
  ascending : s.files.Pairwise (· < ·)
  /-- Files are listed exactly if they have a document. -/
  listed : ∀ f, f ∈ s.files ↔ (s.document? f).isSome = true

theorem mem_files {s : Store} {f : FileId} : f ∈ s.files ↔ (s.document? f).isSome = true := by
  rw [Option.isSome_iff_exists, files, FileMap.files, List.mem_map]
  constructor
  · rintro ⟨⟨f, d⟩, he, rfl⟩
    exact ⟨d, FileMap.get?_eq_some_iff.mpr he⟩
  · rintro ⟨d, hd⟩
    exact ⟨(f, d), FileMap.get?_eq_some_iff.mp hd, rfl⟩

theorem ascending_files (s : Store) : s.files.Pairwise (· < ·) :=
  List.pairwise_map.mpr s.documents.ascending

theorem Registered.size_eq (hs : s.Registered) : s.size = s.paths.length := by
  rw [Store.size, hs.mirrored, List.length_map]

/-- A store counts its paths by their steps: two spellings of one path are one. -/
theorem Registered.size_eq_ncard (hs : s.Registered) :
    s.size = Set.ncard {steps | ∃ p, p.components = steps ∧ (s.find? p).isSome = true} := by
  have hset : {steps | ∃ p, p.components = steps ∧ (s.find? p).isSome = true} =
      ((s.paths.map (·.2.components)).toFinset : Set (List Component)) := by
    ext steps
    rw [Set.mem_ofPred_eq, List.coe_toFinset, Set.mem_ofPred_eq, List.mem_map]
    constructor
    · rintro ⟨p, rfl, hsome⟩
      obtain ⟨f, hf⟩ := Option.isSome_iff_exists.mp hsome
      obtain ⟨q, hq, hsame⟩ := hs.find?_eq_some_iff.mp hf
      exact ⟨(f, q), hq, Path.same_iff.mp hsame⟩
    · rintro ⟨⟨f, p⟩, hp, rfl⟩
      have hfind : s.find? p = some f := hs.find?_eq_some_iff.mpr ⟨p, hp, p.same_self⟩
      exact ⟨p, rfl, Option.isSome_iff_exists.mpr ⟨f, hfind⟩⟩
  rw [hset, Set.ncard_coe_finset, List.toFinset_card_of_nodup hs.apart, List.length_map, hs.size_eq]

/-- What a store promises about numbers follows from how it registers paths, whatever its documents
are. -/
theorem Registered.identifies (hs : s.Registered) : s.Identifies where
  inverse p f := by simp only [hs.find?_eq_some_iff, hs.path?_eq_some_iff]
  below f p hp := hs.below (f, p) (hs.path?_eq_some_iff.mp hp)
  separate p q f hp hne hq := by
    obtain ⟨r, hr, hrp⟩ := hs.find?_eq_some_iff.mp hp
    obtain ⟨r', hr', hrq⟩ := hs.find?_eq_some_iff.mp hq
    obtain rfl := hs.path_unique hr hr'
    have hsame : p.same q = true :=
      Path.same_iff.mpr ((Path.same_iff.mp hrp).symm.trans (Path.same_iff.mp hrq))
    rw [hne] at hsame
    cases hsame
  size := hs.size_eq_ncard
  ascending := s.ascending_files
  listed _ := mem_files

end Store

/-! ## Hosts -/

namespace Host

/-- Every registered number has a document. -/
def Filled (h : Host) : Prop := ∀ e ∈ h.store.paths, (h.store.document? e.1).isSome = true

variable {h : Host}

/-- Only the number that was asked for can be new. -/
theorem Filled.register (hh : h.Filled) {p : Path} {e : FileId × Path}
    (he : e ∈ (h.store.register p).2.paths) (hne : (h.store.register p).1 ≠ e.1) :
    ((h.store.register p).2.document? e.1).isSome = true := by
  rw [document?_register]
  rcases Store.mem_paths_register.mp he with he | ⟨hnone, rfl⟩
  · exact hh e he
  · exact absurd (Store.register_of_none hnone) hne

theorem Filled.setDocument (hh : h.Filled) (p : Path) (d : Document) :
    (h.setDocument p d).2.Filled := by
  intro e he
  show (((h.store.register p).2.documents.insert (h.store.register p).1 d).get? e.1).isSome = true
  rw [FileMap.get?_insert]
  split
  · rfl
  · next hne => exact hh.register he hne

theorem Filled.removePath (hh : h.Filled) (p : Path) : (h.removePath p).Filled := by
  intro e he
  obtain ⟨he, hne⟩ := List.mem_filter.mp he
  have hne : (h.store.register p).1 ≠ e.1 := Ne.symm (of_decide_eq_true hne)
  show (((h.store.register p).2.documents.erase (h.store.register p).1).get? e.1).isSome = true
  rw [FileMap.get?_erase, if_neg hne]
  exact hh.register he hne

/-- A host registers a path only together with a document. -/
theorem Filled.apply (hh : h.Filled) (e : Edit) : (e.apply h).Filled := by
  cases e with
  | setText p text => exact hh.setDocument p _
  | setParsed p text source => exact hh.setDocument p _
  | remove p => exact hh.removePath p
  | refresh =>
    show h.refresh.Filled
    unfold Filled
    rw [store_refresh]
    exact hh

theorem filled_run (es : List Edit) : (run es).Filled := by
  suffices hall : ∀ h : Host, h.Filled → (es.foldl Edit.apply h).Filled from hall .empty nofun
  induction es with
  | nil => exact fun h hh => hh
  | cons e es ih => exact fun h hh => ih (e.apply h) (hh.apply e)

/-- In a host, the numbers that stand for a path and those that have a document are the same. -/
theorem isSome_document?_iff (es : List Edit) (f : FileId) :
    ((run es).store.document? f).isSome = true ↔ ((run es).store.path? f).isSome = true := by
  have hs := numbered_run es
  rw [Option.isSome_iff_exists, Option.isSome_iff_exists]
  constructor
  · rintro ⟨d, hd⟩
    obtain ⟨p, hp⟩ := hs.stored f d hd
    exact ⟨p, hs.path?_eq_some_iff.mpr hp⟩
  · rintro ⟨p, hp⟩
    exact Option.isSome_iff_exists.mp (filled_run es (f, p) (hs.path?_eq_some_iff.mp hp))

/-- A host counts as many registered paths as files. -/
theorem fileCount_run (es : List Edit) :
    (run es).fileCount = (run es).store.files.length := by
  have hs := numbered_run es
  have hperm : ((run es).store.paths.map (·.1)).Perm (run es).store.files := by
    refine (List.perm_ext_iff_of_nodup hs.distinct ?_).mpr fun f => ?_
    · exact (run es).store.ascending_files.imp fun {f g} (hlt : f < g) (heq : f = g) =>
        Nat.lt_irrefl _ (heq ▸ hlt)
    · rw [Store.mem_files, isSome_document?_iff, Option.isSome_iff_exists, List.mem_map]
      simp only [hs.path?_eq_some_iff, Prod.exists, exists_and_right, exists_eq_right]
  rw [fileCount, hs.size_eq, ← hperm.length_eq, List.length_map]

end Host

/-! ## Stores and hosts over time -/

/-- After any actions a store identifies its files, and no more numbers were used up than asked for.
The number that a path is given then is what every spelling of it is given as long as that number is
not removed; once it was removed, no path is given it again, whatever else is done. A host after any
edits has documents for exactly the registered numbers. -/
theorem Store.run_identifies (as as' : List Action) (p q : Path) :
    (run as).Identifies ∧
    (run as).nextId ≤ as.countP Action.isRegister ∧
    (p.same q = true → .remove ((run as).register p).1 ∉ as' →
      ((run (as ++ .register p :: as')).register q).1 = ((run as).register p).1) ∧
    (.remove ((run as).register p).1 ∈ as' →
      ((run (as ++ .register p :: as')).register q).1 ≠ ((run as).register p).1) ∧
    ∀ es : List Edit,
      (Host.run es).store.Identifies ∧
      (∀ f, ((Host.run es).store.document? f).isSome = true ↔
        ((Host.run es).store.path? f).isSome = true) ∧
      (Host.run es).fileCount = (Host.run es).store.files.length := by
  have hs := registered_run as
  have hnext := hs.register p
  obtain ⟨r, hr, hsame⟩ := hs.mem_register p
  rw [run_append]
  refine ⟨hs.identifies, ?_, ?_, ?_, fun es => ?_⟩
  · exact Nat.le_trans (empty.nextId_foldl_le as) (Nat.le_of_eq (Nat.zero_add _))
  · intro hpq hkept
    refine (hnext.foldl as').register_eq (mem_foldl hr hkept) ?_
    exact Path.same_iff.mpr ((Path.same_iff.mp hsame).trans (Path.same_iff.mp hpq))
  · intro hremoved
    have hretired := retired_of_mem (hnext.below _ hr) hremoved
    exact (hnext.foldl as').register_ne hretired q
  · exact ⟨(Host.numbered_run es).identifies, Host.isSome_document?_iff es, Host.fileCount_run es⟩

theorem Store.run_identifies_of_respelled :
    ((run [.register ⟨"src//A.hx"⟩, .register ⟨"B.hx"⟩]).register ⟨"src/A.hx"⟩).1 = ⟨0⟩ ∧
      ((run [.register ⟨"src//A.hx"⟩, .remove ⟨0⟩, .setText ⟨0⟩ ""]).register ⟨"src/A.hx"⟩).1 ≠
        ⟨0⟩ :=
  ⟨(run_identifies [] [.register ⟨"B.hx"⟩] ⟨"src//A.hx"⟩ ⟨"src/A.hx"⟩).2.2.1
      (by decide +kernel) (List.forall_mem_ne.mp nofun),
    (run_identifies [] [.remove ⟨0⟩, .setText ⟨0⟩ ""] ⟨"src//A.hx"⟩ ⟨"src/A.hx"⟩).2.2.2.1
      List.mem_cons_self⟩

end ClassNav
