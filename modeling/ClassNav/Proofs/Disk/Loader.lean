import ClassNav.Disk.Loader
import ClassNav.Proofs.Files.Host
import Mathlib.Data.List.Nodup

/-!
# Loading a directory is a series of edits

A loader reads all files of a directory before it stores the first one. What is left is the same as
if each file that can be read had been stored by an edit of its own, in the order of the paths
(`loadDirectoryInto_eq_edits`): no text is attached to another path, no failure changes anything,
and the order in which the directory was walked does not matter, because there is only one order of
paths that differ by their steps (`Loader.Queue.eq`).
-/

namespace ClassNav

open FileSystem (Visit)

/-! ## The order of paths -/

section Order

instance : Std.TransCmp Component.compare :=
  inferInstanceAs (Std.TransCmp (compareLex (compareOn Component.rank) (compareOn Component.name)))

instance : Std.LawfulEqCmp Component.compare where
  compare_self {a} := by simp [Component.compare]
  eq_of_compare {a b} h := by
    obtain ⟨hrank, hname⟩ := Ordering.then_eq_eq.mp h
    cases a <;> cases b <;> simp_all [Component.rank, Component.name]

/-- Paths are ordered as lists of steps are. -/
theorem Path.compareSteps_eq (as bs : List Component) :
    compareSteps as bs = List.compareLex Component.compare as bs := by
  fun_induction compareSteps as bs with
  | case1 => rfl
  | case2 => rfl
  | case3 => rfl
  | case4 a as b bs ih => rw [ih, List.compareLex_cons_cons]

namespace Path

variable {p q r : Path}

theorem le_trans (hpq : p.le q = true) (hqr : q.le r = true) : p.le r = true := by
  simp only [le, compareSteps_eq] at hpq hqr ⊢
  exact Std.TransCmp.isLE_trans hpq hqr

theorem le_total (p q : Path) : (p.le q || q.le p) = true := by
  have hswap : List.compareLex Component.compare q.components p.components =
      (List.compareLex Component.compare p.components q.components).swap :=
    Std.OrientedCmp.eq_swap
  rw [le, le, compareSteps_eq, compareSteps_eq, hswap]
  cases List.compareLex Component.compare p.components q.components <;> rfl

/-- The order tells paths apart by their steps and not by how they are spelled. -/
theorem components_eq_of_le (hpq : p.le q = true) (hqp : q.le p = true) :
    p.components = q.components := by
  simp only [le, compareSteps_eq] at hpq hqp
  exact Std.LawfulEqCmp.eq_of_compare (Std.OrientedCmp.isLE_antisymm hpq hqp)

end Path

end Order

/-! ## What is to be loaded -/

/-- The path of a regular file that was visited. -/
def FileSystem.Visit.file? : Visit → Option Path
  | .entry p true => some p
  | _ => none

/-- Some paths are those of the visited files that have the extension of a loader, in ascending
order. -/
structure Loader.Queue (l : Loader) (visits : List Visit) (ps : List Path) : Prop where
  perm : ps.Perm ((visits.filterMap Visit.file?).filter (·.extension? = some l.extension))
  ascending : ps.Pairwise fun p q => p.le q = true

namespace Loader

variable {l : Loader} {visits visits' : List Visit} {ps ps' : List Path}

/-- What a loader wants of some visits are the regular files with its extension. -/
theorem filterMap_wanted? (l : Loader) (visits : List Visit) :
    visits.filterMap l.wanted? =
      (visits.filterMap Visit.file?).filter (·.extension? = some l.extension) := by
  rw [← List.filterMap_eq_filter, List.filterMap_filterMap]
  refine List.filterMap_congr fun v _ => ?_
  cases v with
  | failure p => rfl
  | entry p isFile =>
    cases isFile with
    | false => rfl
    | true => simp [wanted?, Visit.file?, Option.guard]

theorem queue_select (l : Loader) (visits : List Visit) :
    l.Queue visits (l.select visits) where
  perm := by
    rw [← filterMap_wanted?]
    exact List.mergeSort_perm _ _
  ascending := @List.pairwise_mergeSort Path Path.le (fun _ _ _ => Path.le_trans) Path.le_total _

/-- Files whose paths differ by their steps can be put in one order only, whichever way they were
met. -/
theorem Queue.eq (h : l.Queue visits ps) (h' : l.Queue visits' ps') (hvisits : visits'.Perm visits)
    (hdistinct : ((visits.filterMap Visit.file?).map Path.components).Nodup) : ps' = ps := by
  have hperm : ps'.Perm ps :=
    h'.perm.trans (((hvisits.filterMap _).filter _).trans h.perm.symm)
  have hnodup : (ps.map Path.components).Nodup :=
    (h.perm.map _).nodup_iff.mpr (hdistinct.sublist (List.filter_sublist.map _))
  refine hperm.eq_of_pairwise (fun p q hp hq hpq hqp => ?_) h'.ascending h.ascending
  exact List.inj_on_of_nodup_map hnodup (hperm.mem_iff.mp hp) hq (Path.components_eq_of_le hpq hqp)

end Loader

/-! ## What is done with it -/

namespace Disk

/-- One edit for each file that can be read. -/
def edits (d : Disk) (ps : List Path) : List Edit :=
  ps.filterMap fun p => (d.read? p).map (.setText p)

/-- One error for each file that cannot be read. -/
def unread (d : Disk) (ps : List Path) : List LoadError :=
  (ps.filter fun p => (d.read? p).isNone).map .read

end Disk

namespace Loader

/-- Storing what was read does one edit after another, and counts them; a file that cannot be read
adds an error and nothing else. -/
theorem foldl_storeNext (d : Disk) (ps : List Path) (r : LoadReport) (h : Host) :
    (ps.zip (ps.map (readDocument d))).foldl storeNext (r, h) =
      (⟨r.loaded + (d.edits ps).length, r.errors ++ d.unread ps⟩,
        (d.edits ps).foldl Edit.apply h) := by
  induction ps generalizing r h with
  | nil => simp [Disk.edits, Disk.unread]
  | cons p ps ih =>
    rw [List.map_cons, List.zip_cons_cons, List.foldl_cons]
    cases hread : d.read? p with
    | none =>
      have hnext : storeNext (r, h) (p, readDocument d p) =
          ({ r with errors := r.errors ++ [.read p] }, h) := by
        rw [readDocument, hread, storeNext]
      rw [hnext, ih]
      simp [Disk.edits, Disk.unread, hread]
    | some text =>
      have hnext : storeNext (r, h) (p, readDocument d p) =
          ({ r with loaded := r.loaded + 1 }, (Edit.setText p text).apply h) := by
        rw [readDocument, hread, storeNext]
        rfl
      rw [hnext, ih]
      simp [Disk.edits, Disk.unread, hread, Nat.add_assoc, Nat.add_comm 1]

/-- To read all files and then to store them one by one comes to one edit for each file that can be
read. The errors of the walk come before those of the files. -/
theorem loadVisits_eq (l : Loader) (d : Disk) (dir : Path) (visits : List Visit)
    (h : Host) : l.loadVisits d dir visits h =
      (⟨(d.edits (l.select visits)).length,
        visits.filterMap (failure? dir) ++ d.unread (l.select visits)⟩,
        (d.edits (l.select visits)).foldl Edit.apply h) := by
  rw [loadVisits, foldl_storeNext, Nat.zero_add]

theorem loadDirectoryInto_of_isDirectory {d : Disk} {dir : Path} (hdir : d.isDirectory dir = true)
    (l : Loader) (h : Host) : l.loadDirectoryInto d dir h =
      (.ok (l.loadVisits d dir (d.walk dir) h).1, (l.loadVisits d dir (d.walk dir) h).2) := by
  rw [loadDirectoryInto, if_pos hdir]

/-- Loading a directory does one edit for each file in it that has the right extension and can be
read, in ascending order of the paths, and counts them; it reports what could not be visited, in the
order of the walk, and then the files that cannot be read, in the order of their paths. If the paths
differ by their steps, the host and the count are the same for every order of the walk. What is no
directory, and a single file that cannot be read, is an error and leaves the host as it is. -/
theorem loadDirectoryInto_eq_edits (l : Loader) (d : Disk) (dir : Path) (h : Host) :
    (d.isDirectory dir = true → ∃ ps, l.Queue (d.walk dir) ps ∧
      l.loadDirectoryInto d dir h =
        (.ok ⟨(d.edits ps).length, (d.walk dir).filterMap (failure? dir) ++ d.unread ps⟩,
          (d.edits ps).foldl Edit.apply h) ∧
      ∀ walk, (walk dir).Perm (d.walk dir) →
        (((d.walk dir).filterMap Visit.file?).map Path.components).Nodup →
        ∃ errors, l.loadDirectoryInto { d with walk := walk } dir h =
          (.ok ⟨(d.edits ps).length, errors⟩, (d.edits ps).foldl Edit.apply h)) ∧
    (d.isDirectory dir = false →
      l.loadDirectoryInto d dir h = (.error (.notADirectory dir), h)) ∧
    ∀ p, d.read? p = none → loadFileInto d p h = (.error (.read p), h) := by
  refine ⟨fun hdir => ⟨l.select (d.walk dir), l.queue_select _, ?_, fun walk hwalk hdistinct => ?_⟩,
    fun hdir => ?_, fun p hp => ?_⟩
  · rw [loadDirectoryInto_of_isDirectory hdir, loadVisits_eq]
  · have hselect := (l.queue_select _).eq (l.queue_select (walk dir)) hwalk hdistinct
    have hdir' : ({ d with walk := walk } : Disk).isDirectory dir = true := hdir
    refine ⟨(walk dir).filterMap (failure? dir) ++ d.unread (l.select (walk dir)), ?_⟩
    rw [loadDirectoryInto_of_isDirectory hdir', loadVisits_eq, hselect]
    rfl
  · rw [loadDirectoryInto, hdir]
    rfl
  · rw [loadFileInto, readDocument, hp]

/-- A directory with a file of another kind, a file that cannot be read and something that cannot be
visited: both orders of a walk store the two files that are left in the order of their paths. -/
theorem loadDirectoryInto_eq_edits_of_mixed_walk :
    let found : List Visit := [.entry ⟨"b"⟩ false, .entry ⟨"b/Z.hx"⟩ true, .failure none,
      .entry ⟨"b/note.txt"⟩ true, .entry ⟨"b/A.hx"⟩ true, .entry ⟨"b/Gone.hx"⟩ true]
    let d : Disk := ⟨fun p => p = ⟨"b"⟩, fun _ => found, fun p =>
      if p = ⟨"b/Gone.hx"⟩ then none else some "class A {}"⟩
    let h := Host.run [.setText ⟨"b/A.hx"⟩ "class Old {}"]
    let loaded := [Edit.setText ⟨"b/A.hx"⟩ "class A {}", .setText ⟨"b/Z.hx"⟩ "class A {}"]
    Loader.loadDirectoryInto {} d ⟨"b"⟩ h =
        (.ok ⟨2, [.walk ⟨"b"⟩, .read ⟨"b/Gone.hx"⟩]⟩, loaded.foldl Edit.apply h) ∧
      (∃ errors, Loader.loadDirectoryInto {} { d with walk := fun _ => found.reverse } ⟨"b"⟩ h =
        (.ok ⟨2, errors⟩, loaded.foldl Edit.apply h)) ∧
      Loader.loadDirectoryInto {} d ⟨"a"⟩ h = (.error (.notADirectory ⟨"a"⟩), h) ∧
      loadFileInto d ⟨"b/Gone.hx"⟩ h = (.error (.read ⟨"b/Gone.hx"⟩), h) := by
  intro found d h loaded
  obtain ⟨ps, hqueue, hload, hwalks⟩ :=
    (loadDirectoryInto_eq_edits {} d ⟨"b"⟩ h).1 (by decide)
  have hdistinct : ((found.filterMap Visit.file?).map Path.components).Nodup := by decide +kernel
  have hsorted : Loader.Queue {} found [⟨"b/A.hx"⟩, ⟨"b/Gone.hx"⟩, ⟨"b/Z.hx"⟩] :=
    ⟨by decide +kernel, by decide +kernel⟩
  obtain rfl := hsorted.eq hqueue (.refl _) hdistinct
  exact ⟨hload, hwalks _ found.reverse_perm hdistinct,
    (loadDirectoryInto_eq_edits {} d ⟨"a"⟩ h).2.1 (by decide),
    (loadDirectoryInto_eq_edits {} d ⟨"b"⟩ h).2.2 ⟨"b/Gone.hx"⟩ (by decide)⟩

end Loader

end ClassNav
