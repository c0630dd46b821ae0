import ClassNav.Files.Host
import ClassNav.Proofs.Symbols.DeclPtr

/-!
# What every host has in common

`Host.run` is the host after any edits in any order. Every such host is `Host.Consistent`: its
trees were made of texts, and its index is that of its store unless it is marked as stale. So
`Host.refresh` always leaves the index of the current documents (`Host.index_refresh_run`).
-/

namespace ClassNav

/-! ## Edits -/

/-- Something that is done to a host. -/
inductive Edit
  /-- Parses a text and stores it under a path. -/
  | setText (path : Path) (text : String)
  /-- Stores a text under a path, with a tree that was made of `source` elsewhere. -/
  | setParsed (path : Path) (text source : String)
  /-- Removes the document of a path. -/
  | remove (path : Path)
  /-- Builds the index anew if it is stale. -/
  | refresh

def Edit.apply (h : Host) : Edit → Host
  | setText p text => (h.setText p text).2
  | setParsed p text source => (h.setDocument p (.ofParsed text (parse source))).2
  | remove p => h.removePath p
  | refresh => h.refresh

def Host.run (es : List Edit) : Host := es.foldl Edit.apply .empty

/-! ## The invariant -/

/-- The trees of a host were made of texts, and its index is that of its store unless it is marked
as stale. -/
structure Host.Consistent (h : Host) : Prop where
  parsed : ∀ f d, h.store.document? f = some d → d.tree.Parsed
  fresh : h.stale = false → h.index = Host.indexOf h.store

namespace Host

theorem consistent_empty : Consistent .empty where
  parsed _ _ h := nomatch h
  fresh _ := rfl

theorem document?_register (s : Store) (p : Path) (f : FileId) :
    (s.register p).2.document? f = s.document? f := by
  unfold Store.register
  split
  · rfl
  · rfl

theorem Consistent.setDocument {h : Host} (hh : h.Consistent) (p : Path) {d : Document}
    (hd : d.tree.Parsed) : (h.setDocument p d).2.Consistent where
  parsed f d' hdoc := by
    rw [Store.document?, show (h.setDocument p d).2.store.documents =
      (h.store.register p).2.documents.insert (h.store.register p).1 d from rfl,
      FileMap.get?_insert] at hdoc
    split at hdoc
    · cases hdoc
      exact hd
    · rw [← Store.document?, document?_register] at hdoc
      exact hh.parsed f d' hdoc
  fresh h := nomatch h

theorem Consistent.removePath {h : Host} (hh : h.Consistent) (p : Path) :
    (h.removePath p).Consistent where
  parsed f d hdoc := by
    rw [Store.document?, show (h.removePath p).store.documents =
      (h.store.register p).2.documents.erase (h.store.register p).1 from rfl,
      FileMap.get?_erase] at hdoc
    split at hdoc
    · cases hdoc
    · rw [← Store.document?, document?_register] at hdoc
      exact hh.parsed f d hdoc
  fresh h := nomatch h

theorem store_refresh (h : Host) : h.refresh.store = h.store := by
  unfold refresh
  split
  · rfl
  · rfl

theorem Consistent.index_refresh {h : Host} (hh : h.Consistent) :
    h.refresh.index = indexOf h.store := by
  unfold refresh
  split
  · rfl
  · next hstale => exact hh.fresh (by simpa using hstale)

theorem Consistent.refresh {h : Host} (hh : h.Consistent) : h.refresh.Consistent where
  parsed f d hdoc := hh.parsed f d (by rwa [store_refresh] at hdoc)
  fresh _ := by rw [hh.index_refresh, store_refresh]

/-- No edit makes a host inconsistent: whatever changes the documents marks the index as stale. -/
theorem Consistent.apply {h : Host} (hh : h.Consistent) (e : Edit) : (e.apply h).Consistent := by
  cases e with
  | setText p text => exact hh.setDocument p ⟨text, rfl⟩
  | setParsed p text source => exact hh.setDocument p ⟨source, rfl⟩
  | remove p => exact hh.removePath p
  | refresh => exact hh.refresh

/-- Every host is consistent, whatever was done to it. -/
theorem consistent_run (es : List Edit) : (run es).Consistent := by
  suffices hall : ∀ h : Host, h.Consistent → (es.foldl Edit.apply h).Consistent from
    hall .empty consistent_empty
  induction es with
  | nil => exact fun h hh => hh
  | cons e es ih => exact fun h hh => ih (e.apply h) (hh.apply e)

/-- Whatever was done to a host, it has the index of its documents once it is refreshed. -/
theorem index_refresh_run (es : List Edit) :
    (run es).refresh.index = indexOf (run es).refresh.store := by
  rw [store_refresh]
  exact (consistent_run es).index_refresh

/-- Every document has its tree. -/
theorem Consistent.tree?_eq {h : Host} (hh : h.Consistent) {f : FileId} {d : Document}
    (hd : h.store.document? f = some d) : h.store.tree? f = some d.tree := by
  rw [Store.tree?, hd, Option.map_some, Option.filter_some, if_pos (hh.parsed f d hd).isNode]

end Host

theorem Store.exists_document_of_tree? {s : Store} {f : FileId} {t : Tree}
    (ht : s.tree? f = some t) : ∃ d, s.document? f = some d ∧ d.tree = t := by
  obtain ⟨hmap, _⟩ := Option.filter_eq_some_iff.mp ht
  exact Option.map_eq_some_iff.mp hmap

/-! ## The trees of a store -/

/-- The trees of a store are those of its documents, in order. -/
theorem Host.Consistent.trees_eq {h : Host} (hh : h.Consistent) :
    h.store.trees = h.store.documents.entries.map fun e => (e.1, e.2.tree) := by
  rw [Store.trees, Store.files, FileMap.files, List.filterMap_map, ← List.filterMap_eq_map]
  refine List.filterMap_congr fun e he => ?_
  have hd : h.store.document? e.1 = some e.2 := FileMap.get?_eq_some_iff.mpr he
  simp only [Function.comp_apply, hh.tree?_eq hd, Option.map_some]

end ClassNav
