import ClassNav.Navigation.Context
import ClassNav.Proofs.Symbols.Index

/-!
# Snapshots are never stale

A query asks a `Project` and nothing else, so two projects that are equal answer every query alike.
`Store.project` is the project of a store whose index is built for it on the spot. Every project
that a host hands out is that of its store at the moment (`Host.Consistent.snapshot_eq_project`),
although the host builds its index only if something was edited since the last time; and that
project depends on the trees of the files alone (`Store.project_congr`), not on paths, texts or what
was there before.
-/

namespace ClassNav

/-! ## The project of a store -/

/-- The project of the documents of a store, with an index that is built for it. -/
def Store.project (s : Store) : Project Id where
  tree? := s.tree?
  candidates := (Host.indexOf s).candidates
  class? := (Host.indexOf s).classFor?

/-- Stores in which each file has the same tree list the same trees. -/
theorem Store.trees_congr {s s' : Store} (h : ∀ f, s.tree? f = s'.tree? f) :
    s.trees = s'.trees := by
  have hmaps : FileMap.mk s.trees s.ascending_trees = ⟨s'.trees, s'.ascending_trees⟩ := by
    refine FileMap.ext_get? fun f => Option.ext fun t => ?_
    rw [FileMap.get?_eq_some_iff, FileMap.get?_eq_some_iff]
    show (f, t) ∈ s.trees ↔ (f, t) ∈ s'.trees
    rw [mem_trees, mem_trees, h]
  exact congrArg FileMap.entries hmaps

/-- A project depends on the trees of a store only, and not on the texts or the paths. -/
theorem Store.project_congr {s s' : Store} (h : ∀ f, s.tree? f = s'.tree? f) :
    s.project = s'.project := by
  have hindex : Host.indexOf s = Host.indexOf s' := congrArg SymbolIndex.build (trees_congr h)
  rw [project, project, hindex, funext h]

/-! ## Snapshots along a run -/

namespace Host

/-- The projects that a host hands out in the course of some edits, one each time it is refreshed,
and the store that it has at the moment. -/
def snapshotsAlong (h : Host) : List Edit → List (Project Id × Store)
  | [] => []
  | .refresh :: es => (h.refresh.project, h.store) :: h.refresh.snapshotsAlong es
  | e :: es => (e.apply h).snapshotsAlong es

/-- A refreshed host answers as if its index had been built for its store just now. -/
theorem Consistent.project_refresh {h : Host} (hh : h.Consistent) :
    h.refresh.project = h.store.project := by
  rw [project, Store.project, hh.index_refresh, store_refresh]

/-- Whatever the host has been through, what it hands out is the project of its store. -/
theorem Consistent.snapshot_eq_project {h : Host} (hh : h.Consistent) {es : List Edit}
    {q : Project Id × Store} (hq : q ∈ h.snapshotsAlong es) : q.1 = q.2.project := by
  induction es generalizing h with
  | nil => cases hq
  | cons e es ih =>
    have hnext := hh.apply e
    cases e with
    | refresh =>
      rcases List.mem_cons.mp hq with rfl | hq
      · exact hh.project_refresh
      · exact ih hnext hq
    | setText p text => exact ih hnext hq
    | setParsed p text source => exact ih hnext hq
    | remove p => exact ih hnext hq

/-- Every snapshot of a host, at any point of any run, is the project of the current store with a
newly built index. So snapshots at moments at which the files have the same trees are equal, in one
run or in two, whatever came before. -/
theorem snapshots_current (es es' : List Edit) :
    (∀ q ∈ empty.snapshotsAlong es, q.1 = q.2.project) ∧
      ∀ q ∈ empty.snapshotsAlong es, ∀ q' ∈ empty.snapshotsAlong es',
        (∀ f, q.2.tree? f = q'.2.tree? f) → q.1 = q'.1 := by
  refine ⟨fun q hq => consistent_empty.snapshot_eq_project hq, fun q hq q' hq' htrees => ?_⟩
  rw [consistent_empty.snapshot_eq_project hq, consistent_empty.snapshot_eq_project hq',
    Store.project_congr htrees]

theorem snapshots_current_of_removed :
    let edits : List Edit := [.setText ⟨"A.hx"⟩ "class A {}", .refresh,
      .setText ⟨"B.hx"⟩ "class B {}", .refresh, .remove ⟨"B.hx"⟩]
    let edits' : List Edit := [.setParsed ⟨"C.hx"⟩ "" "class A {}"]
    (run edits).store.paths ≠ (run edits').store.paths ∧
      (run edits).refresh.project = (run edits').refresh.project := by
  intro edits edits'
  have htrees : ∀ f, (run edits).store.tree? f = (run edits').store.tree? f := by
    intro f
    show ((List.lookup f [(⟨0⟩, .ofParsed "class A {}" (parse "class A {}"))]).map
        Document.tree).filter (Tree.isNode .sourceFile) =
      ((List.lookup f [(⟨0⟩, .ofParsed "" (parse "class A {}"))]).map
        Document.tree).filter (Tree.isNode .sourceFile)
    simp only [Keyed.lookup_cons]
    split
    · rfl
    · rfl
  refine ⟨by decide +kernel, ?_⟩
  exact (snapshots_current (edits ++ [.refresh]) (edits' ++ [.refresh])).2
    (_, (run edits).store) (.tail _ (.tail _ (.head _))) (_, (run edits').store) (.head _) htrees

end Host

end ClassNav
