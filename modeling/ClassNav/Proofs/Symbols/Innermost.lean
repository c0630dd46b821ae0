import ClassNav.Proofs.Outline.Declaration
import ClassNav.Symbols.DeclPtr
import Mathlib.Data.List.Find

/-!
# The node behind a pointer

A pointer is followed by going down to the smallest element around its range, and up from there.
The elements around a range that is not empty are those around that smallest one
(`Site.mem_ancestors_covering_iff`), so nothing with the kind and the range is missed on the way up,
and the first that is met lies in all others (`DeclPtr.resolve?_eq_some_iff`).

All of this holds for every tree. Empty nodes and empty tokens at the ends of a range change
nothing, since a range that is not empty does not lie within them.
-/

namespace ClassNav

namespace Site

variable {t : Tree} {d e : Site} {r : Span}

/-- The elements around a range that is not empty are those around the smallest one. -/
theorem mem_ancestors_covering_iff (hr : r.start < r.stop) (h : r.within (root t).span = true) :
    d ∈ ((root t).covering r).ancestors ↔ d ∈ (root t).descendants ∧ r.within d.span = true := by
  obtain ⟨hmem, hwithin, _⟩ := covering_spec hr h
  rw [mem_ancestors_iff hmem]
  constructor
  · rintro ⟨hbelow, hd⟩
    exact ⟨hd, within_of_mem_descendants hbelow hwithin⟩
  · rintro ⟨hd, hdwithin⟩
    exact ⟨covering_mem_descendants hr hd hdwithin, hd⟩

/-- Of two elements with the same range, which is not empty, one is below the other. -/
theorem below_or_below_of_span_eq {s : Site} (he : e ∈ s.descendants) (hd : d ∈ s.descendants)
    (hpos : 0 < d.tree.size) (hspan : e.span = d.span) :
    e ∈ d.descendants ∨ d ∈ e.descendants := by
  have hcovers : d.span.covers d.start = true := covers_iff.mpr ⟨Nat.le_refl _, by omega⟩
  exact below_or_below he hd (hspan ▸ hcovers) hcovers

theorem isToken_of_mem_climb (he : e ∈ (root t).descendants) {a : Site}
    (ha : a ∈ climb e.above) : a.isToken = false := by
  have hmem : a ∈ e.ancestors := List.mem_cons_of_mem _ ha
  have hbelow := (mem_descendants_of_mem_ancestors he hmem).1
  rcases mem_descendants_iff.mp hbelow with rfl | ⟨c, hc, _⟩
  · have hnodup := nodup_ancestors e
    exact absurd ha (List.nodup_cons.mp hnodup).1
  · exact isToken_of_mem_children hc

/-- Right above an element comes the node around it. -/
theorem parent?_bind_find? (e : Site) (p : Site → Bool) :
    (e.parent?.bind fun s => s.ancestors.find? p) = (climb e.above).find? p := by
  obtain ⟨t, start, above⟩ := e
  cases above with
  | nil => rfl
  | cons step up => rfl

end Site

namespace DeclPtr

variable {p : DeclPtr} {t : Tree} {n d e : Site}

/-- Whether an element is a node with the kind and the range of a pointer. -/
def denotes (p : DeclPtr) (s : Site) : Bool := s.isNode p.kind && decide (s.span = p.span)

theorem denotes_iff : p.denotes d = true ↔
    d.isToken = false ∧ d.kind = p.kind ∧ d.span = p.span := by
  rw [denotes, Bool.and_eq_true, Site.isNode_iff, decide_eq_true_eq, and_assoc]

theorem denotes_eq (p : DeclPtr) (s : Site) : p.denotes s = (!s.isToken && p.fits s) := by
  rw [Bool.eq_iff_iff, denotes_iff]
  simp [fits]

theorem denotes_ofSite (file : FileId) (hnode : d.isToken = false) :
    (ofSite file d).denotes d = true :=
  denotes_iff.mpr ⟨hnode, rfl, rfl⟩

/-- Whether the way up starts at a token or at the node around it, only nodes are found. -/
theorem nodeAt?_bind_find? (he : e ∈ (Site.root t).descendants) (p : DeclPtr) :
    ((nodeAt? e).bind fun s => s.ancestors.find? p.fits) = e.ancestors.find? p.denotes := by
  have hup : (Site.climb e.above).find? p.fits = (Site.climb e.above).find? p.denotes := by
    refine List.find?_congr fun a ha => ?_
    rw [denotes_eq, Site.isToken_of_mem_climb he ha]
    rfl
  rw [Site.ancestors, List.find?_cons, denotes_eq, nodeAt?]
  cases htoken : e.isToken with
  | true => exact (Site.parent?_bind_find? e p.fits).trans hup
  | false =>
    show (e :: Site.climb e.above).find? p.fits = _
    rw [List.find?_cons, hup]
    rfl

/-- A pointer leads to the first node that it denotes, going up from the smallest element around its
range. -/
theorem resolve?_root (p : DeclPtr) (t : Tree) : p.resolve? (Site.root t) =
    if p.span.within (Site.root t).span then
      ((Site.root t).covering p.span).ancestors.find? p.denotes
    else none := by
  have hparent : (Site.root t).parent? = none := rfl
  rw [resolve?, hparent, nodeAt?_bind_find? (Site.covering_mem p.span (Site.root t))]
  cases p.span.within (Site.root t).span with
  | false => rfl
  | true => rfl

/-- In any tree, a pointer leads to a node of its kind and range, or nowhere. -/
theorem resolve?_fits (h : p.resolve? (Site.root t) = some d) :
    d ∈ (Site.root t).descendants ∧ d.isToken = false ∧ d.kind = p.kind ∧ d.span = p.span := by
  rw [resolve?_root, Option.ite_none_right_eq_some] at h
  have hmem := List.mem_of_find?_eq_some h.2
  refine ⟨?_, denotes_iff.mp (List.find?_some h.2)⟩
  exact (Site.mem_descendants_of_mem_ancestors (Site.covering_mem p.span (Site.root t)) hmem).2

/-- The innermost of the nodes that a pointer denotes in a tree: it lies in all of them. -/
structure Innermost (p : DeclPtr) (t : Tree) (n : Site) : Prop where
  mem : n ∈ (Site.root t).descendants
  denoted : p.denotes n = true
  inside : ∀ d ∈ (Site.root t).descendants, p.denotes d = true → n ∈ d.descendants

theorem within_of_denotes (h : p.denotes d = true) : p.span.within d.span = true := by
  rw [(denotes_iff.mp h).2.2]
  simp [Span.within]

theorem within_root_of_denotes (hd : d ∈ (Site.root t).descendants) (h : p.denotes d = true) :
    p.span.within (Site.root t).span = true :=
  Site.within_of_mem_descendants hd (within_of_denotes h)

/-- Where several nodes have the kind and the range of a pointer, each lies in the next, and the
pointer leads to the innermost of them. -/
theorem resolve?_eq_some_iff (hr : p.span.start < p.span.stop) :
    p.resolve? (Site.root t) = some n ↔ p.Innermost t n := by
  rw [resolve?_root, Option.ite_none_right_eq_some, Site.find?_ancestors_eq_some_iff]
  constructor
  · rintro ⟨hwithin, hn, hdenotes, houter⟩
    have hmem := ((Site.mem_ancestors_covering_iff hr hwithin).mp hn).1
    refine ⟨hmem, hdenotes, fun d hd hdd => ?_⟩
    have haround := (Site.mem_ancestors_covering_iff hr hwithin).mpr ⟨hd, within_of_denotes hdd⟩
    exact ((Site.mem_ancestors_iff hmem).mp (houter d haround hdd)).1
  · rintro ⟨hmem, hdenotes, hinside⟩
    have hwithin := within_root_of_denotes hmem hdenotes
    refine ⟨hwithin, ?_, hdenotes, fun d hd hdd => ?_⟩
    · exact (Site.mem_ancestors_covering_iff hr hwithin).mpr ⟨hmem, within_of_denotes hdenotes⟩
    · have hdmem := ((Site.mem_ancestors_covering_iff hr hwithin).mp hd).1
      exact Site.mem_ancestors_of_mem_descendants (hinside d hdmem hdd)

/-- A pointer leads somewhere exactly if some node has its kind and its range. -/
theorem isSome_resolve?_iff (hr : p.span.start < p.span.stop) :
    (p.resolve? (Site.root t)).isSome = true ↔
      ∃ d ∈ (Site.root t).descendants, p.denotes d = true := by
  constructor
  · intro hsome
    obtain ⟨n, hn⟩ := Option.isSome_iff_exists.mp hsome
    have hinnermost := (resolve?_eq_some_iff hr).mp hn
    exact ⟨n, hinnermost.mem, hinnermost.denoted⟩
  · rintro ⟨d, hd, hdenotes⟩
    have hwithin := within_root_of_denotes hd hdenotes
    rw [resolve?_root, if_pos hwithin, List.find?_isSome]
    exact ⟨d, (Site.mem_ancestors_covering_iff hr hwithin).mpr ⟨hd, within_of_denotes hdenotes⟩,
      hdenotes⟩

/-- Only from the root of a tree does a pointer lead anywhere. -/
theorem resolve?_of_ne_root (hd : d ∈ (Site.root t).descendants) (hne : d ≠ Site.root t) :
    p.resolve? d = none := by
  obtain ⟨q, _, hchild⟩ := (Site.exists_parent_of_mem_descendants hd).resolve_left hne
  rw [resolve?, Site.parent?_of_mem_children hchild]
  rfl

/-- In every tree, a pointer with a range that is not empty leads somewhere exactly if some node has
its kind and its range, and then to the innermost one that has them. From an element that is not the
root it leads nowhere, nor does it if its range is not within that of the root. -/
theorem resolve?_innermost (p : DeclPtr) (t : Tree) :
    (p.span.start < p.span.stop →
      (∀ n, p.resolve? (Site.root t) = some n ↔ p.Innermost t n) ∧
      ((p.resolve? (Site.root t)).isSome = true ↔
        ∃ d ∈ (Site.root t).descendants, p.denotes d = true)) ∧
    (∀ s ∈ (Site.root t).descendants, s ≠ Site.root t → p.resolve? s = none) ∧
    (p.span.within (Site.root t).span = false → p.resolve? (Site.root t) = none) := by
  refine ⟨fun hr => ⟨fun n => resolve?_eq_some_iff hr, isSome_resolve?_iff hr⟩, ?_, ?_⟩
  · exact fun s hs hne => resolve?_of_ne_root hs hne
  · intro houtside
    rw [resolve?_root, houtside]
    rfl

/-- Of two blocks around one word the inner one is found, also between empty nodes and tokens. -/
theorem resolve?_innermost_of_empty_neighbours :
    let word : Tree := .leaf ⟨.ident, "x"⟩
    let inner : Tree := .node .block [.node .name [], word]
    let outer : Tree := .node .block [.leaf ⟨.error, ""⟩, inner, .node .block []]
    let t : Tree := .node .sourceFile [.node .block [], outer, .leaf ⟨.error, ""⟩]
    let p : DeclPtr := ⟨⟨0⟩, .block, ⟨0, 1⟩⟩
    ∃ n, p.resolve? (Site.root t) = some n ∧ n.tree = inner ∧ p.Innermost t n ∧
      (∃ d ∈ (Site.root t).descendants, p.denotes d = true ∧ d ≠ n) ∧
      p.resolve? n = none ∧ (⟨⟨0⟩, .block, ⟨0, 2⟩⟩ : DeclPtr).resolve? (Site.root t) = none := by
  intro word inner outer t p
  have hfound : (p.resolve? (Site.root t)).map Site.tree = some inner := by decide +kernel
  obtain ⟨n, hn, htree⟩ := Option.map_eq_some_iff.mp hfound
  obtain ⟨hinnermost, hother, _⟩ := resolve?_innermost p t
  have hmem := (((hinnermost (by decide)).1 n).mp hn).mem
  have houter : ((Site.root t).descendants.any fun d => p.denotes d && decide (d.tree = outer)) =
      true := by
    decide +kernel
  obtain ⟨d, hd, hdenotes⟩ := List.any_eq_true.mp houter
  rw [Bool.and_eq_true, decide_eq_true_eq] at hdenotes
  refine ⟨n, hn, htree, ((hinnermost (by decide)).1 n).mp hn, ⟨d, hd, hdenotes.1, ?_⟩, ?_, ?_⟩
  · rintro rfl
    exact absurd (htree.symm.trans hdenotes.2) (by decide +kernel)
  · refine hother n hmem ?_
    rintro rfl
    exact absurd htree (by decide +kernel)
  · exact (resolve?_innermost ⟨⟨0⟩, .block, ⟨0, 2⟩⟩ t).2.2 (by decide +kernel)

end DeclPtr

end ClassNav
