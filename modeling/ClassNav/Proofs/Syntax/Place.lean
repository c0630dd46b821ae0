import ClassNav.Syntax.Site
import Mathlib.Data.List.Nodup
import Mathlib.Data.List.Pairwise

/-!
# Up and down in a tree

How the ways of moving in a tree fit together: the elements below an element are the element and
what is below its children (`Site.descendants_eq`), every element of a tree comes once
(`nodup_descendants`), and one element is around another exactly if the other is below it
(`mem_ancestors_iff`). Going up, the first element that passes a test is the one that all others
that pass it are around (`find?_ancestors_eq_some_iff`).

Children lie side by side and fill their node, so that two elements with a byte in common lie
inside each other (`below_or_below`). Hence there is one token over each byte, which `Site.leafAt?`
finds (`leafAt?_eq_some_iff`), and the elements around a range that is not empty are those around
the one that `Site.covering` finds (`covering_mem_descendants`).

All of this holds for every tree, also for one with empty nodes and empty tokens.
-/

namespace ClassNav

namespace Site

variable {s e c : Site}

/-! ## Rows -/

section

variable {above : List Step} {step : Step} {start : Nat} {ts : List Tree}

theorem mem_row (h : c ∈ row above step start ts) :
    c.tree ∈ ts ∧ ∃ i, step.child ≤ i ∧ c.above = ⟨step.tree, step.start, i⟩ :: above := by
  induction ts generalizing step start with
  | nil => cases h
  | cons t ts ih =>
    rcases List.mem_cons.mp h with rfl | h
    · exact ⟨List.mem_cons_self, step.child, Nat.le_refl _, rfl⟩
    · obtain ⟨htree, i, hi, habove⟩ := ih h
      exact ⟨List.mem_cons_of_mem t htree, i, Nat.le_of_succ_le hi, habove⟩

theorem nodup_row : (row above step start ts).Nodup := by
  induction ts generalizing step start with
  | nil => exact List.nodup_nil
  | cons t ts ih =>
    refine List.nodup_cons.mpr ⟨fun h => ?_, ih⟩
    obtain ⟨_, i, hi, habove⟩ := mem_row h
    have hchild : step.child = i := congrArg Step.child (List.cons.inj habove).1
    simp only [Step.next] at hi
    omega

theorem span_of_mem_row (h : c ∈ row above step start ts) :
    start ≤ c.start ∧ c.start + c.tree.size ≤ start + Tree.forestSize ts := by
  induction ts generalizing step start with
  | nil => cases h
  | cons t ts ih =>
    simp only [Tree.forestSize]
    rcases List.mem_cons.mp h with rfl | h
    · exact ⟨Nat.le_refl _, by simp only; omega⟩
    · have hle := ih h
      omega

/-- Trees of a row do not overlap. -/
theorem pairwise_row :
    (row above step start ts).Pairwise fun c d => c.start + c.tree.size ≤ d.start := by
  induction ts generalizing step start with
  | nil => exact .nil
  | cons t ts ih => exact .cons (fun d hd => (span_of_mem_row hd).1) ih

/-- Trees of a row leave no gaps. -/
theorem exists_mem_row_covers {offset : Nat} (hstart : start ≤ offset)
    (hstop : offset < start + Tree.forestSize ts) :
    ∃ c ∈ row above step start ts, c.span.covers offset = true := by
  induction ts generalizing step start with
  | nil =>
    simp only [Tree.forestSize] at hstop
    omega
  | cons t ts ih =>
    simp only [Tree.forestSize] at hstop
    by_cases h : offset < start + t.size
    · refine ⟨_, List.mem_cons_self, ?_⟩
      simp [Span.covers, span, hstart, h]
    · have hrest : ∃ c ∈ row above step.next (start + t.size) ts, c.span.covers offset = true :=
        ih (by omega) (by omega)
      obtain ⟨c, hc, hcovers⟩ := hrest
      exact ⟨c, List.mem_cons_of_mem _ hc, hcovers⟩

end

/-! ## Children -/

theorem tree_mem_of_mem_children (h : c ∈ s.children) : c.tree ∈ s.tree.children := (mem_row h).1

theorem above_of_mem_children (h : c ∈ s.children) :
    ∃ i, c.above = ⟨s.tree, s.start, i⟩ :: s.above := by
  obtain ⟨_, i, _, habove⟩ := mem_row h
  exact ⟨i, habove⟩

/-- The steps down to a child lead back to the node. -/
theorem parent?_of_mem_children (h : c ∈ s.children) : c.parent? = some s := by
  obtain ⟨i, habove⟩ := above_of_mem_children h
  simp [parent?, habove]

theorem nodup_children (s : Site) : s.children.Nodup := nodup_row

theorem children_of_isToken (h : s.isToken = true) : s.children = [] := by
  obtain ⟨t, start, above⟩ := s
  cases t with
  | leaf t => rfl
  | node k cs => cases h

theorem size_children (s : Site) (h : s.isToken = false) :
    s.tree.size = Tree.forestSize s.tree.children := by
  obtain ⟨t, start, above⟩ := s
  cases t with
  | leaf t => cases h
  | node k cs => simp only [Tree.size, Tree.children]

theorem isToken_of_mem_children (h : c ∈ s.children) : s.isToken = false := by
  cases hs : s.isToken with
  | false => rfl
  | true =>
    rw [children_of_isToken hs] at h
    cases h

theorem span_of_mem_children (h : c ∈ s.children) :
    s.start ≤ c.start ∧ c.start + c.tree.size ≤ s.start + s.tree.size := by
  rw [size_children s (isToken_of_mem_children h)]
  exact span_of_mem_row h

/-- To prove something of every element, prove it of an element whose children have it. -/
theorem children_induction {P : Site → Prop} (h : ∀ s : Site, (∀ c ∈ s.children, P c) → P s)
    (s : Site) : P s :=
  h s fun c _hc => children_induction h c
termination_by sizeOf s.tree
decreasing_by
  have hmem := tree_mem_of_mem_children _hc
  cases htree : s.tree with
  | leaf t => simp [htree, Tree.children] at hmem
  | node k cs =>
    rw [htree] at hmem
    have hlt := List.sizeOf_lt_of_mem hmem
    simp only [Tree.children, Tree.node.sizeOf_spec] at hlt ⊢
    omega

/-! ## Descendants -/

theorem forestSites_eq (step : Step) (above : List Step) (start : Nat) (ts : List Tree) :
    Tree.forestSites step above start ts = (row above step start ts).flatMap descendants := by
  induction ts generalizing step start with
  | nil => simp [Tree.forestSites, row]
  | cons t ts ih => simp [Tree.forestSites, row, ih, descendants]

theorem descendants_eq (s : Site) : s.descendants = s :: s.children.flatMap descendants := by
  obtain ⟨t, start, above⟩ := s
  cases t with
  | leaf t => simp [descendants, Tree.sites, children, Tree.children, row]
  | node k cs => simp [descendants, Tree.sites, forestSites_eq, children, Tree.children]

theorem mem_descendants_iff :
    e ∈ s.descendants ↔ e = s ∨ ∃ c ∈ s.children, e ∈ c.descendants := by
  rw [descendants_eq, List.mem_cons, List.mem_flatMap]

theorem self_mem_descendants (s : Site) : s ∈ s.descendants := mem_descendants_iff.mpr (.inl rfl)

theorem mem_descendants_of_mem_children (h : c ∈ s.children) : c ∈ s.descendants :=
  mem_descendants_iff.mpr (.inr ⟨c, h, c.self_mem_descendants⟩)

theorem mem_descendants_trans {d : Site} (hd : d ∈ e.descendants) (he : e ∈ s.descendants) :
    d ∈ s.descendants := by
  induction s using children_induction with
  | h s ih =>
    rcases mem_descendants_iff.mp he with rfl | ⟨c, hc, he⟩
    · exact hd
    · exact mem_descendants_iff.mpr (.inr ⟨c, hc, ih c hc he⟩)

theorem descendants_of_isToken (h : s.isToken = true) : s.descendants = [s] := by
  rw [descendants_eq, children_of_isToken h]
  rfl

/-- Everything below an element, except itself, is a child of something below it. -/
theorem exists_parent_of_mem_descendants (h : e ∈ s.descendants) :
    e = s ∨ ∃ q ∈ s.descendants, e ∈ q.children := by
  induction s using children_induction with
  | h s ih =>
    rcases mem_descendants_iff.mp h with rfl | ⟨c, hc, he⟩
    · exact .inl rfl
    · rcases ih c hc he with rfl | ⟨q, hq, heq⟩
      · exact .inr ⟨s, s.self_mem_descendants, hc⟩
      · exact .inr ⟨q, mem_descendants_trans hq (mem_descendants_of_mem_children hc), heq⟩

/-- What holds of the root of a tree, and of all children of an element of which it holds, holds of
every element. -/
theorem parent_induction {t : Tree} {P : Site → Prop} (top : P (root t))
    (child : ∀ q ∈ (root t).descendants, P q → ∀ c ∈ q.children, P c)
    (he : e ∈ (root t).descendants) : P e := by
  have hbelow : ∀ s : Site, s ∈ (root t).descendants → P s → e ∈ s.descendants → P e := by
    intro s
    induction s using children_induction with
    | h s ih =>
      intro hs hP he
      rcases mem_descendants_iff.mp he with rfl | ⟨c, hc, he⟩
      · exact hP
      · exact ih c hc (mem_descendants_trans (mem_descendants_of_mem_children hc) hs)
          (child s hs hP c hc) he
  exact hbelow (root t) (self_mem_descendants _) top he

/-! ## Ancestors -/

theorem ancestors_of_parent? {q : Site} (h : e.parent? = some q) :
    e.ancestors = e :: q.ancestors := by
  unfold parent? at h
  split at h
  · cases h
  · next step up habove =>
    cases h
    rw [ancestors, habove]
    rfl

theorem self_mem_ancestors (s : Site) : s ∈ s.ancestors := List.mem_cons_self

/-- Right outside a child comes its node. -/
theorem mem_ancestors_of_child (hc : c ∈ s.children) (h : c ∈ e.ancestors) : s ∈ e.ancestors := by
  obtain ⟨t, start, up⟩ := e
  induction up generalizing t start with
  | nil =>
    obtain rfl := List.mem_singleton.mp h
    obtain ⟨i, habove⟩ := above_of_mem_children hc
    cases habove
  | cons step up ih =>
    rcases List.mem_cons.mp h with rfl | h
    · rw [ancestors_of_parent? (parent?_of_mem_children hc)]
      exact List.mem_cons_of_mem _ s.self_mem_ancestors
    · exact List.mem_cons_of_mem _ (ih step.tree step.start h)

theorem mem_ancestors_of_mem_descendants (h : e ∈ s.descendants) : s ∈ e.ancestors := by
  induction s using children_induction with
  | h s ih =>
    rcases mem_descendants_iff.mp h with rfl | ⟨c, hc, he⟩
    · exact e.self_mem_ancestors
    · exact mem_ancestors_of_child hc (ih c hc he)

/-- In a tree, going up undoes going down. -/
theorem mem_descendants_of_mem_ancestors {t : Tree} {a : Site} (he : e ∈ (root t).descendants)
    (ha : a ∈ e.ancestors) : e ∈ a.descendants ∧ a ∈ (root t).descendants := by
  induction hn : e.above.length generalizing e with
  | zero =>
    rcases exists_parent_of_mem_descendants he with rfl | ⟨q, _, heq⟩
    · obtain rfl := List.mem_singleton.mp ha
      exact ⟨he, he⟩
    · obtain ⟨i, habove⟩ := above_of_mem_children heq
      simp [habove] at hn
  | succ n ih =>
    rcases exists_parent_of_mem_descendants he with rfl | ⟨q, hq, heq⟩
    · simp [root] at hn
    · rw [ancestors_of_parent? (parent?_of_mem_children heq)] at ha
      rcases List.mem_cons.mp ha with rfl | ha
      · exact ⟨a.self_mem_descendants, he⟩
      · obtain ⟨i, habove⟩ := above_of_mem_children heq
        obtain ⟨hqa, hroot⟩ := ih hq ha (by simpa [habove] using hn)
        exact ⟨mem_descendants_trans (mem_descendants_of_mem_children heq) hqa, hroot⟩

/-- To be above an element is to have it below. -/
theorem mem_ancestors_iff {t : Tree} {a : Site} (he : e ∈ (root t).descendants) :
    a ∈ e.ancestors ↔ e ∈ a.descendants ∧ a ∈ (root t).descendants :=
  ⟨mem_descendants_of_mem_ancestors he, fun h => mem_ancestors_of_mem_descendants h.1⟩

/-- What is around an element that is around another comes after it. -/
theorem ancestors_of_ancestors_eq {a : Site} {as bs : List Site}
    (h : e.ancestors = as ++ a :: bs) : a.ancestors = a :: bs := by
  obtain ⟨t, start, up⟩ := e
  induction up generalizing t start as with
  | nil =>
    rcases List.append_eq_singleton_iff.mp h.symm with ⟨_, h⟩ | ⟨_, h⟩
    · cases h
      rfl
    · cases h
  | cons step up ih =>
    cases as with
    | nil =>
      obtain ⟨rfl, hbs⟩ := List.cons.inj h
      rw [← hbs]
      rfl
    | cons x as => exact ih step.tree step.start (List.cons.inj h).2

/-! ## Each element once -/

theorem above_length_of_mem_ancestors {a : Site} (h : a ∈ e.ancestors) :
    a = e ∨ a.above.length < e.above.length := by
  obtain ⟨t, start, up⟩ := e
  induction up generalizing t start with
  | nil => exact .inl (List.mem_singleton.mp h)
  | cons step up ih =>
    rcases List.mem_cons.mp h with rfl | h
    · exact .inl rfl
    · refine .inr ?_
      rcases ih step.tree step.start h with rfl | hlt
      · exact Nat.lt_succ_self _
      · exact Nat.lt_succ_of_lt hlt

theorem eq_of_mem_ancestors {a b : Site} (ha : a ∈ e.ancestors) (hb : b ∈ e.ancestors)
    (h : a.above.length = b.above.length) : a = b := by
  obtain ⟨t, start, up⟩ := e
  induction up generalizing t start with
  | nil => rw [List.mem_singleton.mp ha, List.mem_singleton.mp hb]
  | cons step up ih =>
    have hlt : ∀ {d : Site}, d ∈ climb (step :: up) → d.above.length < (step :: up).length := by
      intro d hd
      rcases above_length_of_mem_ancestors (e := ⟨step.tree, step.start, up⟩) hd with rfl | hlt
      · exact Nat.lt_succ_self _
      · exact Nat.lt_succ_of_lt hlt
    rcases List.mem_cons.mp ha with rfl | ha
    · rcases List.mem_cons.mp hb with rfl | hb
      · rfl
      · exact absurd h (Nat.ne_of_gt (hlt hb))
    · rcases List.mem_cons.mp hb with rfl | hb
      · exact absurd h (Nat.ne_of_lt (hlt ha))
      · exact ih step.tree step.start ha hb

theorem eq_of_mem_ancestors_of_mem_ancestors {d : Site} (hc : c ∈ d.ancestors)
    (hd : d ∈ c.ancestors) : c = d := by
  rcases above_length_of_mem_ancestors hc with h | hlt
  · exact h
  · rcases above_length_of_mem_ancestors hd with h | hlt'
    · exact h.symm
    · omega

/-- The first element that passes a test, going up, is the one that all others that pass it are
around. -/
theorem find?_ancestors_eq_some_iff {p : Site → Bool} : e.ancestors.find? p = some c ↔
    c ∈ e.ancestors ∧ p c = true ∧ ∀ d ∈ e.ancestors, p d = true → d ∈ c.ancestors := by
  have hfirst : ∀ {c}, e.ancestors.find? p = some c →
      ∀ d ∈ e.ancestors, p d = true → d ∈ c.ancestors := by
    intro c hfind d hd hpd
    obtain ⟨_, before, after, hsplit, hbefore⟩ := List.find?_eq_some_iff_append.mp hfind
    rw [ancestors_of_ancestors_eq hsplit]
    rw [hsplit] at hd
    rcases List.mem_append.mp hd with h | h
    · have hnot := hbefore d h
      rw [hpd] at hnot
      cases hnot
    · exact h
  constructor
  · intro hfind
    exact ⟨List.mem_of_find?_eq_some hfind, List.find?_some hfind, hfirst hfind⟩
  · rintro ⟨hc, hpc, hall⟩
    have hsome : (e.ancestors.find? p).isSome = true := List.find?_isSome.mpr ⟨c, hc, hpc⟩
    obtain ⟨b, hb⟩ := Option.isSome_iff_exists.mp hsome
    have hcb := hfirst hb c hc hpc
    have hbc := hall b (List.mem_of_find?_eq_some hb) (List.find?_some hb)
    rw [hb, eq_of_mem_ancestors_of_mem_ancestors hcb hbc]

/-- On the way up every element is nearer to the root than the one before. -/
theorem nodup_ancestors (e : Site) : e.ancestors.Nodup := by
  obtain ⟨t, start, up⟩ := e
  induction up generalizing t start with
  | nil => exact List.nodup_singleton _
  | cons step up ih =>
    refine List.nodup_cons.mpr ⟨fun h => ?_, ih step.tree step.start⟩
    have hlt := above_length_of_mem_ancestors (e := ⟨step.tree, step.start, up⟩) h
    rcases hlt with h | h
    · have hlength := congrArg (fun s => s.above.length) h
      simp at hlength
    · simp only [List.length_cons] at h
      omega

/-- An element is below only one of the children of a node. -/
theorem eq_of_mem_children_descendants {d : Site} (hc : c ∈ s.children) (hd : d ∈ s.children)
    (hec : e ∈ c.descendants) (hed : e ∈ d.descendants) : c = d := by
  obtain ⟨i, hci⟩ := above_of_mem_children hc
  obtain ⟨j, hdj⟩ := above_of_mem_children hd
  refine eq_of_mem_ancestors (mem_ancestors_of_mem_descendants hec)
    (mem_ancestors_of_mem_descendants hed) ?_
  rw [hci, hdj]
  rfl

theorem above_length_of_mem_descendants (h : e ∈ s.descendants) :
    e = s ∨ s.above.length < e.above.length := by
  rcases above_length_of_mem_ancestors (mem_ancestors_of_mem_descendants h) with rfl | h
  · exact .inl rfl
  · exact .inr h

theorem not_mem_descendants_child (hc : c ∈ s.children) : s ∉ c.descendants := by
  intro h
  obtain ⟨i, habove⟩ := above_of_mem_children hc
  rcases above_length_of_mem_descendants h with rfl | hlt
  · have hlength := congrArg List.length habove
    simp at hlength
  · rw [habove, List.length_cons] at hlt
    omega

/-- An element is listed once: the steps down to it tell it from all others. -/
theorem nodup_descendants (s : Site) : s.descendants.Nodup := by
  induction s using children_induction with
  | h s ih =>
    rw [descendants_eq, List.nodup_cons, List.nodup_flatMap]
    refine ⟨fun h => ?_, ih, ?_⟩
    · obtain ⟨c, hc, hs⟩ := List.mem_flatMap.mp h
      exact not_mem_descendants_child hc hs
    · refine (nodup_children s).imp_of_mem fun hc hd hne => ?_
      exact fun e hec hed => hne (eq_of_mem_children_descendants hc hd hec hed)

theorem parent?_of_mem_child_descendants (hc : c ∈ s.children) (he : e ∈ c.descendants) :
    (e = c ∧ e.parent? = some s) ∨ ∃ q ∈ c.descendants, e.parent? = some q := by
  rcases exists_parent_of_mem_descendants he with rfl | ⟨q, hq, heq⟩
  · exact .inl ⟨rfl, parent?_of_mem_children hc⟩
  · exact .inr ⟨q, hq, parent?_of_mem_children heq⟩

/-- What is below a child and has the node itself as its parent is the child. -/
theorem filter_parent?_child (hc : c ∈ s.children) :
    c.descendants.filter (fun e => decide (e.parent? = some s)) = [c] := by
  rw [descendants_eq, List.filter_cons_of_pos (by simpa using parent?_of_mem_children hc)]
  refine congrArg (c :: ·) (List.filter_eq_nil_iff.mpr fun e he => ?_)
  obtain ⟨d, hd, he⟩ := List.mem_flatMap.mp he
  intro hs
  rcases parent?_of_mem_child_descendants hd he with ⟨_, h⟩ | ⟨q, hq, h⟩
  · rw [of_decide_eq_true hs] at h
    cases h
    exact not_mem_descendants_child hc s.self_mem_descendants
  · rw [of_decide_eq_true hs] at h
    cases h
    exact not_mem_descendants_child hc (mem_descendants_iff.mpr (.inr ⟨d, hd, hq⟩))

/-- The children of an element are what has it as its parent, in order. -/
theorem filter_parent?_descendants {q : Site} (hq : q ∈ s.descendants)
    (hs : s.parent? ≠ some q) :
    s.descendants.filter (fun e => decide (e.parent? = some q)) = q.children := by
  induction s using children_induction with
  | h s ih =>
    rw [descendants_eq, List.filter_cons_of_neg (by simpa using hs), List.filter_flatMap]
    rcases mem_descendants_iff.mp hq with rfl | ⟨c, hc, hqc⟩
    · have hone : ∀ c ∈ q.children,
          c.descendants.filter (fun e => decide (e.parent? = some q)) = [c] :=
        fun c hc => filter_parent?_child hc
      rw [List.flatMap_congr hone, List.flatMap_singleton']
    · have hne : s ≠ q := by
        rintro rfl
        exact not_mem_descendants_child hc hqc
      -- Nothing below the other children has this parent.
      have hnone : ∀ d ∈ s.children, d ≠ c →
          d.descendants.filter (fun e => decide (e.parent? = some q)) = [] := by
        intro d hd hdc
        refine List.filter_eq_nil_iff.mpr fun e he heq => ?_
        rcases parent?_of_mem_child_descendants hd he with ⟨_, h⟩ | ⟨q', hq', h⟩
        · rw [of_decide_eq_true heq] at h
          exact hne (Option.some.inj h).symm
        · rw [of_decide_eq_true heq] at h
          cases h
          exact hdc (eq_of_mem_children_descendants hd hc hq' hqc)
      obtain ⟨before, after, hsplit⟩ := List.append_of_mem hc
      have hnodup := nodup_children s
      rw [hsplit, List.nodup_middle, List.nodup_cons] at hnodup
      have hrest : ∀ d ∈ before ++ after,
          d.descendants.filter (fun e => decide (e.parent? = some q)) = [] := by
        intro d hd
        refine hnone d ?_ fun hdc => hnodup.1 (hdc ▸ hd)
        rw [hsplit]
        rcases List.mem_append.mp hd with h | h
        · exact List.mem_append_left _ h
        · exact List.mem_append_right _ (List.mem_cons_of_mem _ h)
      have hparent : c.parent? ≠ some q := by
        rw [parent?_of_mem_children hc]
        exact fun h => hne (Option.some.inj h)
      rw [hsplit, List.flatMap_append, List.flatMap_cons, ih c hc hqc hparent,
        List.flatMap_eq_nil_iff.mpr fun d hd => hrest d (List.mem_append_left _ hd),
        List.flatMap_eq_nil_iff.mpr fun d hd => hrest d (List.mem_append_right _ hd)]
      simp

/-- The elements of a tree that have a node as parent are the children of that node, in order. -/
theorem filter_parent?_root {t : Tree} {q : Site} (hq : q ∈ (root t).descendants) :
    (root t).descendants.filter (fun e => decide (e.parent? = some q)) = q.children :=
  filter_parent?_descendants hq nofun

/-! ## Ranges -/

/-- An element lies within the bytes of everything above it. -/
theorem span_of_mem_descendants (h : e ∈ s.descendants) :
    s.start ≤ e.start ∧ e.start + e.tree.size ≤ s.start + s.tree.size := by
  induction s using children_induction with
  | h s ih =>
    rcases mem_descendants_iff.mp h with rfl | ⟨c, hc, he⟩
    · exact ⟨Nat.le_refl _, Nat.le_refl _⟩
    · have hchild := span_of_mem_children hc
      have hbelow := ih c hc he
      omega

/-- Children lie side by side. -/
theorem disjoint_children {d : Site} (hc : c ∈ s.children) (hd : d ∈ s.children) (hne : c ≠ d) :
    c.start + c.tree.size ≤ d.start ∨ d.start + d.tree.size ≤ c.start := by
  let apart (c d : Site) : Prop :=
    c.start + c.tree.size ≤ d.start ∨ d.start + d.tree.size ≤ c.start
  have hsymm : Std.Symm apart := ⟨fun _ _ => Or.symm⟩
  have hpairwise : s.children.Pairwise apart := pairwise_row.imp .inl
  exact hpairwise.forall hc hd hne

theorem size_le_of_mem_descendants (h : e ∈ s.descendants) : e.tree.size ≤ s.tree.size := by
  have hspan := span_of_mem_descendants h
  omega

/-- A child is smaller than its node if something else in the node is not empty. -/
theorem size_lt_of_mem_children {d : Site} (hc : c ∈ s.children) (hd : d ∈ s.children)
    (hne : c ≠ d) (hpos : 0 < d.tree.size) : c.tree.size < s.tree.size := by
  have hchild := span_of_mem_children hc
  have hother := span_of_mem_children hd
  have hside := disjoint_children hc hd hne
  omega

theorem covers_iff {offset : Nat} :
    s.span.covers offset = true ↔ s.start ≤ offset ∧ offset < s.start + s.tree.size := by
  rw [Span.covers, Bool.and_eq_true, decide_eq_true_eq, decide_eq_true_eq]
  rfl

theorem covers_of_mem_descendants {offset : Nat} (h : e ∈ s.descendants)
    (he : e.span.covers offset = true) : s.span.covers offset = true := by
  rw [covers_iff] at he ⊢
  have hspan := span_of_mem_descendants h
  omega

/-- Of two elements over one byte, one is below the other. -/
theorem below_or_below {d : Site} {offset : Nat} (hd : d ∈ s.descendants) (he : e ∈ s.descendants)
    (hdo : d.span.covers offset = true) (heo : e.span.covers offset = true) :
    d ∈ e.descendants ∨ e ∈ d.descendants := by
  induction s using children_induction with
  | h s ih =>
    rcases mem_descendants_iff.mp hd with rfl | ⟨c, hc, hdc⟩
    · exact .inr he
    · rcases mem_descendants_iff.mp he with rfl | ⟨c', hc', hec⟩
      · exact .inl hd
      · by_cases hcc : c = c'
        · exact ih c hc hdc (hcc ▸ hec)
        · have hcover := covers_iff.mp (covers_of_mem_descendants hdc hdo)
          have hcover' := covers_iff.mp (covers_of_mem_descendants hec heo)
          have hapart := disjoint_children hc hc' hcc
          omega

/-! ## The token over a byte -/

theorem forestLeafAt?_eq (offset : Nat) (step : Step) (above : List Step) (start : Nat)
    (ts : List Tree) :
    Tree.forestLeafAt? offset step above start ts =
      ((row above step start ts).find? (·.span.covers offset)).bind
        fun c => c.tree.leafAt? offset c.above c.start := by
  induction ts generalizing step start with
  | nil => simp [Tree.forestLeafAt?, row]
  | cons t ts ih =>
    simp only [Tree.forestLeafAt?, row, List.find?_cons, span]
    split
    · next h => simp [h]
    · next h => simp [h, ih, span]

/-- To find the token over a byte, go down to the child over the byte. -/
theorem leafAt?_eq (offset : Nat) (h : s.isToken = false) :
    s.tree.leafAt? offset s.above s.start =
      (s.children.find? (·.span.covers offset)).bind
        fun c => c.tree.leafAt? offset c.above c.start := by
  obtain ⟨t, start, above⟩ := s
  cases t with
  | leaf t => cases h
  | node k cs => simp only [Tree.leafAt?, forestLeafAt?_eq, children, Tree.children]

/-- Going down ends at a token, since the children of a node leave no gaps. -/
theorem exists_leafAt? {offset : Nat} (h : s.span.covers offset = true) :
    ∃ l ∈ s.descendants, l.isToken = true ∧ l.span.covers offset = true ∧
      s.tree.leafAt? offset s.above s.start = some l := by
  induction s using children_induction with
  | h s ih =>
    cases hs : s.isToken with
    | true =>
      refine ⟨s, s.self_mem_descendants, hs, h, ?_⟩
      obtain ⟨t, start, above⟩ := s
      cases t with
      | leaf t => simp only [Tree.leafAt?]
      | node k cs => cases hs
    | false =>
      have hoffset := covers_iff.mp h
      rw [size_children s hs] at hoffset
      obtain ⟨c, hc, hcovers⟩ : ∃ c ∈ s.children, c.span.covers offset = true :=
        exists_mem_row_covers hoffset.1 hoffset.2
      have hsome : (s.children.find? (·.span.covers offset)).isSome = true :=
        List.find?_isSome.mpr ⟨c, hc, hcovers⟩
      obtain ⟨d, hd⟩ := Option.isSome_iff_exists.mp hsome
      have hmem : d ∈ s.children := List.mem_of_find?_eq_some hd
      have hcovers : d.span.covers offset = true := by simpa using List.find?_some hd
      obtain ⟨l, hl, htoken, hlo, hfound⟩ := ih d hmem hcovers
      refine ⟨l, mem_descendants_iff.mpr (.inr ⟨d, hmem, hl⟩), htoken, hlo, ?_⟩
      rw [leafAt?_eq offset hs, hd]
      exact hfound

/-- The token over a byte is the only one there. -/
theorem leafAt?_eq_some_iff {offset : Nat} {l : Site} :
    s.leafAt? offset = some l ↔
      l ∈ s.descendants ∧ l.isToken = true ∧ l.span.covers offset = true := by
  constructor
  · intro h
    unfold leafAt? at h
    split at h
    · next hcovers =>
      obtain ⟨l', hl', htoken, hlo, hfound⟩ := exists_leafAt? hcovers
      rw [hfound] at h
      cases h
      exact ⟨hl', htoken, hlo⟩
    · cases h
  · rintro ⟨hl, htoken, hlo⟩
    have hcovers := covers_of_mem_descendants hl hlo
    obtain ⟨l', hl', htoken', hlo', hfound⟩ := exists_leafAt? hcovers
    rw [leafAt?, if_pos hcovers, hfound]
    rcases below_or_below hl hl' hlo hlo' with h | h
    · rw [descendants_of_isToken htoken'] at h
      rw [List.mem_singleton.mp h]
    · rw [descendants_of_isToken htoken] at h
      rw [List.mem_singleton.mp h]

/-! ## The smallest element around a range -/

theorem within_iff {r : Span} :
    r.within s.span = true ↔ s.start ≤ r.start ∧ r.stop ≤ s.start + s.tree.size := by
  rw [Span.within, Bool.and_eq_true, decide_eq_true_eq, decide_eq_true_eq]
  rfl

theorem forestCovering?_eq {r : Span} (hr : r.start < r.stop) (step : Step) (above : List Step)
    (start : Nat) (ts : List Tree) :
    Tree.forestCovering? r step above start ts =
      ((row above step start ts).find? fun c => r.within c.span).map (covering r) := by
  have hempty : r.isEmpty = false := by simpa [Span.isEmpty] using Nat.ne_of_lt hr
  have hstarts : ∀ ts, Tree.startsEmptyAt r ts = false := by
    intro ts
    cases ts <;> simp [Tree.startsEmptyAt, hempty]
  induction ts generalizing step start with
  | nil => simp [Tree.forestCovering?, row]
  | cons t ts ih =>
    simp only [Tree.forestCovering?, row, List.find?_cons, hstarts, Bool.and_false, Bool.not_false,
      Bool.and_true, span]
    split
    · next h => simp [h, covering]
    · next h => simp [h, ih, span]

/-- To find the smallest element around a range, go down as long as a child is around it. -/
theorem covering_eq {r : Span} (hr : r.start < r.stop) (s : Site) :
    s.covering r = ((s.children.find? fun c => r.within c.span).map (covering r)).getD s := by
  obtain ⟨t, start, above⟩ := s
  cases t with
  | leaf t => simp [covering, Tree.covering, children, Tree.children, row]
  | node k cs => simp only [covering, Tree.covering, forestCovering?_eq hr, children, Tree.children]

theorem forestCovering?_mem {r : Span} {step : Step} {above : List Step} {start : Nat}
    {ts : List Tree} (h : Tree.forestCovering? r step above start ts = some e) :
    ∃ c ∈ row above step start ts, e = c.covering r := by
  induction ts generalizing step start with
  | nil => simp [Tree.forestCovering?] at h
  | cons t ts ih =>
    rw [Tree.forestCovering?] at h
    split at h
    · exact ⟨_, List.mem_cons_self, (Option.some.inj h).symm⟩
    · obtain ⟨c, hc, rfl⟩ := ih h
      exact ⟨c, List.mem_cons_of_mem _ hc, rfl⟩

/-- What is found around a range, also around an empty one or one that is not inside, lies below. -/
theorem covering_mem (r : Span) (s : Site) : s.covering r ∈ s.descendants := by
  induction s using children_induction with
  | h s ih =>
    obtain ⟨t, start, above⟩ := s
    cases t with
    | leaf u =>
      rw [covering, Tree.covering]
      exact self_mem_descendants _
    | node k cs =>
      rw [covering, Tree.covering]
      cases hfound : Tree.forestCovering? r (.first (.node k cs) start) above start cs with
      | none => exact self_mem_descendants _
      | some e =>
        obtain ⟨c, hc, rfl⟩ := forestCovering?_mem hfound
        exact mem_descendants_iff.mpr (.inr ⟨c, hc, ih c hc⟩)

/-- What is found around a range lies below, has the range, and has no child with it. -/
theorem covering_spec {r : Span} (hr : r.start < r.stop) (h : r.within s.span = true) :
    s.covering r ∈ s.descendants ∧ r.within (s.covering r).span = true ∧
      ∀ c ∈ (s.covering r).children, r.within c.span = false := by
  induction s using children_induction with
  | h s ih =>
    rw [covering_eq hr]
    cases hfind : s.children.find? fun c => r.within c.span with
    | none =>
      have hnone := List.find?_eq_none.mp hfind
      exact ⟨s.self_mem_descendants, h, fun c hc => by simpa using hnone c hc⟩
    | some c =>
      have hc : c ∈ s.children := List.mem_of_find?_eq_some hfind
      have hwithin : r.within c.span = true := by simpa using List.find?_some hfind
      obtain ⟨hmem, hwithin, hchildren⟩ := ih c hc hwithin
      exact ⟨mem_descendants_iff.mpr (.inr ⟨c, hc, hmem⟩), hwithin, hchildren⟩

theorem within_of_mem_descendants {r : Span} (h : e ∈ s.descendants)
    (he : r.within e.span = true) : r.within s.span = true := by
  rw [within_iff] at he ⊢
  have hspan := span_of_mem_descendants h
  omega

/-- Everything around a range is around the smallest element that has it. -/
theorem covering_mem_descendants {r : Span} (hr : r.start < r.stop) (he : e ∈ s.descendants)
    (h : r.within e.span = true) : s.covering r ∈ e.descendants := by
  obtain ⟨hmem, hwithin, hchildren⟩ := covering_spec hr (within_of_mem_descendants he h)
  have hcovers : ∀ {d : Site}, r.within d.span = true → d.span.covers r.start = true := by
    intro d hd
    rw [within_iff] at hd
    rw [covers_iff]
    omega
  rcases below_or_below hmem he (hcovers hwithin) (hcovers h) with hbelow | hbelow
  · exact hbelow
  · rcases mem_descendants_iff.mp hbelow with heq | ⟨c, hc, hec⟩
    · rw [heq]
      exact self_mem_descendants _
    · have hnot := hchildren c hc
      rw [within_of_mem_descendants hec h] at hnot
      cases hnot

end Site

end ClassNav
