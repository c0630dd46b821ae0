import ClassNav.Proofs.Files.Paths
import ClassNav.Proofs.Navigation.Landing

/-!
# What other files cannot change

Edits of other files may add candidates to a reference and take some away, but only behind those
that are declared in its own file. So what a caret designates stays the same, as long as its
identifier does not stand in a reference that denotes nothing in its own file
(`Host.answersAt_of_elsewhere`).
-/

namespace ClassNav

/-! ## Elements of the tree around an element -/

namespace Site

variable {t : Tree} {e n : Site}

theorem mem_children_of_parent? (he : e ∈ (root t).descendants) (h : e.parent? = some n) :
    n ∈ (root t).descendants ∧ e ∈ n.children := by
  rcases exists_parent_of_mem_descendants he with rfl | ⟨q, hq, heq⟩
  · cases h
  · rw [parent?_of_mem_children heq] at h
    obtain rfl := Option.some.inj h
    exact ⟨hq, heq⟩

theorem mem_root_of_declaredName? (he : e ∈ (root t).descendants) (h : e.declaredName? = some n) :
    n ∈ (root t).descendants := by
  unfold declaredName? at h
  split at h
  · exact mem_descendants_trans (mem_descendants_of_mem_children (List.mem_of_find?_eq_some h)) he
  · cases h

theorem mem_of_firstWanted? {wanted stop : RoleSet} {es : List Site}
    (h : firstWanted? wanted stop es = some n) : n ∈ es := by
  induction es with
  | nil => cases h
  | cons e es ih =>
    unfold firstWanted? at h
    split at h
    · rw [Option.some.inj h]
      exact List.mem_cons_self
    · split at h
      · cases h
      · exact List.mem_cons_of_mem _ (ih h)

theorem mem_root_of_enclosingClass? (he : e ∈ (root t).descendants) {allowAnonymous : Bool}
    (h : e.enclosingClass? allowAnonymous = some n) : n ∈ (root t).descendants :=
  (mem_descendants_of_mem_ancestors he (mem_of_firstWanted? h)).2

end Site

/-! ## Meanings in the file of a reference -/

/-- What a reference with the name `x` denotes in its own file, whose tree is `t`. -/
def Site.ownMeanings (ref : Site) (t : Tree) (x : String) : List Site :=
  (ref.ancestors.flatMap fun scope => (root t).descendants.filter fun d =>
    d.hasName x && scope.declares d) ++
  (root t).descendants.filter fun d =>
    d.hasName x && d.isNode .classDecl && decide (d.parent? = some (root t))

namespace Store

variable {s s' : Store} {file : FileId} {doc : Document} {ref : Site} {x : String}

/-- The top-level classes of a file are those in its document. -/
theorem filter_classesNamed (hdoc : s.document? file = some doc) :
    (s.classesNamed x).filter (·.1 = file) = ((Site.root doc.tree).descendants.filter fun d =>
      d.hasName x && d.isNode .classDecl &&
        decide (d.parent? = some (Site.root doc.tree))).map (file, ·) := by
  have hentries : s.documents.entries.filter (·.1 = file) = [(file, doc)] := by
    rw [FileMap.filter_entries_eq]
    show ((s.document? file).map (file, ·)).toList = _
    rw [hdoc]
    rfl
  have hfile : ∀ e : FileId × Document, ∀ m ∈ ((Site.root e.2.tree).descendants.filter fun d =>
      d.hasName x && d.isNode .classDecl &&
        decide (d.parent? = some (Site.root e.2.tree))).map (e.1, ·), m.1 = e.1 := by
    intro e m hm
    obtain ⟨d, _, rfl⟩ := List.mem_map.mp hm
    rfl
  rw [classesNamed, FileMap.filter_flatMap (fun g => decide (g = file)) hfile, hentries,
    List.flatMap_singleton]

/-- What a reference denotes in its own file comes before what it denotes in others. -/
theorem meanings_eq_own_append (hdoc : s.document? file = some doc) :
    s.meanings file doc.tree ref x = (ref.ownMeanings doc.tree x).map (file, ·) ++
      (s.classesNamed x).filter (·.1 ≠ file) := by
  rw [meanings, filter_classesNamed hdoc, Site.ownMeanings, List.map_append, List.map_flatMap,
    List.append_assoc]

/-- If a reference denotes anything in its own file, then what it denotes first is there, whatever
else is stored. -/
theorem head?_meanings (hdoc : s.document? file = some doc) (hdoc' : s'.document? file = some doc)
    (h : ∃ m ∈ s.meanings file doc.tree ref x, m.1 = file) :
    ∃ d, (s.meanings file doc.tree ref x).head? = some (file, d) ∧
      (s'.meanings file doc.tree ref x).head? = some (file, d) := by
  obtain ⟨m, hm, hfile⟩ := h
  rw [meanings_eq_own_append hdoc] at hm ⊢
  rw [meanings_eq_own_append hdoc']
  cases hown : ref.ownMeanings doc.tree x with
  | nil =>
    -- Then everything that is denoted is in other files.
    rw [hown] at hm
    exact absurd hfile (of_decide_eq_true (List.mem_filter.mp hm).2)
  | cons d ds => exact ⟨d, rfl, rfl⟩

end Store

/-! ## Queries that see the same tree -/

namespace Project

variable {p p' : Project Id} {pos : FilePosition}

/-- The element that a reference denotes first. -/
def first? (p : Project Id) (file : FileId) (ref : Site) : Option Site :=
  List.findSome? p.resolve? (p.candidates file ref)

theorem leafAt?_congr (hroot : p.root? pos.file = p'.root? pos.file) :
    p.leafAt? pos = p'.leafAt? pos := by
  rw [leafAt?, leafAt?, hroot]

theorem identAt?_congr (hroot : p.root? pos.file = p'.root? pos.file) :
    p.identAt? pos = p'.identAt? pos := by
  have hbefore : p.identBefore? pos = p'.identBefore? pos := by
    unfold identBefore?
    split
    · rfl
    · next before _ =>
      have hleaf : p.leafAt? ⟨pos.file, before⟩ = p'.leafAt? ⟨pos.file, before⟩ :=
        leafAt?_congr hroot
      rw [hleaf]
  rw [identAt?, identAt?, leafAt?_congr hroot, hbefore]

/-- What a caret designates is known from the tree of its file and, on a reference, from what that
denotes first. -/
theorem target?_congr (hroot : p.root? pos.file = p'.root? pos.file)
    (hfirst : ∀ i ref, p.identAt? pos = some i → i.parent? = some ref → ref.kind = .reference →
      p.first? pos.file ref = p'.first? pos.file ref) (flags : TargetFlags) :
    p.target? pos flags = p'.target? pos flags := by
  unfold target?
  rw [← identAt?_congr hroot]
  cases hident : p.identAt? pos with
  | none => rfl
  | some i =>
    rw [Option.bind_some]
    cases hparent : i.parent? with
    | none => rfl
    | some around =>
      simp only
      split
      · rfl
      · next hkind =>
        split
        · exact hfirst i around hident hparent hkind
        · rfl
      · rfl

/-- A designated declaration stands around the name at the caret, or is what the reference there
denotes first. -/
theorem target?_cases {flags : TargetFlags} {n : Site} (h : p.target? pos flags = some n) :
    ∃ i around, p.identAt? pos = some i ∧ i.parent? = some around ∧
      (around.kind = .name ∧ around.parent? = some n ∨
        around.kind = .reference ∧ p.first? pos.file around = some n) := by
  unfold target? at h
  split at h
  · cases h
  · next around haround =>
    obtain ⟨i, hident, hparent⟩ := Option.bind_eq_some_iff.mp haround
    refine ⟨i, around, hident, hparent, ?_⟩
    split at h
    · next hkind =>
      split at h
      · exact .inl ⟨hkind, h⟩
      · cases h
    · next hkind =>
      split at h
      · exact .inr ⟨hkind, h⟩
      · cases h
    · cases h

end Project

/-! ## Answers at a caret -/

/-- What navigation answers at a caret: the designated declaration in each meaning, its name, its
method, and the class there with and without anonymous ones. -/
structure CaretAnswers where
  target : TargetFlags → Option Site
  referenced : Option Site
  method : Option Site
  classAt : Bool → Option Site

/-- Whether all answers are elements of a tree. -/
structure CaretAnswers.Within (a : CaretAnswers) (t : Tree) : Prop where
  target : ∀ flags, ∀ n ∈ a.target flags, n ∈ (Site.root t).descendants
  referenced : ∀ n ∈ a.referenced, n ∈ (Site.root t).descendants
  method : ∀ n ∈ a.method, n ∈ (Site.root t).descendants
  classAt : ∀ allowAnonymous, ∀ n ∈ a.classAt allowAnonymous, n ∈ (Site.root t).descendants

namespace Host

/-- The answers at a caret, with an element chosen elsewhere. -/
def answersAt (h : Host) (pos : FilePosition) (selection : Option (FileId × Site)) :
    CaretAnswers where
  target flags := h.project.target? pos flags
  referenced := (h.contextAt pos selection).referenced?
  method := (h.contextAt pos selection).method?
  classAt allowAnonymous := (h.contextAt pos selection).class? allowAnonymous

variable {h h' : Host} {pos : FilePosition} {selection : Option (FileId × Site)}

/-- The class of a caret needs the tree of its file, and what the caret designates. -/
theorem class?_contextAt {allowAnonymous : Bool} {doc : Document}
    (hroot : h.project.root? pos.file = some (Site.root doc.tree)) :
    (h.contextAt pos selection).class? allowAnonymous =
      (Option.bind (Option.or (h.project.target? pos .all) (h.project.leafAt? pos))
        Site.asClass?).or
      ((h.project.leafAt? pos).bind (·.enclosingClass? allowAnonymous)) := by
  have hleaf := Project.leafAt?_of_root? hroot
  show Context.classAt? h.project pos allowAnonymous = _
  rw [Context.classAt?, hroot, hleaf]
  show (Option.bind (Option.or (h.project.target? pos .all) (h.project.leafAt? pos)) _).or _ = _
  rw [hleaf]

/-- All answers follow from what the caret designates and the tree of its file. -/
theorem answersAt_congr {doc : Document}
    (hroot : h.project.root? pos.file = some (Site.root doc.tree))
    (hroot' : h'.project.root? pos.file = some (Site.root doc.tree))
    (htarget : ∀ flags, h.project.target? pos flags = h'.project.target? pos flags) :
    h.answersAt pos selection = h'.answersAt pos selection := by
  have hreferenced : (h.contextAt pos selection).referenced? =
      (h'.contextAt pos selection).referenced? := by
    rw [referenced?_contextAt, referenced?_contextAt, htarget]
  have hmethod : (h.contextAt pos selection).method? = (h'.contextAt pos selection).method? := by
    rw [Context.method?, Context.method?, hreferenced]
  have hclass : (h.contextAt pos selection).class? = (h'.contextAt pos selection).class? := by
    funext allowAnonymous
    rw [class?_contextAt hroot, class?_contextAt hroot', htarget,
      Project.leafAt?_congr (hroot.trans hroot'.symm)]
  rw [answersAt, answersAt, hreferenced, hmethod, hclass, funext htarget]

/-- If what the caret designates is in the tree of its file, so are all answers. -/
theorem within_answersAt {doc : Document}
    (hroot : h.project.root? pos.file = some (Site.root doc.tree))
    (htarget : ∀ flags n, h.project.target? pos flags = some n →
      n ∈ (Site.root doc.tree).descendants) :
    (h.answersAt pos selection).Within doc.tree := by
  have hleaf : ∀ n, h.project.leafAt? pos = some n → n ∈ (Site.root doc.tree).descendants := by
    intro n hn
    rw [Project.leafAt?, hroot] at hn
    exact (Site.leafAt?_eq_some_iff.mp hn).1
  have hreferenced : ∀ n, (h.contextAt pos selection).referenced? = some n →
      n ∈ (Site.root doc.tree).descendants := by
    intro n hn
    rw [referenced?_contextAt] at hn
    obtain ⟨d, hd, rfl⟩ := Option.map_eq_some_iff.mp hn
    cases hname : d.declaredName? with
    | none => exact htarget _ d hd
    | some name => exact Site.mem_root_of_declaredName? (htarget _ d hd) hname
  refine ⟨htarget, hreferenced, ?_, ?_⟩
  · intro n hn
    obtain ⟨hparent, _⟩ := Option.filter_eq_some_iff.mp hn
    obtain ⟨name, hname, hparent⟩ := Option.bind_eq_some_iff.mp hparent
    exact (Site.mem_children_of_parent? (hreferenced name hname) hparent).1
  · intro allowAnonymous n hn
    replace hn : (h.contextAt pos selection).class? allowAnonymous = some n := hn
    rw [class?_contextAt hroot] at hn
    rcases Option.or_eq_some_iff.mp hn with hdesignated | ⟨_, haround⟩
    -- The class is what was designated, or the token itself.
    · obtain ⟨d, hd, hclass⟩ := Option.bind_eq_some_iff.mp hdesignated
      unfold Site.asClass? at hclass
      split at hclass
      · rw [← Option.some.inj hclass]
        rcases Option.or_eq_some_iff.mp hd with hd | ⟨_, hd⟩
        · exact htarget _ d hd
        · exact hleaf d hd
      · cases hclass
    · obtain ⟨leaf, hd, hclass⟩ := Option.bind_eq_some_iff.mp haround
      exact Site.mem_root_of_enclosingClass? (hleaf leaf hd) hclass

/-! ## Edits of other files -/

variable {es es' : List Edit} {doc : Document} {ref : Site}

/-- The element that a reference denotes first is the first of its meanings. -/
theorem first?_eq_head?_meanings {file : FileId}
    (hdoc : (snapshot es).store.document? file = some doc)
    (href : ref ∈ (Site.root doc.tree).descendants) (hk : ref.isNode .reference = true) :
    (snapshot es).project.first? file ref =
      ((snapshot es).store.meanings file doc.tree ref ref.text).head?.map (·.2) := by
  rw [Project.first?, candidates_eq hdoc href hk]
  cases hmeanings : (snapshot es).store.meanings file doc.tree ref ref.text with
  | nil => rfl
  | cons m ms =>
    have hm : m ∈ (snapshot es).store.meanings file doc.tree ref ref.text := by
      rw [hmeanings]
      exact List.mem_cons_self
    rw [List.map_cons, List.findSome?_cons, resolve?_meaning hdoc hm]
    rfl

/-- A reference with a candidate in its own file denotes the same element of that file first,
whatever other files there are. -/
theorem exists_first?_of_own {file : FileId}
    (hdoc : (snapshot es).store.document? file = some doc)
    (hdoc' : (snapshot es').store.document? file = some doc)
    (href : ref ∈ (Site.root doc.tree).descendants) (hk : ref.isNode .reference = true)
    (hown : ∃ c ∈ (snapshot es).index.candidates file ref, c.file = file) :
    ∃ d ∈ (Site.root doc.tree).descendants, (snapshot es).project.first? file ref = some d ∧
      (snapshot es').project.first? file ref = some d := by
  have hcandidates : (snapshot es).index.candidates file ref =
      ((snapshot es).store.meanings file doc.tree ref ref.text).map meaningPtr :=
    candidates_eq hdoc href hk
  obtain ⟨c, hc, hfile⟩ := hown
  rw [hcandidates] at hc
  obtain ⟨m, hm, rfl⟩ := List.mem_map.mp hc
  obtain ⟨d, hhead, hhead'⟩ := Store.head?_meanings hdoc hdoc' ⟨m, hm, hfile⟩
  obtain ⟨doc₀, hdoc₀, hd, _⟩ :=
    Store.declaration_of_mem_meanings hdoc (List.mem_of_mem_head? hhead)
  obtain rfl : doc = doc₀ := Option.some.inj (hdoc.symm.trans hdoc₀)
  refine ⟨d, hd, ?_, ?_⟩
  · rw [first?_eq_head?_meanings hdoc href hk, hhead]
    rfl
  · rw [first?_eq_head?_meanings hdoc' href hk, hhead']
    rfl

/-- Whether a caret needs no other file: the identifier that it designates does not stand in a
reference, or that reference has a candidate in the file of the caret. -/
def DecidedLocally (h : Host) (pos : FilePosition) : Prop :=
  ∀ i ref, h.Designates pos i → i.parent? = some ref → ref.isNode .reference = true →
    ∃ c ∈ h.index.candidates pos.file ref, c.file = pos.file

/-- Edits of other files, however many, leave the document of a caret as it is, and if the caret
needs no other file, then also every answer there. All these answers are elements of that
document. -/
theorem answersAt_of_elsewhere (selection : Option (FileId × Site))
    (hdoc : (snapshot es).store.document? pos.file = some doc)
    (hes' : ∀ e ∈ es', e.Elsewhere (snapshot es).store pos.file)
    (hlocal : (snapshot es).DecidedLocally pos) :
    (snapshot (es ++ es')).store.document? pos.file = some doc ∧
      (snapshot (es ++ es')).answersAt pos selection = (snapshot es).answersAt pos selection ∧
      ((snapshot es).answersAt pos selection).Within doc.tree := by
  have hh := consistent_snapshot es
  have hdoc' : (snapshot (es ++ es')).store.document? pos.file = some doc := by
    unfold snapshot at hdoc hes' ⊢
    rw [store_refresh] at hdoc hes' ⊢
    exact document?_run_append hdoc hes'
  have hroot := hh.root?_eq hdoc
  have hroot' := (consistent_snapshot (es ++ es')).root?_eq hdoc'
  -- What the designated identifier stands in is part of the document.
  have haround : ∀ i around, (snapshot es).project.identAt? pos = some i →
      i.parent? = some around →
      around ∈ (Site.root doc.tree).descendants ∧ around.isToken = false := by
    intro i around hident hparent
    obtain ⟨doc₀, hdoc₀, hi, _⟩ := hh.identAt?_eq_some_iff.mp hident
    obtain rfl : doc = doc₀ := Option.some.inj (hdoc.symm.trans hdoc₀)
    obtain ⟨hmem, hin⟩ := Site.mem_children_of_parent? hi hparent
    exact ⟨hmem, Site.isToken_of_mem_children hin⟩
  have hfirst : ∀ i ref, (snapshot es).project.identAt? pos = some i → i.parent? = some ref →
      ref.kind = .reference → ∃ d ∈ (Site.root doc.tree).descendants,
        (snapshot es).project.first? pos.file ref = some d ∧
        (snapshot (es ++ es')).project.first? pos.file ref = some d := by
    intro i ref hident hparent hkind
    obtain ⟨href, hnode⟩ := haround i ref hident hparent
    have hk := Site.isNode_iff.mpr ⟨hnode, hkind⟩
    exact exists_first?_of_own hdoc hdoc' href hk
      (hlocal i ref (hh.identAt?_eq_some_iff.mp hident) hparent hk)
  refine ⟨hdoc', (answersAt_congr hroot hroot' ?_).symm, within_answersAt hroot ?_⟩
  · refine Project.target?_congr (hroot.trans hroot'.symm) fun i ref hident hparent hkind => ?_
    obtain ⟨d, _, hd, hd'⟩ := hfirst i ref hident hparent hkind
    rw [hd, hd']
  · intro flags n hn
    obtain ⟨i, around, hident, hparent, ⟨_, hup⟩ | ⟨hkind, hsome⟩⟩ := Project.target?_cases hn
    · exact (Site.mem_children_of_parent? (haround i around hident hparent).1 hup).1
    · obtain ⟨d, hmem, hd, _⟩ := hfirst i around hident hparent hkind
      rw [← Option.some.inj (hd.symm.trans hsome)]
      exact hmem

theorem answersAt_of_other_classes :
    let here : List Edit := [.setText ⟨"A.hx"⟩ "class A extends A {}"]
    let elsewhere : List Edit := [.setText ⟨"B.hx"⟩ "class A {}", .remove ⟨"C.hx"⟩]
    let caret : FilePosition := ⟨⟨0⟩, 16⟩
    (∀ e ∈ elsewhere, e.Elsewhere (snapshot here).store caret.file) ∧
      (snapshot here).DecidedLocally caret ∧
      (((snapshot (here ++ elsewhere)).answersAt caret none).target .all).map Site.span =
        some ⟨0, 20⟩ ∧
      ((snapshot here).answersAt caret none).target .all =
        ((snapshot (here ++ elsewhere)).answersAt caret none).target .all := by
  intro here elsewhere caret
  have hpath : (snapshot here).store.path? caret.file = some ⟨"A.hx"⟩ := by decide +kernel
  have helsewhere : ∀ e ∈ elsewhere, e.Elsewhere (snapshot here).store caret.file := by
    intro e he p q hp hq
    obtain rfl := Option.some.inj (hpath.symm.trans hp)
    rcases List.mem_pair.mp he with rfl | rfl
    · obtain rfl := Option.some.inj hq
      decide +kernel
    · obtain rfl := Option.some.inj hq
      decide +kernel
  have hown : ((((snapshot here).project.identAt? caret).bind Site.parent?).all fun ref =>
      ((snapshot here).index.candidates caret.file ref).any (·.file == caret.file)) = true := by
    decide +kernel
  have hlocal : (snapshot here).DecidedLocally caret := by
    intro i ref hi hparent _
    rw [(consistent_snapshot here).identAt?_eq_some_iff.mpr hi, Option.bind_some, hparent] at hown
    obtain ⟨c, hc, hfile⟩ := List.any_eq_true.mp hown
    exact ⟨c, hc, eq_of_beq hfile⟩
  have hdoc : (snapshot here).store.document? caret.file =
      some (.ofParsed "class A extends A {}" (parse "class A extends A {}")) := rfl
  have hsame := (answersAt_of_elsewhere none hdoc helsewhere hlocal).2.1
  refine ⟨helsewhere, hlocal, ?_, by rw [hsame]⟩
  rw [hsame]
  decide +kernel

end Host

end ClassNav
