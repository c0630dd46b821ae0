import ClassNav.Proofs.Navigation.Locality

/-!
# The class around a caret

The class around a caret is found by going up from the token under the caret. `Tree.InnermostAt`
says the same by ranges alone: of the classes over a byte, the smallest one. Since classes have
tokens of their own, of two classes over one byte one is smaller than the other and lies in it
(`Tree.Parsed.leafAt?_bind_enclosingClass?`).

* Every anonymous class lies in a named one, also in the tree of a damaged text
  (`Tree.Parsed.exists_classDecl`).
* What a caret designates has a name, so it is never an anonymous class
  (`Host.isNamed_of_target?`).

Hence both ways to ask for the class at a caret find something at the same carets, and where they
differ, one has found an anonymous class inside of what the other has found
(`Host.class?_innermost`).
-/

namespace ClassNav

namespace Site

variable {t : Tree} {s e c d l : Site} {offset : Nat}

/-! ## What lies over a byte -/

/-- What lies over a byte is what is around the token there. -/
theorem mem_ancestors_iff_covers (hl : (root t).leafAt? offset = some l) :
    d ∈ l.ancestors ↔ d ∈ (root t).descendants ∧ d.span.covers offset = true := by
  obtain ⟨hmem, htoken, hcovers⟩ := leafAt?_eq_some_iff.mp hl
  rw [mem_ancestors_iff hmem]
  constructor
  · rintro ⟨hbelow, hd⟩
    exact ⟨hd, covers_of_mem_descendants hbelow hcovers⟩
  · rintro ⟨hd, hdcovers⟩
    refine ⟨?_, hd⟩
    rcases below_or_below hmem hd hcovers hdcovers with hbelow | hbelow
    · exact hbelow
    · rw [descendants_of_isToken htoken, List.mem_singleton] at hbelow
      rw [hbelow]
      exact self_mem_descendants l

theorem exists_leafAt?_of_covers (hc : c ∈ (root t).descendants)
    (hcovers : c.span.covers offset = true) : ∃ l, (root t).leafAt? offset = some l := by
  obtain ⟨l, hl, htoken, hlcovers, _⟩ := exists_leafAt? (covers_of_mem_descendants hc hcovers)
  exact ⟨l, leafAt?_eq_some_iff.mpr ⟨hl, htoken, hlcovers⟩⟩

/-! ## Classes around an element -/

/-- Whether an element is a class, where anonymous ones count or not. -/
def isClass (allowAnonymous : Bool) (s : Site) : Bool :=
  if allowAnonymous then s.isClassLike else s.isNode .classDecl

/-- A role that only the nodes of one kind have tells these from all other elements. -/
theorem contains_single_role {r : Role} {k : Kind} (hleaf : r ≠ .leaf)
    (hkind : ∀ k', r = .ofKind k' ↔ k' = k) (s : Site) :
    (RoleSet.single r).contains s.role = s.isNode k := by
  rw [RoleSet.contains_single, Bool.eq_iff_iff, decide_eq_true_eq, isNode_iff, role]
  cases s.isToken with
  | false => simpa using hkind s.kind
  | true => simpa using hleaf

theorem contains_file_role (s : Site) :
    (RoleSet.single .file).contains s.role = s.isNode .sourceFile := by
  refine contains_single_role ?_ ?_ s
  · decide
  · intro k
    cases k <;> decide

/-- The roles that the walk outwards looks for are those of the classes that count. -/
theorem contains_role_eq_isClass (allowAnonymous : Bool) (s : Site) :
    (if allowAnonymous then RoleSet.classLike else .single .classDecl).contains s.role =
      s.isClass allowAnonymous := by
  cases allowAnonymous with
  | false =>
    show (RoleSet.single .classDecl).contains s.role = s.isNode .classDecl
    refine contains_single_role ?_ ?_ s
    · decide
    · intro k
      cases k <;> decide
  | true =>
    show RoleSet.classLike.contains s.role = s.isClassLike
    rw [RoleSet.contains_classLike, role, isClassLike]
    cases s.isToken with
    | false => exact Kind.isClassLike_ofKind s.kind
    | true => rfl

/-- No file stands in another node. -/
theorem isNode_sourceFile_of_mem_children (hs : s.tree.WellFormed) (hc : c ∈ s.children) :
    c.isNode .sourceFile = false := by
  have havoids : ∀ k : Kind, k.shape.avoids .sourceFile = true := by
    intro k
    cases k <;> rfl
  refine Bool.eq_false_iff.mpr fun hfile => ?_
  obtain ⟨hnode, hkind⟩ := isNode_iff.mp hfile
  have hallows := shape_allows hs hc hnode
  rw [hkind, havoids] at hallows
  cases hallows

/-- The walk outwards from an element of a tree stops at no file but the root. -/
theorem enclosingClass?_eq_find? (ht : t.WellFormed) (he : e ∈ (root t).descendants)
    (allowAnonymous : Bool) :
    e.enclosingClass? allowAnonymous = e.ancestors.find? (isClass allowAnonymous) := by
  unfold enclosingClass? enclosing?
  -- Only the root is a file, and with it the list ends.
  refine parent_induction (P := fun e => firstWanted? _ _ e.ancestors = e.ancestors.find? _)
    ?_ ?_ he
  · show firstWanted? _ _ [root t] = [root t].find? _
    rw [firstWanted?, contains_role_eq_isClass, List.find?_singleton]
    split
    · rfl
    · split
      · rfl
      · rfl
  · intro q hq ih c hc
    rw [ancestors_of_parent? (parent?_of_mem_children hc), firstWanted?, contains_role_eq_isClass,
      contains_file_role, isNode_sourceFile_of_mem_children
        (wellFormed_of_mem_descendants (s := root t) ht hq) hc, List.find?_cons, ih]
    cases c.isClass allowAnonymous with
    | false => rfl
    | true => rfl

theorem isClassLike_of_isClass {allowAnonymous : Bool} (h : c.isClass allowAnonymous = true) :
    c.isClassLike = true := by
  cases allowAnonymous with
  | false =>
    obtain ⟨hnode, hkind⟩ := isNode_iff.mp h
    rw [isClassLike, hnode, hkind]
    rfl
  | true => exact h

/-- A class is a named one or an anonymous one. -/
theorem isClassLike_cases (h : c.isClassLike = true) :
    c.isNode .classDecl = true ∨ c.isNode .anonymousType = true := by
  simp only [isClassLike, Bool.and_eq_true, Bool.not_eq_true'] at h
  obtain ⟨hnode, hclass⟩ := h
  have hkind : c.kind = .classDecl ∨ c.kind = .anonymousType := by
    revert hclass
    cases c.kind <;> decide
  rcases hkind with hkind | hkind
  · exact .inl (isNode_iff.mpr ⟨hnode, hkind⟩)
  · exact .inr (isNode_iff.mpr ⟨hnode, hkind⟩)

theorem isToken_of_isClassLike (h : c.isClassLike = true) : c.isToken = false := by
  rcases isClassLike_cases h with h | h
  · exact (isNode_iff.mp h).1
  · exact (isNode_iff.mp h).1

/-- A class has a token of its own, so it is larger than all nodes in it. -/
theorem size_lt_of_isClassLike (ht : t.Parsed) (hd : d ∈ (root t).descendants)
    (hclass : d.isClassLike = true) (hc : c ∈ d.descendants) (hnode : c.isToken = false)
    (hne : d ≠ c) : c.tree.size < d.tree.size := by
  refine size_lt_of_isFramed (ht.wellFormed_site hd) (ht.solid_site hd) ?_ hc hnode hne.symm
  rcases isClassLike_cases hclass with h | h
  · rw [(isNode_iff.mp h).2]
    decide
  · rw [(isNode_iff.mp h).2]
    decide

end Site

/-- Right in a file there are only classes and refused text, and in refused text there are no
nodes. -/
theorem Kind.not_topLevel_of_allows {k k' : Kind} (h : k'.shape.avoids k = false)
    (hclass : k ≠ .classDecl) (herror : k ≠ .errorNode) : k' ≠ .sourceFile ∧ k' ≠ .errorNode := by
  refine ⟨?_, ?_⟩
  · rintro rfl
    revert h hclass herror
    cases k <;> decide
  · rintro rfl
    cases h

/-! ## Classes over a byte -/

/-- Of the elements of a tree that pass a test, the smallest one over a byte. -/
structure Tree.InnermostAt (t : Tree) (p : Site → Bool) (offset : Nat) (c : Site) : Prop where
  mem : c ∈ (Site.root t).descendants
  passes : p c = true
  covers : c.span.covers offset = true
  smallest : ∀ d ∈ (Site.root t).descendants, p d = true → d.span.covers offset = true → d ≠ c →
    c.tree.size < d.tree.size

namespace Tree.Parsed

variable {t : Tree} {c d l : Site} {offset : Nat} {allowAnonymous : Bool}

/-- Going up from the token over a byte, the first class is the smallest one over the byte. -/
theorem find?_isClass_eq_some_iff (ht : t.Parsed)
    (hl : (Site.root t).leafAt? offset = some l) :
    l.ancestors.find? (Site.isClass allowAnonymous) = some c ↔
      t.InnermostAt (Site.isClass allowAnonymous) offset c := by
  rw [Site.find?_ancestors_eq_some_iff]
  constructor
  · rintro ⟨hc, hclass, houter⟩
    obtain ⟨hmem, hcovers⟩ := (Site.mem_ancestors_iff_covers hl).mp hc
    refine ⟨hmem, hclass, hcovers, fun d hd hdclass hdcovers hne => ?_⟩
    have hdc := houter d ((Site.mem_ancestors_iff_covers hl).mpr ⟨hd, hdcovers⟩) hdclass
    exact Site.size_lt_of_isClassLike ht hd (Site.isClassLike_of_isClass hdclass)
      ((Site.mem_ancestors_iff hmem).mp hdc).1
      (Site.isToken_of_isClassLike (Site.isClassLike_of_isClass hclass)) hne
  · rintro ⟨hmem, hclass, hcovers, hsmallest⟩
    refine ⟨(Site.mem_ancestors_iff_covers hl).mpr ⟨hmem, hcovers⟩, hclass, fun d hd hdclass => ?_⟩
    obtain ⟨hd, hdcovers⟩ := (Site.mem_ancestors_iff_covers hl).mp hd
    by_cases hne : d = c
    · rw [hne]
      exact c.self_mem_ancestors
    · have hlt := hsmallest d hd hdclass hdcovers hne
      rcases Site.below_or_below hmem hd hcovers hdcovers with hbelow | hbelow
      · exact Site.mem_ancestors_of_mem_descendants hbelow
      · exact absurd (Site.size_le_of_mem_descendants hbelow) (Nat.not_le.mpr hlt)

/-- The walk outwards from the token over a byte finds the smallest class over the byte. -/
theorem leafAt?_bind_enclosingClass? (ht : t.Parsed) :
    ((Site.root t).leafAt? offset).bind (·.enclosingClass? allowAnonymous) = some c ↔
      t.InnermostAt (Site.isClass allowAnonymous) offset c := by
  cases hl : (Site.root t).leafAt? offset with
  | none =>
    refine ⟨nofun, fun hc => ?_⟩
    obtain ⟨l, hsome⟩ := Site.exists_leafAt?_of_covers hc.mem hc.covers
    rw [hsome] at hl
    cases hl
  | some l =>
    rw [Option.bind_some, Site.enclosingClass?_eq_find? ht.wellFormed
      (Site.leafAt?_eq_some_iff.mp hl).1, ht.find?_isClass_eq_some_iff hl]

/-- Where there is any class over a byte, there is a smallest one. -/
theorem isSome_leafAt?_bind_enclosingClass? (ht : t.Parsed) :
    (((Site.root t).leafAt? offset).bind (·.enclosingClass? allowAnonymous)).isSome = true ↔
      ∃ c ∈ (Site.root t).descendants, c.isClass allowAnonymous = true ∧
        c.span.covers offset = true := by
  constructor
  · intro hsome
    obtain ⟨c, hc⟩ := Option.isSome_iff_exists.mp hsome
    obtain ⟨hmem, hclass, hcovers, _⟩ := ht.leafAt?_bind_enclosingClass?.mp hc
    exact ⟨c, hmem, hclass, hcovers⟩
  · rintro ⟨c, hmem, hclass, hcovers⟩
    obtain ⟨l, hl⟩ := Site.exists_leafAt?_of_covers hmem hcovers
    rw [hl, Option.bind_some, Site.enclosingClass?_eq_find? ht.wellFormed
      (Site.leafAt?_eq_some_iff.mp hl).1]
    exact List.find?_isSome.mpr
      ⟨c, (Site.mem_ancestors_iff_covers hl).mpr ⟨hmem, hcovers⟩, hclass⟩

/-- Going outwards from the token finds no class exactly if there is none over the byte. -/
theorem leafAt?_bind_enclosingClass?_eq_none_iff (ht : t.Parsed) :
    ((Site.root t).leafAt? offset).bind (·.enclosingClass? allowAnonymous) = none ↔
      ∀ c ∈ (Site.root t).descendants, c.isClass allowAnonymous = true →
        c.span.covers offset = false := by
  rw [← Option.not_isSome_iff_eq_none, ht.isSome_leafAt?_bind_enclosingClass?]
  constructor
  · intro hnone c hc hclass
    exact Bool.eq_false_iff.mpr fun hcovers => hnone ⟨c, hc, hclass, hcovers⟩
  · rintro hall ⟨c, hc, hclass, hcovers⟩
    rw [hall c hc hclass] at hcovers
    cases hcovers

/-! ## Anonymous classes lie in named ones -/

/-- Everything in a file, apart from refused text, is a named class or lies in one. -/
theorem exists_classDecl (ht : t.Parsed) (hd : d ∈ (Site.root t).descendants)
    (hnode : d.isToken = false) (hfile : d.kind ≠ .sourceFile) (herror : d.kind ≠ .errorNode) :
    ∃ c ∈ d.ancestors, c.isNode .classDecl = true := by
  revert hnode hfile herror
  refine Site.parent_induction (P := fun d => d.isToken = false → d.kind ≠ .sourceFile →
    d.kind ≠ .errorNode → ∃ c ∈ d.ancestors, c.isNode .classDecl = true) ?_ ?_ hd
  · intro _ hfile _
    have hroot : (Site.root t).isNode .sourceFile = true := ht.isNode
    exact absurd (Site.isNode_iff.mp hroot).2 hfile
  · intro q hq ih d hd hnode _ herror
    -- Up to the first class, what is around a node is no file either.
    by_cases hclass : d.kind = .classDecl
    · exact ⟨d, d.self_mem_ancestors, Site.isNode_iff.mpr ⟨hnode, hclass⟩⟩
    · obtain ⟨hqfile, hqerror⟩ := Kind.not_topLevel_of_allows
        (Site.shape_allows (ht.wellFormed_site hq) hd hnode) hclass herror
      obtain ⟨c, hc, hdecl⟩ := ih (Site.isToken_of_mem_children hd) hqfile hqerror
      rw [Site.ancestors_of_parent? (Site.parent?_of_mem_children hd)]
      exact ⟨c, List.mem_cons_of_mem d hc, hdecl⟩

/-- Where there is an anonymous class over a byte, there is a named one. -/
theorem isSome_enclosingClass?_eq (ht : t.Parsed) :
    (((Site.root t).leafAt? offset).bind (·.enclosingClass? true)).isSome =
      (((Site.root t).leafAt? offset).bind (·.enclosingClass? false)).isSome := by
  rw [Bool.eq_iff_iff, ht.isSome_leafAt?_bind_enclosingClass?,
    ht.isSome_leafAt?_bind_enclosingClass?]
  constructor
  · rintro ⟨d, hd, hclass, hcovers⟩
    have hkinds : d.kind ≠ .sourceFile ∧ d.kind ≠ .errorNode := by
      rcases Site.isClassLike_cases hclass with h | h
      · rw [(Site.isNode_iff.mp h).2]
        decide
      · rw [(Site.isNode_iff.mp h).2]
        decide
    obtain ⟨c, hc, hdecl⟩ :=
      ht.exists_classDecl hd (Site.isToken_of_isClassLike hclass) hkinds.1 hkinds.2
    obtain ⟨hbelow, hmem⟩ := (Site.mem_ancestors_iff hd).mp hc
    exact ⟨c, hmem, hdecl, Site.covers_of_mem_descendants hbelow hcovers⟩
  · rintro ⟨c, hc, hclass, hcovers⟩
    exact ⟨c, hc, Site.isClassLike_of_isClass hclass, hcovers⟩

/-- If the smallest class over a byte is not the smallest named one, it is an anonymous class in
that one. -/
theorem innermostAt_of_ne (hc : t.InnermostAt (Site.isClass false) offset c)
    (hd : t.InnermostAt (Site.isClass true) offset d) (hne : d ≠ c) :
    d.isNode .anonymousType = true ∧ d ∈ c.descendants ∧ d.tree.size < c.tree.size := by
  have hlt : d.tree.size < c.tree.size :=
    hd.smallest c hc.mem (Site.isClassLike_of_isClass hc.passes) hc.covers hne.symm
  refine ⟨?_, ?_, hlt⟩
  · rcases Site.isClassLike_cases hd.passes with hdecl | hanonymous
    · -- Then each of the two would be smaller than the other.
      have hgt := hc.smallest d hd.mem hdecl hd.covers hne
      omega
    · exact hanonymous
  · rcases Site.below_or_below hd.mem hc.mem hd.covers hc.covers with hbelow | hbelow
    · exact hbelow
    · have hle := Site.size_le_of_mem_descendants hbelow
      omega

end Tree.Parsed

/-! ## The class at a caret -/

namespace Host

variable {es : List Edit} {pos : FilePosition} {doc : Document} {n : Site}
  {selection : Option (FileId × Site)}

/-- What a caret designates is a declaration that has a name. -/
theorem isNamed_of_target? {flags : TargetFlags}
    (h : (snapshot es).project.target? pos flags = some n) :
    n.isToken = false ∧ n.kind.isNamed = true := by
  have hh := consistent_snapshot es
  obtain ⟨i, around, hident, hparent, hcase⟩ := Project.target?_cases h
  obtain ⟨doc, hdoc, hi, _⟩ := hh.identAt?_eq_some_iff.mp hident
  obtain ⟨haround, hin⟩ := Site.mem_children_of_parent? hi hparent
  have hnode := Site.isToken_of_mem_children hin
  rcases hcase with ⟨hname, hup⟩ | ⟨href, hfirst⟩
  · obtain ⟨hn, hchild⟩ := Site.mem_children_of_parent? haround hup
    have hwf := (hh.parsed _ _ hdoc).wellFormed_site hn
    exact ⟨Site.isToken_of_mem_children hchild,
      (Site.nameNode?_of_mem_children hwf hchild (Site.isNode_iff.mpr ⟨hnode, hname⟩)).1⟩
  · rw [first?_eq_head?_meanings hdoc haround (Site.isNode_iff.mpr ⟨hnode, href⟩)] at hfirst
    obtain ⟨m, hm, rfl⟩ := Option.map_eq_some_iff.mp hfirst
    obtain ⟨_, _, _, hdeclared⟩ :=
      Store.declaration_of_mem_meanings hdoc (List.mem_of_mem_head? hm)
    exact hdeclared

/-- Only a named class is ever designated. -/
theorem isNode_classDecl_of_target? {flags : TargetFlags}
    (h : (snapshot es).project.target? pos flags = some n) (hclass : n.isClassLike = true) :
    n.isNode .classDecl = true := by
  rcases Site.isClassLike_cases hclass with hdecl | hanonymous
  · exact hdecl
  · have hnamed := (isNamed_of_target? h).2
    rw [(Site.isNode_iff.mp hanonymous).2] at hnamed
    cases hnamed

/-- A caret that designates a class points into that class, wherever it stands. -/
theorem class?_of_target? (hdoc : (snapshot es).store.document? pos.file = some doc)
    (h : (snapshot es).project.target? pos .all = some n) (hclass : n.isClassLike = true)
    (allowAnonymous : Bool) :
    ((snapshot es).contextAt pos selection).class? allowAnonymous = some n := by
  have hroot := (consistent_snapshot es).root?_eq hdoc
  rw [class?_contextAt hroot, h, Option.some_or, Option.bind_some, Site.asClass?, if_pos hclass,
    Option.some_or]

/-- Where no class is designated, the walk outwards decides. -/
theorem class?_of_no_target (hdoc : (snapshot es).store.document? pos.file = some doc)
    (h : ∀ c, (snapshot es).project.target? pos .all = some c → c.isClassLike = false)
    (allowAnonymous : Bool) :
    ((snapshot es).contextAt pos selection).class? allowAnonymous =
      ((Site.root doc.tree).leafAt? pos.offset).bind (·.enclosingClass? allowAnonymous) := by
  have hroot := (consistent_snapshot es).root?_eq hdoc
  have hleaf := Project.leafAt?_of_root? hroot
  have hnone : Option.bind (Option.or ((snapshot es).project.target? pos .all)
      ((snapshot es).project.leafAt? pos)) Site.asClass? = none := by
    refine Option.bind_eq_none_iff.mpr fun c hc => ?_
    have hnot : c.isClassLike = false := by
      rcases Option.or_eq_some_iff.mp hc with htarget | ⟨_, hl⟩
      · exact h c htarget
      · rw [hleaf] at hl
        rw [Site.isClassLike, (Site.leafAt?_eq_some_iff.mp hl).2.1]
        rfl
    rw [Site.asClass?, hnot]
    rfl
  rw [class?_contextAt hroot, hnone, Option.none_or, hleaf]

/-- The class at a caret is designated, or found on the walk outwards, or there is no document. -/
theorem class?_cases (es : List Edit) (pos : FilePosition)
    (selection : Option (FileId × Site)) :
    (∃ c, c.isNode .classDecl = true ∧ ∀ allowAnonymous,
      ((snapshot es).contextAt pos selection).class? allowAnonymous = some c) ∨
    (∃ t : Tree, t.Parsed ∧ ∀ allowAnonymous,
      ((snapshot es).contextAt pos selection).class? allowAnonymous =
        ((Site.root t).leafAt? pos.offset).bind (·.enclosingClass? allowAnonymous)) ∨
    ∀ allowAnonymous, ((snapshot es).contextAt pos selection).class? allowAnonymous = none := by
  cases hdoc : (snapshot es).store.document? pos.file with
  | none =>
    refine .inr (.inr fun allowAnonymous => ?_)
    show Context.classAt? (snapshot es).project pos allowAnonymous = none
    rw [Context.classAt?, root?_eq_none hdoc]
    rfl
  | some doc =>
    by_cases htarget : ∃ c, (snapshot es).project.target? pos .all = some c ∧
        c.isClassLike = true
    · obtain ⟨c, hc, hclass⟩ := htarget
      exact .inl ⟨c, isNode_classDecl_of_target? hc hclass, class?_of_target? hdoc hc hclass⟩
    · refine .inr (.inl ⟨doc.tree, (consistent_snapshot es).parsed _ _ hdoc, ?_⟩)
      refine class?_of_no_target hdoc fun c hc => Bool.eq_false_iff.mpr fun hclass => ?_
      exact htarget ⟨c, hc, hclass⟩

/-- After any edits, the class at a caret is the class that the caret designates, and if it
designates none, the smallest class over the byte of the caret, where anonymous ones count or not;
if there is none, none is found. So with and without anonymous ones something is found at the same
carets; without them what is found is a named class; and where the two differ, an anonymous class
was found that lies in the named one. -/
theorem class?_innermost (es : List Edit) (pos : FilePosition)
    (selection : Option (FileId × Site)) :
    let ctx := (snapshot es).contextAt pos selection
    (∀ doc, (snapshot es).store.document? pos.file = some doc →
      (∀ c, (snapshot es).project.target? pos .all = some c → c.isClassLike = true →
        ∀ allowAnonymous, ctx.class? allowAnonymous = some c) ∧
      ((∀ c, (snapshot es).project.target? pos .all = some c → c.isClassLike = false) →
        ∀ allowAnonymous,
          (∀ c, ctx.class? allowAnonymous = some c ↔
            doc.tree.InnermostAt (Site.isClass allowAnonymous) pos.offset c) ∧
          (ctx.class? allowAnonymous = none ↔ ∀ c ∈ (Site.root doc.tree).descendants,
            c.isClass allowAnonymous = true → c.span.covers pos.offset = false))) ∧
    Option.isSome (ctx.class? true) = Option.isSome (ctx.class? false) ∧
    (∀ c, ctx.class? false = some c → c.isNode .classDecl = true) ∧
    ∀ c d, ctx.class? false = some c → ctx.class? true = some d → d ≠ c →
      d.isNode .anonymousType = true ∧ d ∈ c.descendants ∧ d.tree.size < c.tree.size := by
  intro ctx
  refine ⟨fun doc hdoc => ⟨fun c hc hclass => class?_of_target? hdoc hc hclass, ?_⟩, ?_⟩
  · intro hnone allowAnonymous
    have ht := (consistent_snapshot es).parsed _ _ hdoc
    rw [class?_of_no_target hdoc hnone allowAnonymous]
    exact ⟨fun c => ht.leafAt?_bind_enclosingClass?,
      ht.leafAt?_bind_enclosingClass?_eq_none_iff⟩
  -- A designated class, the classes over the byte of the caret, or no document at all.
  · rcases class?_cases es pos selection with ⟨c, hclass, hfound⟩ | ⟨t, ht, hfound⟩ | hfound
    · rw [hfound, hfound]
      refine ⟨rfl, ?_, ?_⟩
      · rintro _ ⟨⟩
        exact hclass
      · rintro _ _ ⟨⟩ ⟨⟩ hne
        exact absurd rfl hne
    · rw [hfound, hfound]
      refine ⟨ht.isSome_enclosingClass?_eq, ?_, ?_⟩
      · intro c hc
        exact (ht.leafAt?_bind_enclosingClass?.mp hc).passes
      · intro c d hc hd
        exact Tree.Parsed.innermostAt_of_ne (ht.leafAt?_bind_enclosingClass?.mp hc)
          (ht.leafAt?_bind_enclosingClass?.mp hd)
    · rw [hfound, hfound]
      exact ⟨rfl, nofun, nofun⟩

theorem class?_innermost_of_structure :
    let edits : List Edit := [.setText ⟨"A.hx"⟩ "class A { var p:{ var q:Int; }; }"]
    let ctx := (snapshot edits).contextAt ⟨⟨0⟩, 18⟩ none
    ∃ c d, ctx.class? false = some c ∧ ctx.class? true = some d ∧ c.span = ⟨0, 33⟩ ∧
      d.span = ⟨16, 30⟩ ∧ d.isNode .anonymousType = true ∧ d ∈ c.descendants ∧
      (parse "class A { var p:{ var q:Int; }; }").tree.InnermostAt (Site.isClass true) 18 d := by
  intro edits ctx
  have hdoc : (snapshot edits).store.document? ⟨0⟩ =
      some (.ofParsed "class A { var p:{ var q:Int; }; }"
        (parse "class A { var p:{ var q:Int; }; }")) := rfl
  have hnone : Option.isNone ((snapshot edits).project.target? ⟨⟨0⟩, 18⟩ .all) = true := by
    decide +kernel
  have hnamed : Option.map Site.span (ctx.class? false) = some ⟨0, 33⟩ := by decide +kernel
  have hany : Option.map Site.span (ctx.class? true) = some ⟨16, 30⟩ := by decide +kernel
  obtain ⟨c, hc, hcspan⟩ := Option.map_eq_some_iff.mp hnamed
  obtain ⟨d, hd, hdspan⟩ := Option.map_eq_some_iff.mp hany
  obtain ⟨hfound, _, _, hdiffer⟩ := class?_innermost edits ⟨⟨0⟩, 18⟩ none
  have hne : d ≠ c := by
    rintro rfl
    rw [hcspan] at hdspan
    cases hdspan
  obtain ⟨hanonymous, hbelow, _⟩ := hdiffer c d hc hd hne
  have hinnermost := ((hfound _ hdoc).2
    (by rw [Option.isNone_iff_eq_none.mp hnone]; exact nofun) true).1 d
  exact ⟨c, d, hc, hd, hcspan, hdspan, hanonymous, hbelow, hinnermost.mp hd⟩

end Host

end ClassNav
