import ClassNav.Proofs.Symbols.Resolution

/-!
# Two ways to a class

From a reference to a class there are two ways: to take the first class among everything that the
reference may denote, and to look for classes alone. The first looks through class bodies and
anonymous structures, the second through class bodies only. So they agree exactly if the innermost
of these scopes that declares a class with the name of the reference is no anonymous structure
(`Host.classByExpression?_eq_classOf?_iff`), and they do not agree on every reference
(`Host.classByExpression?_ne_classOf?`).
-/

namespace ClassNav

namespace Site

variable {s d ref : Site} {x : String}

/-! ## Nested classes -/

/-- The classes that a member list declares. -/
def nestedClasses (s : Site) : List Site := if s.kind.isMemberList then s.classes else []

/-- Whether an element is a member list that declares a class named `x`. -/
def declaresClass (x : String) (s : Site) : Bool :=
  s.kind.isMemberList && s.children.any fun d => d.isNode .classDecl && d.hasName x

/-- The innermost member list around a place that declares a class named `x`. -/
def classScope? (s : Site) (x : String) : Option Site := s.ancestors.find? (declaresClass x)

/-- Of what a node declares, the classes are those that a member list declares. -/
theorem filter_scopeDeclarations (s : Site) :
    s.scopeDeclarations.filter (isNode .classDecl) = s.nestedClasses := by
  have hmembers : s.listedMembers.filter (isNode .classDecl) = s.classes := by
    rw [listedMembers, nodesWhere, List.filter_filter]
    refine List.filter_congr fun d _ => ?_
    cases hclass : d.isNode .classDecl with
    | false => rfl
    | true =>
      obtain ⟨hnode, hkind⟩ := isNode_iff.mp hclass
      rw [hnode, hkind]
      rfl
  have hparams : s.params.filter (isNode .classDecl) = [] := by
    refine List.filter_eq_nil_iff.mpr fun d hd hclass => ?_
    unfold params at hd
    cases hlist : s.node? .paramList with
    | none =>
      rw [hlist] at hd
      cases hd
    | some l =>
      rw [hlist] at hd
      have hparam := (isNode_iff.mp (List.mem_filter.mp hd).2).2
      rw [(isNode_iff.mp hclass).2] at hparam
      cases hparam
  -- Methods declare parameters, member lists declare members, and other nodes nothing.
  unfold scopeDeclarations nestedClasses
  split
  · next hk =>
    rw [hk]
    exact hparams
  · next hk =>
    rw [hk]
    exact hmembers
  · next hk =>
    rw [hk]
    exact hmembers
  · next hbody hanonymous =>
    rw [if_neg]
    · rfl
    · revert hbody hanonymous
      cases s.kind <;> simp [Kind.isMemberList]

theorem mem_nestedClasses (h : d ∈ s.nestedClasses) :
    s.kind.isMemberList = true ∧ d.isNode .classDecl = true ∧ d.parent? = some s := by
  unfold nestedClasses at h
  split at h
  · next hlist =>
    obtain ⟨hd, hclass⟩ := List.mem_filter.mp h
    exact ⟨hlist, hclass, parent?_of_mem_children hd⟩
  · cases h

/-- A nested class is found by its name exactly in the lists that declare one with it. -/
theorem isSome_find?_nestedClasses (hs : s.tree.WellFormed) :
    (s.nestedClasses.find? (isNamed x)).isSome = s.declaresClass x := by
  rw [Bool.eq_iff_iff, List.find?_isSome, declaresClass, nestedClasses, Bool.and_eq_true,
    List.any_eq_true]
  constructor
  · rintro ⟨d, hd, hname⟩
    split at hd
    · next hlist =>
      obtain ⟨hchild, hclass⟩ := List.mem_filter.mp hd
      have hwf := wellFormed_of_mem_descendants hs (mem_descendants_of_mem_children hchild)
      rw [isNamed_eq_hasName hwf] at hname
      exact ⟨hlist, d, hchild, by rw [hclass, hname]; rfl⟩
    · cases hd
  · rintro ⟨hlist, d, hchild, h⟩
    obtain ⟨hclass, hname⟩ := Bool.and_eq_true_iff.mp h
    have hwf := wellFormed_of_mem_descendants hs (mem_descendants_of_mem_children hchild)
    rw [if_pos hlist]
    exact ⟨d, List.mem_filter.mpr ⟨hchild, hclass⟩, by rw [isNamed_eq_hasName hwf, hname]⟩

theorem find?_nestedClasses_eq_none (hs : s.tree.WellFormed) (h : s.declaresClass x = false) :
    s.nestedClasses.find? (isNamed x) = none := by
  rw [← Option.not_isSome_iff_eq_none, isSome_find?_nestedClasses hs, h]
  exact Bool.false_ne_true

theorem scopeClasses_of_classBody (h : s.kind = .classBody) : s.scopeClasses = s.nestedClasses := by
  rw [scopeClasses, nestedClasses, h]
  rfl

theorem scopeClasses_of_ne_classBody (h : s.kind ≠ .classBody) : s.scopeClasses = [] := by
  unfold scopeClasses
  split
  · next hk => exact absurd hk h
  · rfl

theorem asClass?_of_isNode (h : s.isNode .classDecl = true) : s.asClass? = some s := by
  obtain ⟨hnode, hkind⟩ := isNode_iff.mp h
  rw [asClass?, isClassLike, hnode, hkind]
  rfl

/-! ## The first class in scope -/

/-- The first class among the visible declarations is that of the innermost member list with a class
of that name. -/
theorem head?_visible (ref : Site) (x : String) :
    ((ref.visible x).filter (isNode .classDecl)).head? =
      ref.ancestors.findSome? fun s => s.nestedClasses.find? (isNamed x) := by
  rw [visible, List.filter_flatMap, List.head?_flatMap]
  refine congrArg (List.findSome? · ref.ancestors) (funext fun s => ?_)
  rw [← filter_scopeDeclarations, ← List.head?_filter, List.filter_filter, List.filter_filter]
  exact congrArg List.head? (List.filter_congr fun d _ => Bool.and_comm _ _)

/-- When only classes are looked for, the scopes are gone through in the same way, but for the
members of anonymous structures. -/
theorem visibleClass?_eq (ref : Site) (x : String) :
    ref.visibleClass? x = ref.ancestors.findSome? fun s => s.scopeClasses.find? (isNamed x) := by
  rw [visibleClass?, List.find?_flatMap]

section

variable {scopes : List Site} (hwf : ∀ s ∈ scopes, s.tree.WellFormed)
include hwf

/-- Where the first member list with such a class is a class body, both ways find it there. -/
theorem findSome?_scopeClasses_eq
    (h : ∀ s, scopes.find? (declaresClass x) = some s → s.kind ≠ .anonymousType) :
    scopes.findSome? (fun s => s.scopeClasses.find? (isNamed x)) =
      scopes.findSome? fun s => s.nestedClasses.find? (isNamed x) := by
  induction scopes with
  | nil => rfl
  | cons s scopes ih =>
    have hs := hwf s List.mem_cons_self
    have hsome := isSome_find?_nestedClasses hs (x := x)
    rw [List.find?_cons] at h
    cases hdeclares : s.declaresClass x with
    | true =>
      rw [hdeclares] at h
      have hlist := (Bool.and_eq_true_iff.mp hdeclares).1
      have hbody : s.kind = .classBody := by
        have hne := h s rfl
        revert hlist hne
        cases s.kind <;> simp [Kind.isMemberList]
      rw [hdeclares] at hsome
      obtain ⟨d, hd⟩ := Option.isSome_iff_exists.mp hsome
      rw [List.findSome?_cons, List.findSome?_cons, scopeClasses_of_classBody hbody, hd]
    | false =>
      rw [hdeclares] at h
      have hnone := find?_nestedClasses_eq_none hs hdeclares
      have hnone' : s.scopeClasses.find? (isNamed x) = none := by
        by_cases hbody : s.kind = .classBody
        · rw [scopeClasses_of_classBody hbody, hnone]
        · rw [scopeClasses_of_ne_classBody hbody]
          rfl
      rw [List.findSome?_cons, List.findSome?_cons, hnone, hnone']
      exact ih (fun s hs => hwf s (List.mem_cons_of_mem _ hs)) h

/-- The first class in any member list stands in the first list with such a class. -/
theorem findSome?_nestedClasses {scope : Site}
    (h : scopes.find? (declaresClass x) = some scope) :
    ∃ d, scopes.findSome? (fun s => s.nestedClasses.find? (isNamed x)) = some d ∧
      d.parent? = some scope := by
  induction scopes with
  | nil => cases h
  | cons s scopes ih =>
    have hs := hwf s List.mem_cons_self
    have hsome := isSome_find?_nestedClasses hs (x := x)
    rw [List.find?_cons] at h
    cases hdeclares : s.declaresClass x with
    | true =>
      rw [hdeclares] at h hsome
      cases h
      obtain ⟨d, hd⟩ := Option.isSome_iff_exists.mp hsome
      refine ⟨d, ?_, (mem_nestedClasses (List.mem_of_find?_eq_some hd)).2.2⟩
      rw [List.findSome?_cons, hd]
    | false =>
      rw [hdeclares] at h
      have hnone := find?_nestedClasses_eq_none hs hdeclares
      rw [List.findSome?_cons, hnone]
      exact ih (fun s hs => hwf s (List.mem_cons_of_mem _ hs)) h

end

/-- A nested class that is found is declared in a class body around the reference. -/
theorem exists_scope_of_visibleClass? (h : ref.visibleClass? x = some d) :
    ∃ scope ∈ ref.ancestors, scope.kind = .classBody ∧ d ∈ scope.nestedClasses ∧
      d.isNamed x = true := by
  rw [visibleClass?_eq] at h
  obtain ⟨scope, hscope, hd⟩ := List.exists_of_findSome?_eq_some h
  have hmem := List.mem_of_find?_eq_some hd
  by_cases hbody : scope.kind = .classBody
  · exact ⟨scope, hscope, hbody, scopeClasses_of_classBody hbody ▸ hmem, List.find?_some hd⟩
  · rw [scopeClasses_of_ne_classBody hbody] at hmem
    cases hmem

end Site

/-! ## Top-level classes -/

namespace Store

/-- The top-level classes named `x` of all files, those of one file first. -/
def classesFrom (s : Store) (file : FileId) (x : String) : List (FileId × Site) :=
  (s.classesNamed x).filter (·.1 = file) ++ (s.classesNamed x).filter (·.1 ≠ file)

variable {s : Store} {file : FileId} {t : Tree} {ref : Site} {x : String} {m : FileId × Site}

theorem mem_classesFrom (h : m ∈ s.classesFrom file x) : m ∈ s.classesNamed x := by
  rcases List.mem_append.mp h with h | h
  · exact (List.mem_filter.mp h).1
  · exact (List.mem_filter.mp h).1

/-- What a reference may denote is what is visible, and then the top-level classes. -/
theorem meanings_eq (ht : t.WellFormed) (href : ref ∈ (Site.root t).descendants) :
    s.meanings file t ref x = (ref.visible x).map (file, ·) ++ s.classesFrom file x := by
  rw [Site.visible_eq ht href, List.map_flatMap]
  rfl

/-- The first class that a reference denotes is nested, or at top level. -/
theorem find?_meanings (ht : t.WellFormed) (href : ref ∈ (Site.root t).descendants) :
    (s.meanings file t ref x).find? (fun m => m.2.isNode .classDecl) =
      (((ref.visible x).filter (Site.isNode .classDecl)).head?.map (file, ·)).or
        (s.classesFrom file x).head? := by
  have htop : (s.classesFrom file x).find? (fun m => m.2.isNode .classDecl) =
      (s.classesFrom file x).head? := by
    cases hclasses : s.classesFrom file x with
    | nil => rfl
    | cons m ms =>
      have hm : m ∈ s.classesFrom file x := by
        rw [hclasses]
        exact List.mem_cons_self
      obtain ⟨_, _, _, _, hclass, _⟩ := mem_classesNamed.mp (mem_classesFrom hm)
      rw [List.find?_cons, hclass]
      rfl
  rw [meanings_eq ht href, List.find?_append, htop, List.find?_map, List.head?_filter]
  rfl

end Store

/-! ## The two ways after any edits -/

namespace Host

variable {es : List Edit} {file : FileId} {doc : Document} {ref : Site}

/-- What is found when only classes are looked for. -/
def classMeaning? (h : Host) (file : FileId) (ref : Site) (x : String) : Option (FileId × Site) :=
  ((ref.visibleClass? x).map (file, ·)).or (h.store.classesFrom file x).head?

theorem isClassLike_role_meaningPtr {m : FileId × Site} (hnode : m.2.isToken = false)
    (hk : m.2.kind.isNamed = true) :
    (meaningPtr m).role.isClassLike = m.2.isNode .classDecl := by
  have hnode' : m.2.isNode .classDecl = decide (m.2.kind = .classDecl) := by
    rw [Bool.eq_iff_iff, Site.isNode_iff, decide_eq_true_eq]
    exact ⟨fun h => h.2, fun h => ⟨hnode, h⟩⟩
  rw [hnode']
  show (Role.ofKind m.2.kind).isClassLike = _
  revert hk
  cases m.2.kind <;> decide

section

variable (hdoc : (snapshot es).store.document? file = some doc)
include hdoc

/-- The first class can be told by the pointers or by what they lead to. -/
theorem firstClass?_meanings {x : String} {ms : List (FileId × Site)}
    (hms : ∀ m ∈ ms, m ∈ (snapshot es).store.meanings file doc.tree ref x) :
    (ms.map meaningPtr).find? (·.role.isClassLike) =
        (ms.find? fun m => m.2.isNode .classDecl).map meaningPtr ∧
      (snapshot es).project.firstClass? (ms.map meaningPtr) =
        (ms.find? fun m => m.2.isNode .classDecl).map (·.2) := by
  induction ms with
  | nil => exact ⟨rfl, rfl⟩
  | cons m ms ih =>
    have hm := hms m List.mem_cons_self
    obtain ⟨_, _, _, hnode, hk⟩ := Store.declaration_of_mem_meanings hdoc hm
    have hrole := isClassLike_role_meaningPtr hnode hk
    unfold Project.firstClass? at ih ⊢
    rw [List.map_cons, List.filter_cons, List.find?_cons, List.find?_cons, hrole]
    cases hclass : m.2.isNode .classDecl with
    | false => exact ih fun m hm => hms m (List.mem_cons_of_mem _ hm)
    | true =>
      refine ⟨rfl, ?_⟩
      rw [if_pos rfl, List.findSome?_cons, resolve?_meaning hdoc hm]
      exact Site.asClass?_of_isNode hclass

variable (href : ref ∈ (Site.root doc.tree).descendants) (hk : ref.isNode .reference = true)
include href hk

theorem classOf?_eq : (snapshot es).project.classOf? file ref =
    (((snapshot es).store.meanings file doc.tree ref ref.text).find? fun m =>
      m.2.isNode .classDecl).map (·.2) := by
  have htext := identifierText?_of_reference hdoc href hk
  obtain ⟨i, hi, _⟩ := Option.map_eq_some_iff.mp htext
  unfold Project.classOf?
  rw [hi]
  show (snapshot es).project.firstClass? ((snapshot es).project.candidates file ref) = _
  rw [candidates_eq hdoc href hk]
  exact (firstClass?_meanings hdoc fun _ hm => hm).2

omit hk in
theorem mem_meanings_of_classMeaning? {m : FileId × Site}
    (hm : (snapshot es).classMeaning? file ref ref.text = some m) :
    m ∈ (snapshot es).store.meanings file doc.tree ref ref.text ∧
      m.2.isNode .classDecl = true := by
  have hwf := ((consistent_snapshot es).parsed file doc hdoc).wellFormed
  rw [Store.meanings_eq hwf href, List.mem_append]
  rcases Option.or_eq_some_iff.mp hm with h | ⟨_, h⟩
  · obtain ⟨d, hd, rfl⟩ := Option.map_eq_some_iff.mp h
    obtain ⟨scope, hscope, _, hnested, hname⟩ := Site.exists_scope_of_visibleClass? hd
    rw [← Site.filter_scopeDeclarations] at hnested
    obtain ⟨hdecl, hclass⟩ := List.mem_filter.mp hnested
    refine ⟨.inl (List.mem_map_of_mem ?_), hclass⟩
    exact List.mem_flatMap.mpr ⟨scope, hscope, List.mem_filter.mpr ⟨hdecl, hname⟩⟩
  · have hmem := List.mem_of_head? h
    obtain ⟨_, _, _, _, hclass, _⟩ := Store.mem_classesNamed.mp (Store.mem_classesFrom hmem)
    exact ⟨.inr hmem, hclass⟩

/-- The class that a reference names is the one that is found when only classes are looked for. -/
theorem class?_eq : (snapshot es).project.class? file ref =
    ((snapshot es).classMeaning? file ref ref.text).map meaningPtr := by
  have hindex : (snapshot es).index = indexOf (snapshot es).store := index_refresh_run es
  show (snapshot es).index.classFor? file ref = _
  rw [SymbolIndex.classFor?, identifierText?_of_reference hdoc href hk, hindex]
  show ((ref.visibleClass? ref.text).map (DeclPtr.ofSite file)).or _ = _
  rw [(consistent_snapshot es).named_indexOf, List.head?_map, classMeaning?, Option.map_or,
    Option.map_map]
  rfl

/-- Resolving a reference as an expression gives the class itself instead of a pointer to it. -/
theorem classByExpression?_eq : (snapshot es).project.classByExpression? file ref =
    ((snapshot es).classMeaning? file ref ref.text).map (·.2) := by
  show Option.bind ((snapshot es).project.class? file ref) _ = _
  rw [class?_eq hdoc href hk]
  cases hm : (snapshot es).classMeaning? file ref ref.text with
  | none => rfl
  | some m =>
    obtain ⟨hmem, hclass⟩ := mem_meanings_of_classMeaning? hdoc href hm
    show Option.bind ((snapshot es).project.resolve? (meaningPtr m)) Site.asClass? = some m.2
    rw [resolve?_meaning hdoc hmem, Option.bind_some, Site.asClass?_of_isNode hclass]

omit hk in
/-- Where the innermost scope with such a class is no anonymous structure, nothing is missed. -/
theorem classMeaning?_eq
    (h : ∀ scope, ref.classScope? ref.text = some scope → scope.kind ≠ .anonymousType) :
    (snapshot es).classMeaning? file ref ref.text =
      ((snapshot es).store.meanings file doc.tree ref ref.text).find? fun m =>
        m.2.isNode .classDecl := by
  have hparsed := (consistent_snapshot es).parsed file doc hdoc
  have hwf : ∀ scope ∈ ref.ancestors, scope.tree.WellFormed := fun scope hscope =>
    hparsed.wellFormed_site (Site.mem_descendants_of_mem_ancestors href hscope).2
  rw [Store.find?_meanings hparsed.wellFormed href, classMeaning?, Site.visibleClass?_eq,
    Site.findSome?_scopeClasses_eq hwf h, Site.head?_visible]

omit hk in
/-- Where it is one, the class in it is missed, and what is found instead stands elsewhere. -/
theorem classMeaning?_ne {scope : Site} (hscope : ref.classScope? ref.text = some scope)
    (hanonymous : scope.kind = .anonymousType) :
    ((snapshot es).classMeaning? file ref ref.text).map (·.2) ≠
      (((snapshot es).store.meanings file doc.tree ref ref.text).find? fun m =>
        m.2.isNode .classDecl).map (·.2) := by
  have hparsed := (consistent_snapshot es).parsed file doc hdoc
  have hwf : ∀ scope ∈ ref.ancestors, scope.tree.WellFormed := fun scope hscope =>
    hparsed.wellFormed_site (Site.mem_descendants_of_mem_ancestors href hscope).2
  obtain ⟨d, hd, hup⟩ := Site.findSome?_nestedClasses hwf hscope
  rw [Store.find?_meanings hparsed.wellFormed href, Site.head?_visible, hd]
  intro heq
  obtain ⟨m, hm, hmd⟩ := Option.map_eq_some_iff.mp heq
  have hmup : m.2.parent? = some scope := by
    rw [hmd]
    exact hup
  -- What is found stands in a class body or in a file, and the scope is neither.
  rcases Option.or_eq_some_iff.mp hm with h | ⟨_, h⟩
  · obtain ⟨e, he, rfl⟩ := Option.map_eq_some_iff.mp h
    obtain ⟨body, _, hbody, hnested, _⟩ := Site.exists_scope_of_visibleClass? he
    rw [(Site.mem_nestedClasses hnested).2.2] at hmup
    obtain rfl := Option.some.inj hmup
    rw [hbody] at hanonymous
    cases hanonymous
  · obtain ⟨doc', hdoc', _, _, _, hroot⟩ :=
      Store.mem_classesNamed.mp (Store.mem_classesFrom (List.mem_of_head? h))
    rw [hroot] at hmup
    obtain rfl := Option.some.inj hmup
    have hfile : (Site.root doc'.tree).isNode .sourceFile = true :=
      ((consistent_snapshot es).parsed _ _ hdoc').isNode
    rw [(Site.isNode_iff.mp hfile).2] at hanonymous
    cases hanonymous

/-- After any edits, looking for classes alone leads from a reference to the class that is the first
among everything that the reference may denote, or to none if there is none, exactly if the
innermost member list around the reference that declares a class with its name is no anonymous
structure. Then both ways agree on the pointer as well. -/
theorem classByExpression?_eq_classOf?_iff :
    ((snapshot es).project.classByExpression? file ref =
        (snapshot es).project.classOf? file ref ↔
      ∀ scope, ref.classScope? ref.text = some scope → scope.kind ≠ .anonymousType) ∧
    ((∀ scope, ref.classScope? ref.text = some scope → scope.kind ≠ .anonymousType) →
      (snapshot es).project.class? file ref =
        List.find? (·.role.isClassLike) ((snapshot es).project.candidates file ref)) := by
  have hagree := classMeaning?_eq hdoc href
  refine ⟨?_, fun h => ?_⟩
  · rw [classByExpression?_eq hdoc href hk, classOf?_eq hdoc href hk]
    constructor
    · intro heq scope hscope hanonymous
      exact classMeaning?_ne hdoc href hscope hanonymous heq
    · intro h
      rw [hagree h]
  · rw [class?_eq hdoc href hk, candidates_eq hdoc href hk, hagree h]
    exact (firstClass?_meanings hdoc fun _ hm => hm).1.symm

end

theorem classByExpression?_of_nested :
    let text := "class N {} class A { class N {} var q:N; }"
    ∃ ref ∈ (Site.root (parse text).tree).descendants,
      ref.isNode .reference = true ∧ (ref.classScope? ref.text).map Site.kind = some .classBody ∧
        (snapshot [.setText ⟨"A.hx"⟩ text]).project.classByExpression? ⟨0⟩ ref =
          (snapshot [.setText ⟨"A.hx"⟩ text]).project.classOf? ⟨0⟩ ref := by
  intro text
  have hany : ((Site.root (parse text).tree).descendants.any fun ref =>
      ref.isNode .reference && (ref.classScope? ref.text).map Site.kind == some .classBody) =
        true := by
    decide +kernel
  obtain ⟨ref, href, h⟩ := List.any_eq_true.mp hany
  simp only [Bool.and_eq_true, beq_iff_eq] at h
  refine ⟨ref, href, h.1, h.2, ?_⟩
  have hdoc : (snapshot [.setText ⟨"A.hx"⟩ text]).store.document? ⟨0⟩ =
      some (.ofParsed text (parse text)) := rfl
  refine (classByExpression?_eq_classOf?_iff hdoc href h.1).1.mpr fun scope hscope => ?_
  rw [hscope, Option.map_some] at h
  rw [Option.some.inj h.2]
  nofun

/-- A class in an anonymous structure hides a top-level class of the same name from one way to a
class, and not from the other. -/
theorem classByExpression?_ne_classOf? :
    let text := "class N {} class A { var p:{ class N {} var q:N; }; }"
    ∃ ref ∈ (Site.root (parse text).tree).descendants,
      ref.isNode .reference = true ∧
        (snapshot [.setText ⟨"A.hx"⟩ text]).project.classByExpression? ⟨0⟩ ref ≠
          (snapshot [.setText ⟨"A.hx"⟩ text]).project.classOf? ⟨0⟩ ref := by
  intro text
  have hany : ((Site.root (parse text).tree).descendants.any fun ref =>
      ref.isNode .reference &&
        decide (Option.map Site.span ((snapshot [.setText ⟨"A.hx"⟩ text]).project.classByExpression?
          ⟨0⟩ ref) = some ⟨0, 10⟩) &&
        decide (Option.map Site.span ((snapshot [.setText ⟨"A.hx"⟩ text]).project.classOf?
          ⟨0⟩ ref) = some ⟨29, 39⟩)) = true := by
    decide +kernel
  obtain ⟨ref, href, h⟩ := List.any_eq_true.mp hany
  simp only [Bool.and_eq_true, decide_eq_true_eq] at h
  refine ⟨ref, href, h.1.1, fun heq => ?_⟩
  have hspan := h.1.2
  rw [heq, h.2] at hspan
  cases hspan

end Host

end ClassNav
