import ClassNav.Navigation.Project
import ClassNav.Proofs.Symbols.Index

/-!
# What references denote

`Store.meanings` says what a reference denotes, by the places of declarations in the trees alone:
every declaration with its name in a scope around it, from the innermost scope outwards, then the
top-level classes with its name, those of its own file first. Here a declaration belongs to the
scope that it stands in, a parameter to the method around its parameter list.

After any edits, the candidates for a reference are exactly the pointers to what it denotes, in
this order (`Host.candidates_eq`). None comes twice (`Host.nodup_map_meaningPtr`), and each leads to
its declaration (`Host.resolve?_meaning`).
-/

namespace ClassNav

/-! ## Meanings -/

/-- Whether a node declares an element to what is inside the node: a method its parameters, a
member list its members. -/
def Site.declares (scope d : Site) : Bool :=
  match scope.kind with
  | .methodDecl => d.isNode .param && decide (d.parent?.bind parent? = some scope)
  | .classBody | .anonymousType =>
    !d.isToken && d.kind.isMember && decide (d.parent? = some scope)
  | _ => false

namespace Store

/-- The top-level classes named `x` of all files, in order. -/
def classesNamed (s : Store) (x : String) : List (FileId × Site) :=
  s.documents.entries.flatMap fun (f, doc) => ((Site.root doc.tree).descendants.filter fun d =>
    d.hasName x && d.isNode .classDecl &&
      decide (d.parent? = some (Site.root doc.tree))).map (f, ·)

/-- Everything that a reference with the name `x` denotes, in the tree `t` of a file. -/
def meanings (s : Store) (file : FileId) (t : Tree) (ref : Site) (x : String) :
    List (FileId × Site) :=
  (ref.ancestors.flatMap fun scope => ((Site.root t).descendants.filter fun d =>
    d.hasName x && scope.declares d).map (file, ·)) ++
  ((s.classesNamed x).filter (·.1 = file) ++ (s.classesNamed x).filter (·.1 ≠ file))

end Store

/-! ## Scopes -/

theorem Kind.isNamed_of_isMember {k : Kind} (h : k.isMember = true) : k.isNamed = true := by
  revert h
  cases k <;> decide

namespace Site

variable {t : Tree} {scope d : Site}

/-- A parameter stands in a parameter list of the node around its parent. -/
theorem exists_paramList (ht : t.WellFormed) (hd : d ∈ (root t).descendants)
    (hparam : d.isNode .param = true) (hgrand : d.parent?.bind parent? = some scope) :
    ∃ l, d ∈ l.children ∧ l ∈ scope.children ∧ l.isNode .paramList = true := by
  rcases exists_parent_of_mem_descendants hd with rfl | ⟨l, hl, hdl⟩
  · cases hgrand
  · rw [parent?_of_mem_children hdl, Option.bind_some] at hgrand
    have hwf := wellFormed_of_mem_descendants (s := root t) ht hl
    have hkind := kind_of_param hwf hdl hparam
    rcases exists_parent_of_mem_descendants hl with rfl | ⟨m, _, hlm⟩
    · cases hgrand
    · rw [parent?_of_mem_children hlm] at hgrand
      obtain rfl := Option.some.inj hgrand
      exact ⟨l, hdl, hlm, isNode_iff.mpr ⟨isToken_of_mem_children hdl, hkind⟩⟩

/-- The parameters of a method are the parameter nodes two steps below it. -/
theorem filter_parent?_param (ht : t.WellFormed) (hs : scope ∈ (root t).descendants)
    (hk : scope.kind = .methodDecl) :
    (root t).descendants.filter (fun d => d.isNode .param &&
      decide (d.parent?.bind parent? = some scope)) = scope.params := by
  have hwf := wellFormed_of_mem_descendants (s := root t) ht hs
  have honce : scope.kind.shape.atMostOnce .paramList = true := by
    rw [hk]
    decide
  rw [params, node?_eq_head?]
  cases hnodes : scope.nodes .paramList with
  | nil =>
    refine List.filter_eq_nil_iff.mpr fun d hd h => ?_
    simp only [Bool.and_eq_true, decide_eq_true_eq] at h
    obtain ⟨l, _, hl, hlnode⟩ := exists_paramList ht hd h.1 h.2
    have hmem : l ∈ scope.nodes .paramList := List.mem_filter.mpr ⟨hl, hlnode⟩
    rw [hnodes] at hmem
    cases hmem
  | cons l ls =>
    obtain ⟨hl, hlnode⟩ := List.mem_filter.mp (hnodes ▸ List.mem_cons_self :
      l ∈ scope.nodes .paramList)
    have hlroot := mem_descendants_trans (mem_descendants_of_mem_children hl) hs
    -- There is one parameter list, so the node between is known.
    have hcongr : ∀ d ∈ (root t).descendants,
        (d.isNode .param && decide (d.parent?.bind parent? = some scope)) =
          (d.isNode .param && decide (d.parent? = some l)) := by
      intro d hd
      rw [Bool.eq_iff_iff]
      simp only [Bool.and_eq_true, decide_eq_true_eq]
      refine and_congr_right fun hparam => ⟨fun hgrand => ?_, fun hparent => ?_⟩
      · obtain ⟨l', hdl', hl', hlnode'⟩ := exists_paramList ht hd hparam hgrand
        have hone := nodes_eq_singleton hwf rfl honce hl hlnode
        rw [nodes_eq_singleton hwf rfl honce hl' hlnode'] at hone
        rw [parent?_of_mem_children hdl', (List.cons.inj hone).1]
      · rw [hparent, Option.bind_some, parent?_of_mem_children hl]
    rw [List.filter_congr hcongr, ← List.filter_filter, filter_parent?_root hlroot]
    rfl

/-- What a node declares is what it adds to the scope of what is inside it. -/
theorem filter_declares (ht : t.WellFormed) (hs : scope ∈ (root t).descendants) :
    (root t).descendants.filter scope.declares = scope.scopeDeclarations := by
  have hmembers : (root t).descendants.filter (fun d =>
      !d.isToken && d.kind.isMember && decide (d.parent? = some scope)) = scope.listedMembers := by
    rw [← List.filter_filter, filter_parent?_root hs]
    rfl
  -- One case for each kind of scope, in the order in which they are told apart.
  unfold scopeDeclarations
  split
  · next hk =>
    rw [← filter_parent?_param ht hs hk]
    exact List.filter_congr fun d _ => by simp only [declares, hk]
  · next hk =>
    rw [← hmembers]
    exact List.filter_congr fun d _ => by simp only [declares, hk]
  · next hk =>
    rw [← hmembers]
    exact List.filter_congr fun d _ => by simp only [declares, hk]
  · next hmethod hbody hanonymous =>
    refine List.filter_eq_nil_iff.mpr fun d _ => ?_
    unfold declares
    split
    · next hk => exact absurd hk hmethod
    · next hk => exact absurd hk hbody
    · next hk => exact absurd hk hanonymous
    · exact Bool.false_ne_true

/-- What a scope declares is a parameter of a method, or a member of a list. -/
theorem declares_cases (h : scope.declares d = true) :
    (d.isNode .param = true ∧ d.parent?.bind parent? = some scope) ∨
      (d.isToken = false ∧ d.kind.isMember = true ∧ scope.kind.isMemberList = true ∧
        d.parent? = some scope) := by
  unfold declares at h
  split at h
  · simp only [Bool.and_eq_true, decide_eq_true_eq] at h
    exact .inl h
  · next hk =>
    simp only [Bool.and_eq_true, Bool.not_eq_true', decide_eq_true_eq] at h
    exact .inr ⟨h.1.1, h.1.2, by rw [hk]; rfl, h.2⟩
  · next hk =>
    simp only [Bool.and_eq_true, Bool.not_eq_true', decide_eq_true_eq] at h
    exact .inr ⟨h.1.1, h.1.2, by rw [hk]; rfl, h.2⟩
  · cases h

theorem isNamed_of_declares (h : scope.declares d = true) :
    d.isToken = false ∧ d.kind.isNamed = true := by
  rcases declares_cases h with ⟨hparam, _⟩ | ⟨hnode, hmember, _, _⟩
  · obtain ⟨hnode, hkind⟩ := isNode_iff.mp hparam
    rw [hkind]
    exact ⟨hnode, rfl⟩
  · exact ⟨hnode, Kind.isNamed_of_isMember hmember⟩

/-- A declaration belongs to one scope. -/
theorem eq_of_declares {scope' : Site} (h : scope.declares d = true)
    (h' : scope'.declares d = true) : scope = scope' := by
  have hnot : d.isNode .param = true → d.kind.isMember = true → False := by
    intro hparam hmember
    rw [(isNode_iff.mp hparam).2] at hmember
    cases hmember
  rcases declares_cases h with ⟨hparam, hup⟩ | ⟨_, hmember, _, hup⟩
  · rcases declares_cases h' with ⟨_, hup'⟩ | ⟨_, hmember, _, _⟩
    · exact Option.some.inj (hup.symm.trans hup')
    · exact (hnot hparam hmember).elim
  · rcases declares_cases h' with ⟨hparam, _⟩ | ⟨_, _, _, hup'⟩
    · exact (hnot hparam hmember).elim
    · exact Option.some.inj (hup.symm.trans hup')

/-- The declarations in scope are found by their places. -/
theorem visible_eq (ht : t.WellFormed) {ref : Site} (href : ref ∈ (root t).descendants)
    (x : String) :
    ref.visible x = ref.ancestors.flatMap fun scope =>
      (root t).descendants.filter fun d => d.hasName x && scope.declares d := by
  refine List.flatMap_congr fun scope hscope => ?_
  have hs := (mem_descendants_of_mem_ancestors href hscope).2
  rw [← filter_declares ht hs, List.filter_filter]
  refine List.filter_congr fun d hd => ?_
  rw [isNamed_eq_hasName (wellFormed_of_mem_descendants (s := root t) ht hd)]

end Site

/-! ## Top-level classes -/

/-- The pointer to a meaning. -/
def meaningPtr (m : FileId × Site) : DeclPtr := .ofSite m.1 m.2

/-- What the index lists of a file are its top-level classes, read off from the tree. -/
theorem classPtrs_eq_meanings {t : Tree} (ht : t.WellFormed) (f : FileId) (x : String) :
    SymbolIndex.classPtrs (Site.isNamed x) f t =
      (((Site.root t).descendants.filter fun d => d.hasName x && d.isNode .classDecl &&
        decide (d.parent? = some (Site.root t))).map (f, ·)).map meaningPtr := by
  have hclasses : (Site.root t).classes.filter (Site.isNamed x) =
      (Site.root t).descendants.filter fun d => d.hasName x && d.isNode .classDecl &&
        decide (d.parent? = some (Site.root t)) := by
    rw [Site.classes, Site.nodes, ← Site.filter_parent?_root (Site.self_mem_descendants _),
      List.filter_filter, List.filter_filter]
    refine List.filter_congr fun d hd => ?_
    rw [Site.isNamed_eq_hasName (Site.wellFormed_of_mem_descendants (s := Site.root t) ht hd),
      Bool.and_assoc]
  rw [SymbolIndex.classPtrs, hclasses, List.map_map]
  rfl

/-- The index of a consistent host answers with the top-level classes of its documents. -/
theorem Host.Consistent.named_indexOf {h : Host} (hh : h.Consistent) (x : String)
    (home : FileId) :
    (indexOf h.store).named x home = ((h.store.classesNamed x).filter (·.1 = home) ++
      (h.store.classesNamed x).filter (·.1 ≠ home)).map meaningPtr := by
  have hfound : SymbolIndex.listed (indexOf h.store).classes x =
      (h.store.classesNamed x).map meaningPtr := by
    rw [SymbolIndex.listed_indexOf, hh.trees_eq, List.flatMap_map, Store.classesNamed,
      List.map_flatMap]
    refine List.flatMap_congr fun e he => ?_
    have hparsed := hh.parsed e.1 e.2 (FileMap.get?_eq_some_iff.mpr he)
    exact classPtrs_eq_meanings hparsed.wellFormed e.1 x
  rw [SymbolIndex.named_eq, hfound, List.filter_map, List.filter_map, List.map_append]
  rfl

/-! ## Each meaning once -/

namespace Store

variable {s : Store} {file : FileId} {doc : Document} {t : Tree} {ref : Site} {x : String}
  {m : FileId × Site}

theorem mem_classesNamed : m ∈ s.classesNamed x ↔ ∃ doc, s.document? m.1 = some doc ∧
    m.2 ∈ (Site.root doc.tree).descendants ∧ m.2.hasName x = true ∧
      m.2.isNode .classDecl = true ∧ m.2.parent? = some (Site.root doc.tree) := by
  obtain ⟨f, d⟩ := m
  simp only [classesNamed, List.mem_flatMap, List.mem_map, List.mem_filter, Bool.and_eq_true,
    decide_eq_true_eq, Prod.exists, document?, FileMap.get?_eq_some_iff, Prod.mk.injEq]
  constructor
  · rintro ⟨_, u, hu, _, ⟨hd, ⟨hname, hclass⟩, hup⟩, rfl, rfl⟩
    exact ⟨u, hu, hd, hname, hclass, hup⟩
  · rintro ⟨u, hu, hd, hname, hclass, hup⟩
    exact ⟨f, u, hu, d, ⟨hd, ⟨hname, hclass⟩, hup⟩, rfl, rfl⟩

theorem nodup_classesNamed : (s.classesNamed x).Nodup := by
  refine List.nodup_flatMap.mpr ⟨?_, ?_⟩
  · rintro ⟨f, u⟩ _
    exact ((Site.nodup_descendants _).filter _).map fun _ _ h => (Prod.mk.inj h).2
  · refine s.documents.ascending.imp ?_
    rintro ⟨f, u⟩ ⟨g, v⟩ hlt m hm hm'
    obtain ⟨_, _, rfl⟩ := List.mem_map.mp hm
    obtain ⟨_, _, hg⟩ := List.mem_map.mp hm'
    have hfile : g = f := congrArg Prod.fst hg
    exact Nat.lt_irrefl _ (hfile ▸ hlt)

theorem mem_meanings : m ∈ s.meanings file t ref x ↔
    (m.1 = file ∧ m.2 ∈ (Site.root t).descendants ∧
      ∃ scope ∈ ref.ancestors, m.2.hasName x = true ∧ scope.declares m.2 = true) ∨
    m ∈ s.classesNamed x := by
  obtain ⟨f, d⟩ := m
  simp only [meanings, List.mem_append, List.mem_flatMap, List.mem_map, List.mem_filter,
    Bool.and_eq_true, decide_eq_true_eq, Prod.mk.injEq]
  constructor
  · rintro (⟨scope, hscope, _, ⟨hd, hname, hdecl⟩, rfl, rfl⟩ | ⟨h, _⟩ | ⟨h, _⟩)
    · exact .inl ⟨rfl, hd, scope, hscope, hname, hdecl⟩
    · exact .inr h
    · exact .inr h
  · rintro (⟨rfl, hd, scope, hscope, hname, hdecl⟩ | h)
    · exact .inl ⟨scope, hscope, d, ⟨hd, hname, hdecl⟩, rfl, rfl⟩
    · by_cases hf : f = file
      · exact .inr (.inl ⟨h, hf⟩)
      · exact .inr (.inr ⟨h, hf⟩)

/-- Everything that a reference denotes is a declaration of a stored document. -/
theorem declaration_of_mem_meanings (hdoc : s.document? file = some doc)
    (h : m ∈ s.meanings file doc.tree ref x) :
    ∃ doc, s.document? m.1 = some doc ∧ m.2 ∈ (Site.root doc.tree).descendants ∧
      m.2.isToken = false ∧ m.2.kind.isNamed = true := by
  rcases mem_meanings.mp h with ⟨hfile, hd, scope, _, _, hdecl⟩ | hclass
  · exact ⟨doc, hfile ▸ hdoc, hd, Site.isNamed_of_declares hdecl⟩
  · obtain ⟨u, hu, hd, _, hnode, _⟩ := mem_classesNamed.mp hclass
    obtain ⟨hnode, hkind⟩ := Site.isNode_iff.mp hnode
    exact ⟨u, hu, hd, hnode, by rw [hkind]; rfl⟩

/-- No declaration belongs to two scopes, since it has one parent. -/
theorem nodup_scopes : (ref.ancestors.flatMap fun scope =>
    ((Site.root t).descendants.filter fun d =>
      d.hasName x && scope.declares d).map (file, ·)).Nodup := by
  refine List.nodup_flatMap.mpr ⟨fun scope _ => ?_, ?_⟩
  · exact ((Site.nodup_descendants _).filter _).map fun _ _ h => (Prod.mk.inj h).2
  · refine (Site.nodup_ancestors ref).imp fun hne m hm hm' => hne ?_
    obtain ⟨d, hd, rfl⟩ := List.mem_map.mp hm
    obtain ⟨d', hd', heq⟩ := List.mem_map.mp hm'
    obtain rfl : d' = d := congrArg Prod.snd heq
    exact Site.eq_of_declares (Bool.and_eq_true_iff.mp (List.mem_filter.mp hd).2).2
      (Bool.and_eq_true_iff.mp (List.mem_filter.mp hd').2).2

/-- A meaning is a declaration below a class, or a top-level class, but never both. -/
theorem nodup_meanings (hdoc : s.document? file = some doc)
    (hroot : doc.tree.isNode .sourceFile = true) :
    (s.meanings file doc.tree ref x).Nodup := by
  refine List.nodup_append.mpr ⟨nodup_scopes, ?_, ?_⟩
  · refine List.nodup_append.mpr ⟨nodup_classesNamed.filter _, nodup_classesNamed.filter _, ?_⟩
    rintro m hm m' hm' rfl
    have hsame := (List.mem_filter.mp hm).2
    have hother := (List.mem_filter.mp hm').2
    simp only [decide_eq_true_eq] at hsame hother
    exact hother hsame
  · rintro m hm m' hm' rfl
    obtain ⟨scope, _, hm⟩ := List.mem_flatMap.mp hm
    obtain ⟨d, hd, rfl⟩ := List.mem_map.mp hm
    have hdecl := (Bool.and_eq_true_iff.mp (List.mem_filter.mp hd).2).2
    have hclass : (file, d) ∈ s.classesNamed x := by
      rcases List.mem_append.mp hm' with h | h
      · exact (List.mem_filter.mp h).1
      · exact (List.mem_filter.mp h).1
    obtain ⟨doc', hdoc', _, _, hnode, hup⟩ := mem_classesNamed.mp hclass
    obtain rfl : doc = doc' := Option.some.inj (hdoc.symm.trans hdoc')
    -- A top-level class stands in the file, which is no scope.
    rcases Site.declares_cases hdecl with ⟨hparam, _⟩ | ⟨_, _, hlist, hscope⟩
    · have hkind := (Site.isNode_iff.mp hnode).2
      rw [(Site.isNode_iff.mp hparam).2] at hkind
      cases hkind
    · rw [hup] at hscope
      obtain rfl := Option.some.inj hscope
      have hfile : (Site.root doc.tree).isNode .sourceFile = true := hroot
      rw [(Site.isNode_iff.mp hfile).2] at hlist
      cases hlist

end Store

/-- Nothing is left out if nothing comes twice. -/
theorem SymbolIndex.addNew_eq_append {known ps : List DeclPtr} (h : (known ++ ps).Nodup) :
    addNew known ps = known ++ ps := by
  induction ps generalizing known with
  | nil => exact (List.append_nil known).symm
  | cons p ps ih =>
    have hp : p ∉ known := by
      intro hmem
      exact (List.nodup_append.mp h).2.2 p hmem p List.mem_cons_self rfl
    have hassoc : known ++ p :: ps = (known ++ [p]) ++ ps := by simp
    show addNew (if p ∈ known then known else known ++ [p]) ps = known ++ p :: ps
    rw [if_neg hp, hassoc]
    exact ih (hassoc ▸ h)

/-! ## References after any edits -/

/-- The host that queries are asked of after some edits. -/
def Host.snapshot (es : List Edit) : Host := (Host.run es).refresh

namespace Host

variable {es : List Edit} {file : FileId} {doc : Document} {ref : Site}

theorem consistent_snapshot (es : List Edit) : (snapshot es).Consistent :=
  (consistent_run es).refresh

theorem Consistent.root?_eq {h : Host} (hh : h.Consistent)
    (hdoc : h.store.document? file = some doc) :
    h.project.root? file = some (Site.root doc.tree) := by
  rw [Project.root?]
  show (h.store.tree? file).map Site.root = _
  rw [hh.tree?_eq hdoc, Option.map_some]

theorem root?_eq_none {h : Host} (hdoc : h.store.document? file = none) :
    h.project.root? file = none := by
  rw [Project.root?]
  show (h.store.tree? file).map Site.root = none
  rw [Store.tree?, hdoc]
  rfl

/-- The pointer to a meaning leads to it. -/
theorem resolve?_meaning (hdoc : (snapshot es).store.document? file = some doc) {x : String}
    {m : FileId × Site} (hm : m ∈ (snapshot es).store.meanings file doc.tree ref x) :
    (snapshot es).project.resolve? (meaningPtr m) = some m.2 := by
  obtain ⟨doc', hdoc', hd, hnode, hk⟩ := Store.declaration_of_mem_meanings hdoc hm
  have hh := consistent_snapshot es
  rw [Project.resolve?]
  show ((snapshot es).project.root? m.1).bind _ = _
  rw [hh.root?_eq hdoc', Option.bind_some]
  exact DeclPtr.resolve?_declaration m.1 (hh.parsed _ _ hdoc') hd hnode hk

theorem identifierText?_of_reference (hdoc : (snapshot es).store.document? file = some doc)
    (href : ref ∈ (Site.root doc.tree).descendants) (hk : ref.isNode .reference = true) :
    ref.identifierText? = some ref.text := by
  have hwf := ((consistent_snapshot es).parsed file doc hdoc).wellFormed_site href
  obtain ⟨hnode, hkind⟩ := Site.isNode_iff.mp hk
  exact Site.identifierText?_eq hwf hnode (.inr hkind)

/-- Different meanings have different pointers, since a pointer leads to its meaning. -/
theorem nodup_map_meaningPtr (hdoc : (snapshot es).store.document? file = some doc)
    (ref : Site) (x : String) :
    (((snapshot es).store.meanings file doc.tree ref x).map meaningPtr).Nodup := by
  have hparsed := (consistent_snapshot es).parsed file doc hdoc
  refine (Store.nodup_meanings hdoc hparsed.isNode).map_on fun m hm m' hm' heq => ?_
  have hfile : m.1 = m'.1 := congrArg DeclPtr.file heq
  have hsite := resolve?_meaning hdoc hm
  rw [heq, resolve?_meaning hdoc hm'] at hsite
  exact Prod.ext hfile (Option.some.inj hsite).symm

/-- The candidates of a reference are the pointers to its meanings, in their order. -/
theorem candidates_eq (hdoc : (snapshot es).store.document? file = some doc)
    (href : ref ∈ (Site.root doc.tree).descendants) (hk : ref.isNode .reference = true) :
    (snapshot es).project.candidates file ref =
      ((snapshot es).store.meanings file doc.tree ref ref.text).map meaningPtr := by
  have hh := consistent_snapshot es
  have hparsed := hh.parsed file doc hdoc
  have hnodup := nodup_map_meaningPtr hdoc ref ref.text
  have hindex : (snapshot es).index = indexOf (snapshot es).store := index_refresh_run es
  have hscopes : (ref.visible ref.text).map (DeclPtr.ofSite file) =
      (ref.ancestors.flatMap fun scope => ((Site.root doc.tree).descendants.filter fun d =>
        d.hasName ref.text && scope.declares d).map (file, ·)).map meaningPtr := by
    rw [Site.visible_eq hparsed.wellFormed href, List.map_flatMap, List.map_flatMap]
    refine List.flatMap_congr fun scope _ => ?_
    rw [List.map_map]
    rfl
  show (snapshot es).index.candidates file ref = _
  rw [Store.meanings, List.map_append, ← hscopes, ← hh.named_indexOf, ← hindex] at hnodup ⊢
  rw [SymbolIndex.candidates, identifierText?_of_reference hdoc href hk]
  exact SymbolIndex.addNew_eq_append hnodup

/-- After any edits, the candidates for a reference are the pointers to everything that it denotes,
from the innermost scope outwards and then from file to file. None of them comes twice, and each
leads to its declaration in the current tree of its file. -/
theorem candidates_eq_meanings (hdoc : (snapshot es).store.document? file = some doc)
    (href : ref ∈ (Site.root doc.tree).descendants) (hk : ref.isNode .reference = true) :
    ref.identifierText? = some ref.text ∧
      (snapshot es).project.candidates file ref =
        ((snapshot es).store.meanings file doc.tree ref ref.text).map meaningPtr ∧
      List.Nodup ((snapshot es).project.candidates file ref) ∧
      ∀ m ∈ (snapshot es).store.meanings file doc.tree ref ref.text,
        (snapshot es).project.resolve? (meaningPtr m) = some m.2 := by
  have hcandidates := candidates_eq hdoc href hk
  refine ⟨identifierText?_of_reference hdoc href hk, hcandidates, ?_,
    fun m hm => resolve?_meaning hdoc hm⟩
  rw [hcandidates]
  exact nodup_map_meaningPtr hdoc ref ref.text

theorem candidates_of_superclass :
    ∃ ref ∈ (Site.root (parse "class A extends A {}").tree).descendants,
      ref.isNode .reference = true ∧ ref.text = "A" ∧
      (snapshot [.setText ⟨"A.hx"⟩ "class A extends A {}"]).project.candidates ⟨0⟩ ref =
        [⟨⟨0⟩, .classDecl, ⟨0, 20⟩⟩] := by
  have hany : ((Site.root (parse "class A extends A {}").tree).descendants.any fun ref =>
      ref.isNode .reference && ref.text == "A" &&
        ((snapshot [.setText ⟨"A.hx"⟩ "class A extends A {}"]).store.meanings ⟨0⟩
          (parse "class A extends A {}").tree ref ref.text).map meaningPtr ==
            [⟨⟨0⟩, .classDecl, ⟨0, 20⟩⟩]) = true := by
    decide +kernel
  obtain ⟨ref, href, h⟩ := List.any_eq_true.mp hany
  simp only [Bool.and_eq_true, beq_iff_eq] at h
  have hdoc : (snapshot [.setText ⟨"A.hx"⟩ "class A extends A {}"]).store.document? ⟨0⟩ =
      some (.ofParsed "class A extends A {}" (parse "class A extends A {}")) := rfl
  refine ⟨ref, href, h.1.1, h.1.2, ?_⟩
  rw [(candidates_eq_meanings hdoc href h.1.1).2.1]
  exact h.2

end Host

end ClassNav
