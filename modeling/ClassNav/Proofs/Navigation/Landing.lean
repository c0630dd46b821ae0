import ClassNav.Navigation.Context
import ClassNav.Proofs.Navigation.Caret

/-!
# Where navigation lands

Navigation goes from the identifier that a caret designates to a name: on a name it stays there
(`Host.Consistent.referenced?_of_name`), on a reference it goes to the name of the first declaration
that the reference denotes (`Host.referenced?_of_reference`). What a reference denotes has a name,
so navigation never ends on a declaration as a whole, and from any caret on the name that it lands
on it leads to that name again.
-/

namespace ClassNav

/-- A declaration has one name, so a name in it is its own. -/
theorem Site.declaredName?_of_mem_children {d n : Site} (hd : d.tree.WellFormed)
    (hn : n ∈ d.children) (hname : n.isNode .name = true) : d.declaredName? = some n := by
  obtain ⟨hnamed, hnode⟩ := nameNode?_of_mem_children hd hn hname
  rw [declaredName?, isToken_of_mem_children hn, hnamed]
  exact hnode

/-- A name or a reference is spelled by what stands in it. -/
theorem Site.spelled_by_child {q i : Site} (hq : q.tree.WellFormed) (hin : i ∈ q.children)
    (hk : q.kind = .name ∨ q.kind = .reference) : i.span = q.span ∧ i.text = q.text := by
  obtain ⟨j, hchildren, _, _, hspan, htext⟩ :=
    exists_identifier hq (isToken_of_mem_children hin) hk
  rw [hchildren, List.mem_singleton] at hin
  exact hin ▸ ⟨hspan, htext⟩

theorem Site.isMethodLike_role (s : Site) : s.role.isMethodLike = s.isNode .methodDecl := by
  obtain ⟨t, start, above⟩ := s
  cases t with
  | leaf u => rfl
  | node k cs => cases k <;> rfl

theorem Site.exists_name_of_hasName {d : Site} {x : String} (h : d.hasName x = true) :
    ∃ n ∈ d.children, n.isNode .name = true ∧ n.text = x := by
  obtain ⟨n, hn, h⟩ := List.any_eq_true.mp h
  simp only [Bool.and_eq_true, beq_iff_eq] at h
  exact ⟨n, hn, h⟩

namespace Host

/-- A caret leads to a name if the identifier that it designates stands in a name, or in a
reference that has candidates. -/
def Leads (h : Host) (pos : FilePosition) : Prop :=
  ∃ i q, h.Designates pos i ∧ i.parent? = some q ∧
    (q.isNode .name = true ∨ q.isNode .reference = true ∧ h.project.candidates pos.file q ≠ [])

/-- What an action knows at a caret, with an element chosen elsewhere. -/
def contextAt (h : Host) (pos : FilePosition) (selection : Option (FileId × Site)) : Context Id :=
  ⟨some h.project, some pos, selection⟩

variable {h : Host} {pos : FilePosition} {i n : Site} {selection : Option (FileId × Site)}

theorem referenced?_contextAt : (h.contextAt pos selection).referenced? =
    Option.map (fun target => target.declaredName?.getD target) (h.project.target? pos .all) := rfl

/-- An identifier stands in a node. -/
theorem Consistent.exists_parent (hh : h.Consistent) (hi : h.Designates pos i) :
    ∃ doc, h.store.document? pos.file = some doc ∧ ∃ q ∈ (Site.root doc.tree).descendants,
      i ∈ q.children := by
  obtain ⟨doc, hdoc, hmem, htoken, _, _⟩ := hi
  refine ⟨doc, hdoc, ?_⟩
  rcases Site.exists_parent_of_mem_descendants hmem with rfl | hparent
  · have hroot : (Site.root doc.tree).isNode .sourceFile = true := (hh.parsed _ _ hdoc).isNode
    rw [(Site.isNode_iff.mp hroot).1] at htoken
    cases htoken
  · exact hparent

/-- Whether a caret leads to a name depends on what its identifier stands in. -/
theorem Consistent.leads_iff (hh : h.Consistent) {q : Site} (hi : h.Designates pos i)
    (hin : i ∈ q.children) : h.Leads pos ↔
      q.kind = .name ∨ q.kind = .reference ∧ h.project.candidates pos.file q ≠ [] := by
  have hnode := Site.isToken_of_mem_children hin
  have hparent := Site.parent?_of_mem_children hin
  constructor
  · rintro ⟨j, r, hj, hr, hleads⟩
    obtain rfl := hh.designates_unique hi hj
    obtain rfl : q = r := Option.some.inj (hparent.symm.trans hr)
    rcases hleads with hname | ⟨href, hne⟩
    · exact .inl (Site.isNode_iff.mp hname).2
    · exact .inr ⟨(Site.isNode_iff.mp href).2, hne⟩
  · rintro (hname | ⟨href, hne⟩)
    · exact ⟨i, q, hi, hparent, .inl (Site.isNode_iff.mpr ⟨hnode, hname⟩)⟩
    · exact ⟨i, q, hi, hparent, .inr ⟨Site.isNode_iff.mpr ⟨hnode, href⟩, hne⟩⟩

/-- In a name, a caret designates the declaration around the name. -/
theorem Consistent.target?_of_name (hh : h.Consistent) (hi : h.Designates pos i)
    (hin : i ∈ n.children) (hname : n.kind = .name) :
    h.project.target? pos .all = n.parent? := by
  unfold Project.target?
  rw [hh.identAt?_eq_some_iff.mpr hi, Option.bind_some, Site.parent?_of_mem_children hin]
  simp only [hname]
  rfl

/-- In a reference, a caret designates the first candidate that can be found. -/
theorem Consistent.target?_of_reference (hh : h.Consistent) {ref : Site}
    (hi : h.Designates pos i) (hin : i ∈ ref.children) (href : ref.kind = .reference) :
    h.project.target? pos .all =
      List.findSome? h.project.resolve? (h.project.candidates pos.file ref) := by
  unfold Project.target?
  rw [hh.identAt?_eq_some_iff.mpr hi, Option.bind_some, Site.parent?_of_mem_children hin]
  simp only [href]
  rfl

/-- An identifier anywhere else designates nothing. -/
theorem Consistent.target?_of_other (hh : h.Consistent) {q : Site} (hi : h.Designates pos i)
    (hin : i ∈ q.children) (hname : q.kind ≠ .name) (href : q.kind ≠ .reference) :
    h.project.target? pos .all = none := by
  unfold Project.target?
  rw [hh.identAt?_eq_some_iff.mpr hi, Option.bind_some, Site.parent?_of_mem_children hin]
  simp only
  rfl

/-- On a name, navigation stays. -/
theorem Consistent.referenced?_of_name (hh : h.Consistent) {file : FileId} {doc : Document}
    (hdoc : h.store.document? file = some doc) (hn : n ∈ (Site.root doc.tree).descendants)
    (hname : n.isNode .name = true) {q : Nat} (hstart : n.span.start ≤ q)
    (hstop : q ≤ n.span.stop) :
    (h.contextAt ⟨file, q⟩ selection).referenced? = some n := by
  have hparsed := hh.parsed file doc hdoc
  obtain ⟨hnode, hkind⟩ := Site.isNode_iff.mp hname
  obtain ⟨i, hchildren, htoken, hident, hspan, _⟩ :=
    Site.exists_identifier (hparsed.wellFormed_site hn) hnode (.inl hkind)
  have hin : i ∈ n.children := by
    rw [hchildren]
    exact List.mem_singleton_self i
  have hi : h.Designates ⟨file, q⟩ i := by
    refine ⟨doc, hdoc, ?_, htoken, hident, hspan ▸ hstart, hspan ▸ hstop⟩
    exact Site.mem_descendants_trans (Site.mem_descendants_of_mem_children hin) hn
  rw [referenced?_contextAt, hh.target?_of_name hi hin hkind]
  rcases Site.exists_parent_of_mem_descendants hn with rfl | ⟨d, hd, hnd⟩
  · have hroot : (Site.root doc.tree).isNode .sourceFile = true := hparsed.isNode
    rw [(Site.isNode_iff.mp hroot).2] at hkind
    cases hkind
  · rw [Site.parent?_of_mem_children hnd, Option.map_some,
      Site.declaredName?_of_mem_children (hparsed.wellFormed_site hd) hnd hname, Option.getD_some]

/-- On a reference, navigation goes to the name of a declaration that the reference denotes, if it
denotes any. -/
theorem referenced?_of_reference {es : List Edit} {doc : Document} {ref : Site}
    (hdoc : (snapshot es).store.document? pos.file = some doc)
    (href : ref ∈ (Site.root doc.tree).descendants) (hi : (snapshot es).Designates pos i)
    (hin : i ∈ ref.children) (hkind : ref.kind = .reference) :
    ((snapshot es).project.candidates pos.file ref = [] ∧
      ((snapshot es).contextAt pos selection).referenced? = none) ∨
    ((snapshot es).project.candidates pos.file ref ≠ [] ∧
      ∃ file doc n, (snapshot es).store.document? file = some doc ∧
        n ∈ (Site.root doc.tree).descendants ∧ n.isNode .name = true ∧ n.text = ref.text ∧
        ((snapshot es).contextAt pos selection).referenced? = some n) := by
  have hh := consistent_snapshot es
  have hk : ref.isNode .reference = true :=
    Site.isNode_iff.mpr ⟨Site.isToken_of_mem_children hin, hkind⟩
  rw [referenced?_contextAt, hh.target?_of_reference hi hin hkind, candidates_eq hdoc href hk]
  cases hmeanings : (snapshot es).store.meanings pos.file doc.tree ref ref.text with
  | nil => exact .inl ⟨rfl, rfl⟩
  | cons m ms =>
    have hm : m ∈ (snapshot es).store.meanings pos.file doc.tree ref ref.text := by
      rw [hmeanings]
      exact List.mem_cons_self
    -- The first meaning has the name, and its pointer leads back to it.
    obtain ⟨doc', hdoc', hd, _, _⟩ := Store.declaration_of_mem_meanings hdoc hm
    have hname : m.2.hasName ref.text = true := by
      rcases Store.mem_meanings.mp hm with ⟨_, _, _, _, hname, _⟩ | hclass
      · exact hname
      · obtain ⟨_, _, _, hname, _, _⟩ := Store.mem_classesNamed.mp hclass
        exact hname
    obtain ⟨n, hn, hnode, htext⟩ := Site.exists_name_of_hasName hname
    have hwf := (hh.parsed _ _ hdoc').wellFormed_site hd
    refine .inr ⟨nofun, m.1, doc', n, hdoc',
      Site.mem_descendants_trans (Site.mem_descendants_of_mem_children hn) hd, hnode, htext, ?_⟩
    rw [List.map_cons, List.findSome?_cons, resolve?_meaning hdoc hm]
    simp only [Option.map_some, Site.declaredName?_of_mem_children hwf hn hnode, Option.getD_some]

/-- Navigation finds nothing, or a name that spells the designated identifier. -/
theorem referenced?_cases (es : List Edit) (pos : FilePosition)
    (selection : Option (FileId × Site)) :
    (((snapshot es).contextAt pos selection).referenced? = none ∧ ¬ (snapshot es).Leads pos) ∨
    ((snapshot es).Leads pos ∧ ∃ file doc n i, (snapshot es).store.document? file = some doc ∧
      n ∈ (Site.root doc.tree).descendants ∧ n.isNode .name = true ∧
      (snapshot es).Designates pos i ∧ n.text = i.text ∧
      ((snapshot es).contextAt pos selection).referenced? = some n) := by
  have hh := consistent_snapshot es
  cases hident : (snapshot es).project.identAt? pos with
  | none =>
    refine .inl ⟨?_, ?_⟩
    · rw [referenced?_contextAt, Project.target?, hident]
      rfl
    · rintro ⟨i, _, hi, _⟩
      rw [hh.identAt?_eq_some_iff.mpr hi] at hident
      cases hident
  | some i =>
    have hi := hh.identAt?_eq_some_iff.mp hident
    obtain ⟨doc, hdoc, q, hq, hin⟩ := hh.exists_parent hi
    have hwf := (hh.parsed _ _ hdoc).wellFormed_site hq
    rw [hh.leads_iff hi hin]
    -- The identifier stands in a name, in a reference, or in neither.
    by_cases hname : q.kind = .name
    · obtain ⟨hspan, htext⟩ := Site.spelled_by_child hwf hin (.inl hname)
      have hq' : q.isNode .name = true :=
        Site.isNode_iff.mpr ⟨Site.isToken_of_mem_children hin, hname⟩
      have ⟨_, _, _, _, _, hstart, hstop⟩ := hi
      refine .inr ⟨.inl hname, pos.file, doc, q, i, hdoc, hq, hq', hi, htext.symm, ?_⟩
      exact hh.referenced?_of_name hdoc hq hq' (hspan ▸ hstart) (hspan ▸ hstop)
    · by_cases href : q.kind = .reference
      · rcases referenced?_of_reference hdoc hq hi hin href with ⟨hnil, hnone⟩ |
          ⟨hne, file, doc', n, hdoc', hn, hnname, htext, hsome⟩
        · refine .inl ⟨hnone, ?_⟩
          rintro (h | ⟨_, h⟩)
          · exact hname h
          · exact h hnil
        · have hspelled := (Site.spelled_by_child hwf hin (.inr href)).2
          exact .inr ⟨.inr ⟨href, hne⟩, file, doc', n, i, hdoc', hn, hnname, hi,
            htext.trans hspelled.symm, hsome⟩
      · refine .inl ⟨?_, ?_⟩
        · rw [referenced?_contextAt, hh.target?_of_other hi hin hname href]
          rfl
        · rintro (h | ⟨h, _⟩)
          · exact hname h
          · exact href h

/-- The name that was found belongs to a method exactly if that is its parent. -/
theorem method?_contextAt (hn : (h.contextAt pos selection).referenced? = some n) {m : Site} :
    (h.contextAt pos selection).method? = some m ↔
      n.parent? = some m ∧ m.isNode .methodDecl = true := by
  have hmethod : (h.contextAt pos selection).method? =
      n.parent?.filter (·.role.isMethodLike) := by
    show (Option.bind ((h.contextAt pos selection).referenced?) Site.parent?).filter _ = _
    rw [hn]
    rfl
  rw [hmethod, Option.filter_eq_some_iff, Site.isMethodLike_role]

/-- After any edits, navigation from a caret finds something exactly if the caret leads to a name.
What it finds is a name of a stored document, spelled like the one identifier that the caret
designates; from every caret on that name navigation finds the name again. It has found a method
exactly if the name is that of the method. -/
theorem referenced?_landing (es : List Edit) (pos : FilePosition)
    (selection : Option (FileId × Site)) :
    (∀ n, ((snapshot es).contextAt pos selection).referenced? = some n →
      (∃ file doc, (snapshot es).store.document? file = some doc ∧
        n ∈ (Site.root doc.tree).descendants ∧ n.isNode .name = true ∧
        ∀ q, n.span.start ≤ q → q ≤ n.span.stop →
          ((snapshot es).contextAt ⟨file, q⟩ selection).referenced? = some n) ∧
      (∃ i, (∀ j, (snapshot es).Designates pos j ↔ j = i) ∧ n.text = i.text) ∧
      ∀ m, ((snapshot es).contextAt pos selection).method? = some m ↔
        n.parent? = some m ∧ m.isNode .methodDecl = true) ∧
    (Option.isSome ((snapshot es).contextAt pos selection).referenced? = true ↔
      (snapshot es).Leads pos) := by
  have hh := consistent_snapshot es
  rcases referenced?_cases es pos selection with ⟨hnone, hleads⟩ |
    ⟨hleads, file, doc, n, i, hdoc, hn, hname, hi, htext, hsome⟩
  · rw [hnone]
    exact ⟨nofun, nofun, fun h => absurd h hleads⟩
  · refine ⟨?_, by rw [hsome]; exact ⟨fun _ => hleads, fun _ => rfl⟩⟩
    intro n' hn'
    obtain rfl : n = n' := Option.some.inj (hsome.symm.trans hn')
    refine ⟨⟨file, doc, hdoc, hn, hname, ?_⟩, ⟨i, ?_, htext⟩, fun m => method?_contextAt hsome⟩
    · exact fun q hstart hstop => hh.referenced?_of_name hdoc hn hname hstart hstop
    · exact fun j => ⟨fun hj => hh.designates_unique hj hi, fun hj => hj ▸ hi⟩

theorem referenced?_of_superclass :
    ∃ n file, ((snapshot [.setText ⟨"A.hx"⟩ "class A extends A {}"]).contextAt
        ⟨⟨0⟩, 16⟩ none).referenced? = some n ∧ n.isNode .name = true ∧
      ∀ q, n.span.start ≤ q → q ≤ n.span.stop →
        ((snapshot [.setText ⟨"A.hx"⟩ "class A extends A {}"]).contextAt
          ⟨file, q⟩ none).referenced? = some n := by
  have hsome : Option.isSome ((snapshot [.setText ⟨"A.hx"⟩ "class A extends A {}"]).contextAt
      ⟨⟨0⟩, 16⟩ none).referenced? = true := by
    decide +kernel
  obtain ⟨n, hn⟩ := Option.isSome_iff_exists.mp hsome
  obtain ⟨⟨file, _, _, _, hname, hagain⟩, _⟩ := (referenced?_landing _ _ _).1 n hn
  exact ⟨n, file, hn, hname, hagain⟩

end Host

end ClassNav
