import ClassNav.Navigation.Project
import ClassNav.Proofs.Symbols.DeclPtr

/-!
# From a reference to the first class

`Project.classOf?` starts from a reference and looks through all candidates for it,
`Project.classOfIdentifier?` starts from the identifier in a reference and treats a single candidate
by itself. A project may answer anything: pointers into trees that have changed since, into files
that are gone, or the same one many times. Still a pointer leads to a node of the pointer's kind or
nowhere (`Project.resolve?_fits`), so whether a candidate is a class is known before it is looked
up, and both ways give the class behind the first candidate that is one and can be found
(`Project.classOfIdentifier?_eq_classOf?`).
-/

namespace ClassNav

namespace Project

variable {m : Type → Type} {p : Project m} {ptr : DeclPtr} {s : Site}

/-- The class behind the first of some pointers that has the kind of a class and leads to a node. -/
def firstFound? (p : Project m) (ptrs : List DeclPtr) : Option Site :=
  (ptrs.find? fun ptr => ptr.kind.isClassLike && (p.resolve? ptr).isSome).bind p.resolve?

/-- Whatever tree a file has, a pointer leads to a node of its kind. -/
theorem resolve?_fits (h : p.resolve? ptr = some s) : s.isToken = false ∧ s.kind = ptr.kind := by
  obtain ⟨r, hr, hs⟩ := Option.bind_eq_some_iff.mp h
  obtain ⟨t, _, rfl⟩ := Option.map_eq_some_iff.mp hr
  obtain ⟨_, hnode, hkind, _⟩ := DeclPtr.resolve?_fits hs
  exact ⟨hnode, hkind⟩

/-- A pointer with the kind of a class never leads to anything else. -/
theorem isClassLike_of_resolve? (h : p.resolve? ptr = some s) :
    s.isClassLike = ptr.kind.isClassLike := by
  obtain ⟨hnode, hkind⟩ := resolve?_fits h
  rw [Site.isClassLike, hnode, hkind]
  rfl

/-- A pointer leads to a class exactly if it has the kind of one and leads to a node. -/
theorem resolve?_bind_asClass? (p : Project m) (ptr : DeclPtr) :
    (p.resolve? ptr).bind Site.asClass? =
      if ptr.kind.isClassLike then p.resolve? ptr else none := by
  cases h : p.resolve? ptr with
  | none => simp
  | some s =>
    rw [Option.bind_some, Site.asClass?, isClassLike_of_resolve? h]

theorem firstFound?_cons (p : Project m) (ptr : DeclPtr) (ptrs : List DeclPtr) :
    p.firstFound? (ptr :: ptrs) =
      ((p.resolve? ptr).bind Site.asClass?).or (p.firstFound? ptrs) := by
  rw [resolve?_bind_asClass?, firstFound?, List.find?_cons]
  cases hclass : ptr.kind.isClassLike with
  | false => rfl
  | true =>
    cases hfound : p.resolve? ptr with
    | none => rfl
    | some s => exact hfound

/-- Candidates are tried in order, and one that leads nowhere is passed over. -/
theorem firstClass?_cons (p : Project m) (ptr : DeclPtr) (ptrs : List DeclPtr) :
    p.firstClass? (ptr :: ptrs) =
      ((p.resolve? ptr).bind Site.asClass?).or (p.firstClass? ptrs) := by
  rw [firstClass?, List.filter_cons, DeclPtr.role, Kind.isClassLike_ofKind]
  cases hclass : ptr.kind.isClassLike with
  | false =>
    rw [resolve?_bind_asClass?, hclass]
    rfl
  | true =>
    rw [if_pos rfl, List.findSome?_cons]
    cases hfound : p.resolve? ptr with
    | none => rfl
    | some s =>
      rw [Option.bind_some, Site.asClass?, isClassLike_of_resolve? hfound, hclass]
      rfl

/-- To keep the classes among the candidates and look these up, or to look for the first candidate
that passes both tests, is the same. -/
theorem firstClass?_eq_firstFound? (p : Project m) : p.firstClass? = p.firstFound? := by
  funext ptrs
  induction ptrs with
  | nil => rfl
  | cons ptr ptrs ih => rw [firstClass?_cons, firstFound?_cons, ih]

/-- A single candidate needs no treatment of its own. -/
theorem chooseClass?_eq_firstClass? (p : Project m) : p.chooseClass? = p.firstClass? := by
  funext ptrs
  unfold chooseClass?
  split
  · rfl
  · next ptr =>
    rw [firstClass?_cons]
    exact (Option.or_none).symm
  · rfl

theorem isClassLike_of_firstFound? {ptrs : List DeclPtr} (h : p.firstFound? ptrs = some s) :
    s.isClassLike = true := by
  obtain ⟨ptr, hfind, hs⟩ := Option.bind_eq_some_iff.mp h
  have hboth : (ptr.kind.isClassLike && (p.resolve? ptr).isSome) = true := by
    simpa using List.find?_some hfind
  rw [isClassLike_of_resolve? hs]
  exact (Bool.and_eq_true_iff.mp hboth).1

variable [Monad m] {ident ref : Site}

/-- The candidates of a reference are searched for the first class that can be found. -/
theorem classOf?_eq_firstFound? (p : Project m) (file : FileId) (hin : ident ∈ ref.children)
    (htoken : ident.isToken = true) (hident : ident.kind = .ident) :
    p.classOf? file ref = p.firstFound? <$> p.candidates file ref := by
  have hsome : ref.identifier?.isSome = true :=
    List.find?_isSome.mpr ⟨ident, hin, by rw [htoken, hident]; rfl⟩
  obtain ⟨i, hi⟩ := Option.isSome_iff_exists.mp hsome
  rw [classOf?, hi, firstClass?_eq_firstFound?]

/-- A single candidate is no special case: it is found if it is a class, just as the first of
several. -/
theorem classOfIdentifier?_eq_firstFound? (p : Project m) (file : FileId)
    (hin : ident ∈ ref.children) (hident : ident.kind = .ident)
    (href : ref.isNode .reference = true) :
    p.classOfIdentifier? file ident = p.firstFound? <$> p.candidates file ref := by
  have hparent : ident.parent?.filter (Site.isNode .reference) = some ref := by
    rw [Site.parent?_of_mem_children hin, Option.filter_some, if_pos href]
  rw [classOfIdentifier?, hident, hparent, ← firstClass?_eq_firstFound?,
    ← chooseClass?_eq_firstClass?]

/-- Whatever trees a project has and whatever it answers, an identifier that stands in a reference
denotes the same class as the reference: the class behind the first candidate that is a class and
can be found, and nothing if there is no such candidate. -/
theorem classOfIdentifier?_eq_classOf? (p : Project m) (file : FileId)
    (hin : ident ∈ ref.children) (htoken : ident.isToken = true) (hident : ident.kind = .ident)
    (href : ref.isNode .reference = true) :
    p.classOfIdentifier? file ident = p.classOf? file ref ∧
      p.classOf? file ref = p.firstFound? <$> p.candidates file ref ∧
      ∀ ptrs c, p.firstFound? ptrs = some c → c.isClassLike = true := by
  have hreference := p.classOf?_eq_firstFound? file hin htoken hident
  have hidentifier := p.classOfIdentifier?_eq_firstFound? file hin hident href
  exact ⟨hidentifier.trans hreference.symm, hreference, fun _ _ => isClassLike_of_firstFound?⟩

/-- The candidates are a variable, a class that is not there any more, one of a missing file, and a
class, twice. -/
theorem classOfIdentifier?_of_stale_candidates :
    let t := (parse "class A { var x:X; } class B {}").tree
    let ptrs : List DeclPtr := [⟨⟨0⟩, .varDecl, ⟨10, 18⟩⟩, ⟨⟨0⟩, .classDecl, ⟨0, 10⟩⟩,
      ⟨⟨1⟩, .classDecl, ⟨0, 20⟩⟩, ⟨⟨0⟩, .classDecl, ⟨21, 31⟩⟩, ⟨⟨0⟩, .classDecl, ⟨21, 31⟩⟩]
    let p : Project Id :=
      ⟨fun f => if f = ⟨0⟩ then some t else none, fun _ _ => ptrs, fun _ _ => none⟩
    ∃ ident ref, ident ∈ ref.children ∧ ident.isToken = true ∧ ident.kind = .ident ∧
      ref.isNode .reference = true ∧ p.classOfIdentifier? ⟨0⟩ ident = p.classOf? ⟨0⟩ ref ∧
      (p.classOf? ⟨0⟩ ref).map Site.span = some ⟨21, 31⟩ := by
  intro t ptrs p
  have hany : ((Site.root t).descendants.any fun ref => ref.isNode .reference &&
      ref.children.any fun ident => ident.isToken && ident.kind == .ident) = true := by
    decide +kernel
  have hspan : (p.firstFound? ptrs).map Site.span = some ⟨21, 31⟩ := by decide +kernel
  obtain ⟨ref, _, href⟩ := List.any_eq_true.mp hany
  obtain ⟨href, hchild⟩ := Bool.and_eq_true_iff.mp href
  obtain ⟨ident, hin, hident⟩ := List.any_eq_true.mp hchild
  simp only [Bool.and_eq_true, beq_iff_eq] at hident
  obtain ⟨hsame, hfirst, _⟩ :=
    p.classOfIdentifier?_eq_classOf? ⟨0⟩ hin hident.1 hident.2 href
  refine ⟨ident, ref, hin, hident.1, hident.2, href, hsame, ?_⟩
  rw [hfirst]
  exact hspan

end Project

end ClassNav
