import ClassNav.Proofs.Navigation.Containment
import ClassNav.Proofs.Navigation.Identifier

/-!
# The token under a caret

The search for the token under a caret goes down by ranges. `Tree.TokenOver` says the same of the
leaves alone: a token is over the bytes from its start to before its end. The tokens divide the
bytes of every tree among them, also where empty nodes and empty tokens stand between them: over
each byte of the tree there is one token (`Tree.existsUnique_tokenOver`), which the search finds,
and at the end of the tree and past it there is none.

Around every token of a text there is one file, the root of the tree (`Site.enclosingFile?_eq`), so
a caret in a text has a file exactly if it stands before the end of the text.
-/

namespace ClassNav

/-- The tokens of a tree over a byte. -/
def Tree.TokenOver (t : Tree) (offset : Nat) (l : Site) : Prop :=
  l ∈ (Site.root t).descendants ∧ l.isToken = true ∧ l.span.start ≤ offset ∧ offset < l.span.stop

variable {t : Tree} {offset : Nat} {l : Site}

/-! ## One token over each byte -/

theorem Site.covers_root_iff : (Site.root t).span.covers offset = true ↔ offset < t.size := by
  rw [covers_iff, root, Nat.zero_add]
  exact and_iff_right (Nat.zero_le offset)

/-- Going down from the root towards a byte ends at the token over the byte. -/
theorem Site.leafAt?_eq_some_iff_tokenOver :
    (Site.root t).leafAt? offset = some l ↔ t.TokenOver offset l := by
  rw [leafAt?_eq_some_iff, covers_iff]
  rfl

/-- The tokens of a tree lie side by side, so each byte is in one of them. -/
theorem Tree.existsUnique_tokenOver (h : offset < t.size) : ∃! l, t.TokenOver offset l := by
  obtain ⟨l, hl⟩ := Site.exists_leafAt?_of_covers (Site.self_mem_descendants (Site.root t))
    (Site.covers_root_iff.mpr h)
  refine ⟨l, Site.leafAt?_eq_some_iff_tokenOver.mp hl, fun l' hl' => ?_⟩
  exact Option.some.inj ((Site.leafAt?_eq_some_iff_tokenOver.mpr hl').symm.trans hl)

theorem Site.leafAt?_eq_none_iff : (Site.root t).leafAt? offset = none ↔ t.size ≤ offset := by
  constructor
  · intro hnone
    refine Nat.le_of_not_lt fun hlt => ?_
    obtain ⟨l, hl, _⟩ := Tree.existsUnique_tokenOver hlt
    rw [leafAt?_eq_some_iff_tokenOver.mpr hl] at hnone
    cases hnone
  · intro hle
    rw [leafAt?, if_neg fun hcovers => Nat.not_lt.mpr hle (covers_root_iff.mp hcovers)]

/-! ## The file around a token -/

/-- The tree of a text is as long as the text. -/
theorem size_parse (text : String) : (parse text).tree.size = text.utf8ByteSize := by
  rw [Tree.size_eq_width, tokens_parse, Cursor.width_scan]

/-- The walk outwards to a file ends at the root. -/
theorem Site.enclosingFile?_eq (ht : t.Parsed) {e : Site} (he : e ∈ (Site.root t).descendants) :
    e.enclosingFile? = some (Site.root t) := by
  unfold enclosingFile? enclosing?
  refine parent_induction (P := fun e => firstWanted? _ _ e.ancestors = some (root t)) ?_ ?_ he
  · have hroot : (root t).isNode .sourceFile = true := ht.isNode
    show firstWanted? _ _ [root t] = _
    rw [firstWanted?, contains_file_role, hroot]
    rfl
  · intro q hq ih c hc
    rw [ancestors_of_parent? (parent?_of_mem_children hc), firstWanted?, contains_file_role,
      isNode_sourceFile_of_mem_children (ht.wellFormed_site hq) hc, RoleSet.contains_empty]
    exact ih

namespace Project

variable {m : Type → Type} {p : Project m} {file : FileId}
  {selection : Option (FileId × Site)}

/-! ## The element under a caret -/

theorem element?_contextAt (htree : p.tree? file = some t) :
    (p.contextAt ⟨file, offset⟩ selection).element? =
      ((Site.root t).leafAt? offset).map (file, ·) := by
  show (p.leafAt? ⟨file, offset⟩).map _ = _
  rw [leafAt?, root?, htree]
  rfl

/-- Every token of a file is in the file; behind the last one there is nothing to point at. -/
theorem file?_contextAt {text : String} (htree : p.tree? file = some (parse text).tree) :
    (p.contextAt ⟨file, offset⟩ selection).file? =
      if offset < text.utf8ByteSize then some (Site.root (parse text).tree) else none := by
  rw [Context.file?, element?_contextAt htree, ← size_parse]
  split
  · next hlt =>
    obtain ⟨l, hl, _⟩ := Tree.existsUnique_tokenOver hlt
    rw [Site.leafAt?_eq_some_iff_tokenOver.mpr hl]
    exact Site.enclosingFile?_eq ⟨text, rfl⟩ hl.1
  · next hge =>
    rw [Site.leafAt?_eq_none_iff.mpr (Nat.le_of_not_lt hge)]
    rfl

/-- In every tree there is one token over each byte, which the search for the byte finds, and at the
end of the tree and past it nothing is found. At a caret in a file with a tree, whatever is chosen
elsewhere, the element is that token, together with the file of the caret; and if the tree is that
of a text, the file is its root for each byte of the text, and else there is none. -/
theorem element?_tokenOver (p : Project m) (selection : Option (FileId × Site)) :
    (∀ t offset, (∀ l, (Site.root t).leafAt? offset = some l ↔ t.TokenOver offset l) ∧
      (offset < t.size → ∃! l, t.TokenOver offset l) ∧
      ((Site.root t).leafAt? offset = none ↔ t.size ≤ offset)) ∧
    (∀ file t offset, p.tree? file = some t →
      (∀ f l, (p.contextAt ⟨file, offset⟩ selection).element? = some (f, l) ↔
        f = file ∧ t.TokenOver offset l) ∧
      ((p.contextAt ⟨file, offset⟩ selection).element? = none ↔ t.size ≤ offset)) ∧
    ∀ file text offset, p.tree? file = some (parse text).tree →
      (p.contextAt ⟨file, offset⟩ selection).file? =
        if offset < text.utf8ByteSize then some (Site.root (parse text).tree) else none := by
  refine ⟨fun t offset => ?_, fun file t offset htree => ?_, fun file text offset => ?_⟩
  · exact ⟨fun l => Site.leafAt?_eq_some_iff_tokenOver, Tree.existsUnique_tokenOver,
      Site.leafAt?_eq_none_iff⟩
  · rw [element?_contextAt htree, Option.map_eq_none_iff, Site.leafAt?_eq_none_iff]
    refine ⟨fun f l => ?_, Iff.rfl⟩
    rw [Option.map_eq_some_iff, ← Site.leafAt?_eq_some_iff_tokenOver]
    constructor
    · rintro ⟨l', hl', ⟨⟩⟩
      exact ⟨rfl, hl'⟩
    · rintro ⟨rfl, hl⟩
      exact ⟨l, hl, rfl⟩
  · exact file?_contextAt

theorem element?_tokenOver_of_empty_neighbours :
    let word : Tree := .leaf ⟨.ident, "ab"⟩
    let t : Tree := .node .sourceFile [.leaf ⟨.error, ""⟩, word, .node .block [.leaf ⟨.error, ""⟩],
      .leaf ⟨.semicolon, ";"⟩, .node .name []]
    let p : Project Id := ⟨fun f => if f = ⟨0⟩ then some t else some (parse "class A {} é").tree,
      fun _ _ => [], fun _ _ => none⟩
    (∃ l, (p.contextAt ⟨⟨0⟩, 1⟩ none).element? = some (⟨0⟩, l) ∧ l.tree = word) ∧
    (∃ l, t.TokenOver 2 l ∧ l.tree = .leaf ⟨.semicolon, ";"⟩ ∧
      (p.contextAt ⟨⟨0⟩, 2⟩ none).element? = some (⟨0⟩, l)) ∧
    (p.contextAt ⟨⟨0⟩, 3⟩ none).element? = none ∧
    (p.contextAt ⟨⟨1⟩, 12⟩ none).file? = some (Site.root (parse "class A {} é").tree) ∧
    (p.contextAt ⟨⟨1⟩, 13⟩ none).file? = none := by
  intro word t p
  have hfirst : p.tree? ⟨0⟩ = some t := rfl
  have hsecond : p.tree? ⟨1⟩ = some (parse "class A {} é").tree := rfl
  have hsize : "class A {} é".utf8ByteSize = 13 := by decide +kernel
  have hword : (p.contextAt ⟨⟨0⟩, 1⟩ none).element?.map (fun e => (e.1, e.2.tree)) =
      some (⟨0⟩, word) := by
    decide +kernel
  have hsign : (p.contextAt ⟨⟨0⟩, 2⟩ none).element?.map (fun e => (e.1, e.2.tree)) =
      some (⟨0⟩, .leaf ⟨.semicolon, ";"⟩) := by
    decide +kernel
  obtain ⟨_, helement, hfile⟩ := p.element?_tokenOver none
  obtain ⟨⟨f, l⟩, hl, htree⟩ := Option.map_eq_some_iff.mp hword
  obtain ⟨⟨f', l'⟩, hl', htree'⟩ := Option.map_eq_some_iff.mp hsign
  obtain ⟨rfl, _⟩ := ((helement ⟨0⟩ t 1 hfirst).1 f l).mp hl
  obtain ⟨rfl, hover⟩ := ((helement ⟨0⟩ t 2 hfirst).1 f' l').mp hl'
  refine ⟨⟨l, hl, (Prod.mk.inj htree).2⟩, ⟨l', hover, (Prod.mk.inj htree').2, hl'⟩, ?_, ?_, ?_⟩
  · exact (helement ⟨0⟩ t 3 hfirst).2.mpr (by decide +kernel)
  · rw [hfile ⟨1⟩ _ 12 hsecond, hsize]
    rfl
  · rw [hfile ⟨1⟩ _ 13 hsecond, hsize]
    rfl

end Project

end ClassNav
