import ClassNav.Navigation.Context
import ClassNav.Proofs.Navigation.Caret

/-!
# Carets on one identifier

All that a query takes from a caret is the file and the identifier there
(`Project.target?_of_identAt?_eq`). A caret that stands in an identifier, or at one of its ends,
designates this identifier and no other. So it does not matter where on an identifier a caret
stands: whatever the project answers about references, navigation finds the same
(`Project.answers_alike_of_identifierAt`).
-/

namespace ClassNav

namespace Project

/-- What an action knows in a project, at a caret, with an element chosen elsewhere. -/
def contextAt {m : Type → Type} (p : Project m) (pos : FilePosition)
    (selection : Option (FileId × Site)) : Context m :=
  ⟨some p, some pos, selection⟩

variable {m : Type → Type} [Monad m] {p : Project m} {file : FileId} {a b : Nat}

/-- What a caret designates depends on its file and on the identifier there. -/
theorem target?_of_identAt?_eq (h : p.identAt? ⟨file, a⟩ = p.identAt? ⟨file, b⟩)
    (flags : TargetFlags) : p.target? ⟨file, a⟩ flags = p.target? ⟨file, b⟩ flags := by
  unfold target?
  rw [h]

/-- The designated name depends on the identifier at the caret and on nothing else of it. -/
theorem referenced?_of_identAt?_eq (h : p.identAt? ⟨file, a⟩ = p.identAt? ⟨file, b⟩)
    (selection : Option (FileId × Site)) :
    (p.contextAt ⟨file, a⟩ selection).referenced? =
      (p.contextAt ⟨file, b⟩ selection).referenced? := by
  show _ <$> p.target? ⟨file, a⟩ .all = _ <$> p.target? ⟨file, b⟩ .all
  rw [target?_of_identAt?_eq h]

theorem method?_of_identAt?_eq (h : p.identAt? ⟨file, a⟩ = p.identAt? ⟨file, b⟩)
    (selection : Option (FileId × Site)) :
    (p.contextAt ⟨file, a⟩ selection).method? = (p.contextAt ⟨file, b⟩ selection).method? := by
  rw [Context.method?, Context.method?, referenced?_of_identAt?_eq h]

/-- In a project that has the tree of a text, a caret touches at most one identifier of it, which is
the one that the search finds; where it touches none, none is found. At all carets that touch the
same identifier, from its start to its end, each query has the same answer. -/
theorem answers_alike_of_identifierAt (p : Project m) {file : FileId} {text : String}
    (htree : p.tree? file = some (parse text).tree) :
    (∀ offset i j, (parse text).tree.IdentifierAt offset i →
      (parse text).tree.IdentifierAt offset j → i = j) ∧
    (∀ offset, (∀ i, p.identAt? ⟨file, offset⟩ = some i ↔
        (parse text).tree.IdentifierAt offset i) ∧
      (p.identAt? ⟨file, offset⟩ = none ↔ ¬ ∃ i, (parse text).tree.IdentifierAt offset i)) ∧
    ∀ i a b, (parse text).tree.IdentifierAt a i → (parse text).tree.IdentifierAt b i →
      (∀ flags, p.target? ⟨file, a⟩ flags = p.target? ⟨file, b⟩ flags) ∧
      ∀ selection,
        (p.contextAt ⟨file, a⟩ selection).referenced? =
          (p.contextAt ⟨file, b⟩ selection).referenced? ∧
        (p.contextAt ⟨file, a⟩ selection).method? =
          (p.contextAt ⟨file, b⟩ selection).method? := by
  have hroot : p.root? file = some (Site.root (parse text).tree) := by
    rw [root?, htree, Option.map_some]
  have hident : ∀ {offset i}, p.identAt? ⟨file, offset⟩ = some i ↔
      (parse text).tree.IdentifierAt offset i := identAt?_eq_some_iff ⟨text, rfl⟩ hroot
  refine ⟨fun offset i j hi hj => ?_, fun offset => ⟨fun i => hident, ?_⟩, fun i a b ha hb => ?_⟩
  · exact Option.some.inj ((hident.mpr hi).symm.trans (hident.mpr hj))
  · rw [Option.eq_none_iff_forall_ne_some, not_exists]
    exact forall_congr' fun i => not_congr hident
  · have hsame : p.identAt? ⟨file, a⟩ = p.identAt? ⟨file, b⟩ :=
      (hident.mpr ha).trans (hident.mpr hb).symm
    exact ⟨target?_of_identAt?_eq hsame, fun selection =>
      ⟨referenced?_of_identAt?_eq hsame selection, method?_of_identAt?_eq hsame selection⟩⟩

theorem answers_alike_of_both_ends :
    let p := (Host.snapshot [.setText ⟨"A.hx"⟩ "class Abc extends Abc{}"]).project
    ∃ i, p.identAt? ⟨⟨0⟩, 18⟩ = some i ∧ i.span = ⟨18, 21⟩ ∧
      Option.isSome (p.target? ⟨⟨0⟩, 18⟩ .all) = true ∧
      p.target? ⟨⟨0⟩, 18⟩ .all = p.target? ⟨⟨0⟩, 21⟩ .all := by
  intro p
  have hspan : (p.identAt? ⟨⟨0⟩, 18⟩).map Site.span = some ⟨18, 21⟩ := by decide +kernel
  have htarget : Option.isSome (p.target? ⟨⟨0⟩, 18⟩ .all) = true := by decide +kernel
  have htree : p.tree? ⟨0⟩ = some (parse "class Abc extends Abc{}").tree := by decide +kernel
  obtain ⟨i, hi, hspan⟩ := Option.map_eq_some_iff.mp hspan
  obtain ⟨_, hfound, halike⟩ := p.answers_alike_of_identifierAt htree
  have hstart := ((hfound 18).1 i).mp hi
  have ⟨hmem, htoken, hkind, _, _⟩ := hstart
  have hend : Tree.IdentifierAt (parse "class Abc extends Abc{}").tree 21 i :=
    ⟨hmem, htoken, hkind, by rw [hspan]; decide, by rw [hspan]⟩
  exact ⟨i, hi, hspan, htarget, (halike i 18 21 hstart hend).1 .all⟩

end Project

end ClassNav
