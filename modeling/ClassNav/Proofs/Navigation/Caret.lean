import ClassNav.Navigation.Caret
import ClassNav.Proofs.Symbols.Resolution

/-!
# The identifier at a caret

A caret touches a token if it stands in it or at one of its ends. `Tree.IdentifierAt` says which
identifier a caret designates: the one that it touches. There is at most one, since two identifiers
never stand side by side (`Tree.Parsed.not_touching`), and it is the one that the search for it
finds, in every project that has the tree (`Project.identAt?_eq_some_iff`). `Host.Designates` is the
same for a caret in a document of a host.
-/

namespace ClassNav

/-! ## Tokens and their places -/

namespace Token

/-- Tokens with the bytes they start at, the first at byte `start`. -/
def spread (start : Nat) : List Token → List (Nat × Token)
  | [] => []
  | t :: ts => (start, t) :: spread (start + t.size) ts

theorem spread_append (start : Nat) (ts us : List Token) :
    spread start (ts ++ us) = spread start ts ++ spread (start + Cursor.width ts) us := by
  induction ts generalizing start with
  | nil => rfl
  | cons t ts ih =>
    rw [List.cons_append, spread, spread, List.cons_append, ih, Cursor.width, Nat.add_assoc]

variable {start a b : Nat} {ts : List Token} {t u : Token}

theorem le_of_mem_spread (h : (a, t) ∈ spread start ts) : start ≤ a := by
  induction ts generalizing start with
  | nil => cases h
  | cons v ts ih =>
    rcases List.mem_cons.mp h with h | h
    · cases h
      exact Nat.le_refl a
    · have hle := ih h
      omega

/-- A token that starts where another ends comes next, unless some token is empty. -/
theorem related_of_touching {R : Token → Token → Prop} (hpos : ∀ v ∈ ts, 0 < v.size)
    (hchain : ts.IsChain R) (ha : (a, t) ∈ spread start ts) (hb : (b, u) ∈ spread start ts)
    (hab : a + t.size = b) : R t u := by
  induction ts generalizing start with
  | nil => cases ha
  | cons v ts ih =>
    have hv := hpos v List.mem_cons_self
    rcases List.mem_cons.mp ha with hfirst | ha
    · cases hfirst
      rcases List.mem_cons.mp hb with hfirst | hb
      · cases hfirst
        omega
      · cases ts with
        | nil => cases hb
        | cons w ts =>
          rcases List.mem_cons.mp hb with hsecond | hb
          · cases hsecond
            exact (List.isChain_cons_cons.mp hchain).1
          -- The token in between is not empty, so that this one starts further on.
          · have hle := le_of_mem_spread hb
            have hw := hpos w (List.mem_cons_of_mem _ List.mem_cons_self)
            omega
    · have hlater := le_of_mem_spread ha
      rcases List.mem_cons.mp hb with hfirst | hb
      · cases hfirst
        omega
      · exact ih (fun v hv => hpos v (List.mem_cons_of_mem _ hv)) hchain.tail ha hb

end Token

theorem Cursor.width_append (ts us : List Token) : width (ts ++ us) = width ts + width us := by
  induction ts with
  | nil => exact (Nat.zero_add _).symm
  | cons t ts ih => rw [List.cons_append, width, width, ih, Nat.add_assoc]

theorem Cursor.width_eq (ts : List Token) :
    width ts = (String.join (ts.map Token.text)).utf8ByteSize := by
  induction ts with
  | nil => rfl
  | cons t ts ih =>
    rw [width, ih, List.map_cons, String.join_cons, String.utf8ByteSize_append, Token.size]

/-- The tokens of a text are as long as the text. -/
theorem Cursor.width_scan (text : String) : width (Token.scan text) = text.utf8ByteSize := by
  rw [width_eq, Token.join_text_scan]

mutual

theorem Tree.size_eq_width : (t : Tree) → t.size = Cursor.width t.tokens
  | .leaf t => by simp [Tree.size, Tree.tokens, Cursor.width]
  | .node k cs => by rw [Tree.size, Tree.tokens, Tree.forestSize_eq_width cs]

theorem Tree.forestSize_eq_width : (ts : List Tree) →
    Tree.forestSize ts = Cursor.width (Tree.forestTokens ts)
  | [] => by simp [Tree.forestSize, Tree.forestTokens, Cursor.width]
  | t :: ts => by
    rw [Tree.forestSize, Tree.forestTokens, Cursor.width_append, Tree.size_eq_width t,
      Tree.forestSize_eq_width ts]

end

namespace Site

variable {s e c : Site} {u : Token}

/-- A token has one place, seen from its own tree or from the row that this is in. -/
theorem mem_spread_of_mem_row {above : List Step} {step : Step} {start : Nat} {ts : List Tree}
    (hc : c ∈ row above step start ts) {p : Nat × Token}
    (hp : p ∈ Token.spread c.start c.tree.tokens) :
    p ∈ Token.spread start (Tree.forestTokens ts) := by
  induction ts generalizing step start with
  | nil => cases hc
  | cons t ts ih =>
    rw [Tree.forestTokens, Token.spread_append, List.mem_append, ← Tree.size_eq_width]
    rcases List.mem_cons.mp hc with rfl | hc
    · exact .inl hp
    · exact .inr (ih hc)

/-- Every token of a tree stands where the tokens before it end. -/
theorem mem_spread (he : e ∈ s.descendants) (hleaf : e.tree = .leaf u) :
    (e.start, u) ∈ Token.spread s.start s.tree.tokens := by
  induction s using children_induction with
  | h s ih =>
    rcases mem_descendants_iff.mp he with rfl | ⟨c, hc, he⟩
    · rw [hleaf, Tree.tokens]
      exact List.mem_singleton_self _
    · rw [tree_eq_node (isToken_of_mem_children hc), Tree.tokens]
      exact mem_spread_of_mem_row hc (ih c hc he)

end Site

/-- Two identifiers never stand side by side. -/
theorem Tree.Parsed.not_touching {t : Tree} (ht : t.Parsed) {i j : Site}
    (hi : i ∈ (Site.root t).descendants) (hj : j ∈ (Site.root t).descendants)
    (hitoken : i.isToken = true) (hjtoken : j.isToken = true) (hikind : i.kind = .ident)
    (hjkind : j.kind = .ident) : i.start + i.tree.size ≠ j.start := by
  intro htouch
  obtain ⟨u, hu, hukind⟩ := Site.exists_leaf hitoken
  obtain ⟨v, hv, hvkind⟩ := Site.exists_leaf hjtoken
  rw [hu, Tree.size] at htouch
  have hchain : t.tokens.IsChain fun a b => ¬ (a.kind = .ident ∧ b.kind = .ident) := by
    obtain ⟨text, rfl⟩ := ht
    rw [tokens_parse]
    exact Token.not_ident_ident_scan text
  exact Token.related_of_touching ht.solid hchain (Site.mem_spread hi hu) (Site.mem_spread hj hv)
    htouch ⟨hukind.trans hikind, hvkind.trans hjkind⟩

/-- No identifier stands over the byte after an identifier. -/
theorem Tree.Parsed.not_covers_stop {t : Tree} (ht : t.Parsed) {i j : Site}
    (hi : i ∈ (Site.root t).descendants) (hj : j ∈ (Site.root t).descendants)
    (hitoken : i.isToken = true) (hjtoken : j.isToken = true) (hikind : i.kind = .ident)
    (hjkind : j.kind = .ident) : ¬ j.span.covers (i.start + i.tree.size) = true := by
  intro hcovers
  have hspan := Site.covers_iff.mp hcovers
  have hpos := Site.size_pos_of_isToken (ht.solid_site hi) hitoken
  have htouch := ht.not_touching hi hj hitoken hjtoken hikind hjkind
  -- The other identifier does not start there, so both stand over the byte before.
  have hiover : (Site.root t).leafAt? (i.start + i.tree.size - 1) = some i :=
    Site.leafAt?_eq_some_iff.mpr ⟨hi, hitoken, Site.covers_iff.mpr (by omega)⟩
  have hjover : (Site.root t).leafAt? (i.start + i.tree.size - 1) = some j :=
    Site.leafAt?_eq_some_iff.mpr ⟨hj, hjtoken, Site.covers_iff.mpr (by omega)⟩
  obtain rfl : i = j := Option.some.inj (hiover.symm.trans hjover)
  exact Nat.lt_irrefl _ hspan.2

/-! ## What a caret designates -/

/-- The identifiers that a caret touches at a byte of a tree: those it stands in, and those it
stands at the start or at the end of. -/
def Tree.IdentifierAt (t : Tree) (offset : Nat) (i : Site) : Prop :=
  i ∈ (Site.root t).descendants ∧ i.isToken = true ∧ i.kind = .ident ∧
    i.span.start ≤ offset ∧ offset ≤ i.span.stop

namespace Project

variable {m : Type → Type} {p : Project m} {pos : FilePosition} {t : Tree} {i : Site}

theorem leafAt?_of_root? {r : Site} (hroot : p.root? pos.file = some r) :
    p.leafAt? pos = r.leafAt? pos.offset := by
  rw [leafAt?, hroot, Option.bind_some]

/-- The token under a caret is the one that has the byte behind the caret. -/
theorem leafAt?_eq_some_iff (hroot : p.root? pos.file = some (Site.root t)) :
    p.leafAt? pos = some i ↔ i ∈ (Site.root t).descendants ∧ i.isToken = true ∧
      i.span.covers pos.offset = true := by
  rw [leafAt?_of_root? hroot]
  exact Site.leafAt?_eq_some_iff

theorem identAt?_of_root?_eq_none (hroot : p.root? pos.file = none) : p.identAt? pos = none := by
  have hbefore : p.identBefore? pos = none := by
    unfold identBefore?
    split
    · rfl
    · rw [leafAt?, hroot]
      rfl
  rw [identAt?, hbefore, leafAt?, hroot]
  rfl

/-- What is found before a caret is the identifier that ends there. -/
theorem identBefore?_eq_some_iff (ht : t.Parsed)
    (hroot : p.root? pos.file = some (Site.root t)) :
    p.identBefore? pos = some i ↔ t.IdentifierAt pos.offset i ∧ i.span.stop = pos.offset := by
  unfold identBefore?
  split
  · next hzero =>
    refine ⟨nofun, fun ⟨⟨hi, htoken, _⟩, hstop⟩ => ?_⟩
    have hpos := Site.size_pos_of_isToken (ht.solid_site hi) htoken
    simp only [Site.span] at hstop
    omega
  · next before hoffset =>
    have hleaf : p.leafAt? ⟨pos.file, before⟩ = some i ↔ _ := leafAt?_eq_some_iff hroot
    rw [Option.filter_eq_some_iff, hleaf, Site.covers_iff, Bool.and_eq_true, beq_iff_eq]
    constructor
    · rintro ⟨⟨hi, htoken, hstart, _⟩, hident, hstop⟩
      refine ⟨⟨hi, htoken, eq_of_beq hident, ?_, Nat.le_of_eq hstop.symm⟩, hstop⟩
      rw [hoffset]
      exact Nat.le_succ_of_le hstart
    · rintro ⟨⟨hi, htoken, hident, _, _⟩, hstop⟩
      have hpos := Site.size_pos_of_isToken (ht.solid_site hi) htoken
      refine ⟨⟨hi, htoken, ?_⟩, beq_iff_eq.mpr hident, hstop⟩
      simp only [Site.span] at hstop ⊢
      omega

/-- The identifier that is found at a caret is the one that it touches. -/
theorem identAt?_eq_some_iff (ht : t.Parsed) (hroot : p.root? pos.file = some (Site.root t)) :
    p.identAt? pos = some i ↔ t.IdentifierAt pos.offset i := by
  rw [identAt?, Option.or_eq_some_iff, identBefore?_eq_some_iff ht hroot,
    Option.filter_eq_some_iff, Option.filter_eq_none_iff, leafAt?_eq_some_iff hroot,
    Site.covers_iff]
  constructor
  · rintro (⟨⟨hi, htoken, hstart, hstop⟩, hident⟩ | ⟨_, htouch, _⟩)
    · exact ⟨hi, htoken, eq_of_beq hident, hstart, Nat.le_of_lt hstop⟩
    · exact htouch
  · intro htouch
    have ⟨hi, htoken, hident, hstart, hstop⟩ := htouch
    rcases Nat.lt_or_eq_of_le hstop with hlt | hend
    · exact .inl ⟨⟨hi, htoken, hstart, hlt⟩, beq_iff_eq.mpr hident⟩
    · -- The token that starts at the end of an identifier is not one.
      refine .inr ⟨fun j hj hjident => ?_, htouch, hend.symm⟩
      obtain ⟨hj, hjtoken, hcovers⟩ := (leafAt?_eq_some_iff hroot).mp hj
      rw [hend] at hcovers
      exact ht.not_covers_stop hi hj htoken hjtoken hident (eq_of_beq hjident) hcovers

end Project

namespace Host

/-- A caret designates the identifier that it touches in the current tree of its file. -/
def Designates (h : Host) (pos : FilePosition) (i : Site) : Prop :=
  ∃ doc, h.store.document? pos.file = some doc ∧ i ∈ (Site.root doc.tree).descendants ∧
    i.isToken = true ∧ i.kind = .ident ∧ i.span.start ≤ pos.offset ∧ pos.offset ≤ i.span.stop

variable {h : Host} {pos : FilePosition} {i : Site}

/-- The identifier that is found at a caret is the one that it designates. -/
theorem Consistent.identAt?_eq_some_iff (hh : h.Consistent) :
    h.project.identAt? pos = some i ↔ h.Designates pos i := by
  cases hdoc : h.store.document? pos.file with
  | none =>
    rw [Project.identAt?_of_root?_eq_none (root?_eq_none hdoc)]
    exact ⟨nofun, fun ⟨_, hdoc', _⟩ => nomatch hdoc.symm.trans hdoc'⟩
  | some doc =>
    rw [Project.identAt?_eq_some_iff (hh.parsed _ _ hdoc) (hh.root?_eq hdoc)]
    constructor
    · exact fun htouch => ⟨doc, hdoc, htouch⟩
    · rintro ⟨doc', hdoc', htouch⟩
      obtain rfl : doc = doc' := Option.some.inj (hdoc.symm.trans hdoc')
      exact htouch

/-- A caret designates at most one identifier. -/
theorem Consistent.designates_unique (hh : h.Consistent) {j : Site} (hi : h.Designates pos i)
    (hj : h.Designates pos j) : i = j :=
  Option.some.inj ((hh.identAt?_eq_some_iff.mpr hi).symm.trans (hh.identAt?_eq_some_iff.mpr hj))

end Host

end ClassNav
