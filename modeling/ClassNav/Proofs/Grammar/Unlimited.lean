import ClassNav.Proofs.Grammar.Acceptance
import ClassNav.Proofs.Grammar.Surroundings
import ClassNav.Proofs.Grammar.Termination
import ClassNav.Proofs.Navigation.Caret

/-!
# Parsing without a limit on the nesting

A limit above the number of tokens left is none, so `Construct.parseFreely` parses without one: it
satisfies the recursion that has no levels (`Construct.parseFreely_eq`). `parseFreely` reports
nothing exactly if a text can be derived, however deep (`problems_parseFreely_eq_nil_iff`).

`Rule.transfer` compares two runs of a rule that differ in what constructs do one level deeper:
what holds of the constructs holds of the runs, if it is kept by the ways in which outcomes are
combined. It asks about constructs only where the second run is good, such as one that reports
nothing.
-/

namespace ClassNav

/-! ## Comparing two runs -/

/-- Whether a rule only reports something. -/
def Rule.isReport : Rule → Bool
  | report _ => true
  | _ => false

/-- Whether a rule makes error nodes only behind a report, and leaves it to constructs to report
that they are nested too deeply. -/
def Rule.isTidy : Rule → Bool
  | report f => f != .nestingTooDeep
  | seq a b => a.isTidy && (a.isReport || b.isTidy)
  | node k body => k != .errorNode && body.isTidy
  | look _ next => Kind.all.all fun k => (next k).isTidy
  | loop _ body => body.isTidy
  | chain first wrap next => first.isTidy && Kind.all.all fun k =>
      (wrap k).isNone || (wrap k).all (· != .errorNode) && (next k).isTidy
  | progress body f => f != .nestingTooDeep && body.isTidy
  | _ => true

/-- A property of outcomes that their parts have if they have it, and that no report of a rule
has. -/
structure Outcome.Inherited (ok : Outcome → Prop) : Prop where
  andThen : ∀ {o : Outcome} {next : Cursor → Outcome}, ok (o.andThen next) →
    ok o ∧ ok (next o.cursor)
  enclose : ∀ {o : Outcome} {k : Kind}, k ≠ .errorNode → ok (o.enclose k) → ok o
  report : ∀ {c : Cursor} {f : Fault}, f ≠ .nestingTooDeep → ¬ ok (c.report f)

/-- A relation between two outcomes at a cursor that end at one place, kept by the ways in which
outcomes are combined. -/
structure Outcome.Carried (R : Cursor → Outcome → Outcome → Prop) : Prop where
  cursor : ∀ {c : Cursor} {o o' : Outcome}, R c o o' → o.cursor = o'.cursor
  take : ∀ (n : Nat) (c : Cursor), R c (c.take n) (c.take n)
  andThen : ∀ {c : Cursor} {o o' : Outcome} {next next' : Cursor → Outcome}, R c o o' →
    R o'.cursor (next o'.cursor) (next' o'.cursor) → R c (o.andThen next) (o'.andThen next')
  enclose : ∀ {c : Cursor} {o o' : Outcome} {k : Kind}, k ≠ .errorNode → R c o o' →
    R c (o.enclose k) (o'.enclose k)

namespace Outcome

variable {ok : Outcome → Prop} {R : Cursor → Outcome → Outcome → Prop}

theorem Inherited.of_wrapWhile (hok : Inherited ok) {wrap : Kind → Option Kind}
    (hwrap : ∀ j k, wrap j = some k → k ≠ .errorNode) {next : Kind → Cursor → Outcome} {n : Nat}
    {o : Outcome} (h : ok (o.wrapWhile wrap next n)) : ok o := by
  induction n generalizing o with
  | zero => exact h
  | succ n ih =>
    unfold wrapWhile at h
    split at h
    · exact h
    · next hk => exact (hok.andThen (hok.enclose (hwrap _ _ hk) (ih h))).1

theorem Carried.repeatWhile (hok : Inherited ok) (hR : Carried R) {test : Cursor → Bool}
    {body body' : Cursor → Outcome} (hbody : ∀ c, ok (body' c) → R c (body c) (body' c)) (n : Nat)
    {c : Cursor} (h : ok (c.repeatWhile test body' n)) :
    R c (c.repeatWhile test body n) (c.repeatWhile test body' n) := by
  induction n generalizing c with
  | zero => exact hR.take 0 c
  | succ n ih =>
    unfold Cursor.repeatWhile at h ⊢
    split
    · next ht =>
      rw [if_pos ht] at h
      obtain ⟨hpass, hrest⟩ := hok.andThen h
      exact hR.andThen (hbody c hpass) (ih hrest)
    · exact hR.take 0 c

theorem Carried.wrapWhile (hok : Inherited ok) (hR : Carried R) {wrap : Kind → Option Kind}
    (hwrap : ∀ j k, wrap j = some k → k ≠ .errorNode) {next next' : Kind → Cursor → Outcome}
    (hnext : ∀ k c, (wrap k).isSome = true → ok (next' k c) → R c (next k c) (next' k c)) (n : Nat)
    {c : Cursor} {o o' : Outcome} (ho : R c o o') (h : ok (o'.wrapWhile wrap next' n)) :
    R c (o.wrapWhile wrap next n) (o'.wrapWhile wrap next' n) := by
  induction n generalizing o o' with
  | zero => exact ho
  | succ n ih =>
    unfold Outcome.wrapWhile at h ⊢
    rw [hR.cursor ho]
    cases hk : wrap o'.cursor.current with
    | none => exact ho
    | some k =>
      simp only [hk] at h ⊢
      have hpass := (hok.andThen (hok.enclose (hwrap _ _ hk) (hok.of_wrapWhile hwrap h))).2
      refine ih (hR.enclose (hwrap _ _ hk) (hR.andThen ho (hnext _ _ ?_ hpass))) h
      rw [hk]
      rfl

end Outcome

/-- What relates constructs one level deeper, where the second is good, relates two runs of a rule,
where the second is good. -/
theorem Rule.transfer {ok : Outcome → Prop} {R : Cursor → Outcome → Outcome → Prop}
    (hok : Outcome.Inherited ok) (hR : Outcome.Carried R)
    {deeper deeper' : Construct → Cursor → Outcome}
    (hdeeper : ∀ k c, ok (deeper' k c) → R c (deeper k c) (deeper' k c)) {r : Rule}
    (hr : r.isTidy = true) {c : Cursor} (h : ok (r.run deeper' c)) :
    R c (r.run deeper c) (r.run deeper' c) := by
  induction r generalizing c with
  | done => exact hR.take 0 c
  | gap => exact hR.take _ c
  | bump => exact hR.take _ c
  | report f => exact absurd h (hok.report (by simpa [isTidy] using hr))
  | seq a b iha ihb =>
    obtain ⟨ha, hb⟩ := Bool.and_eq_true_iff.mp hr
    obtain ⟨hoka, hokb⟩ := hok.andThen h
    -- Behind a report there may be an error node, but no report is good.
    rcases Bool.or_eq_true_iff.mp hb with hreport | hb
    · cases a with
      | report f => exact absurd hoka (hok.report (by simpa [isTidy] using ha))
      | _ => cases hreport
    · exact hR.andThen (iha ha hoka) (ihb hb hokb)
  | node k body ih =>
    obtain ⟨hk, hbody⟩ := Bool.and_eq_true_iff.mp hr
    have hk : k ≠ .errorNode := by simpa using hk
    exact hR.andThen (hR.take _ c) (hR.enclose hk (ih hbody (hok.enclose hk (hok.andThen h).2)))
  | look skip next ih => exact ih _ (List.all_eq_true.mp hr _ (Kind.mem_all _)) h
  | loop test body ih => exact hR.repeatWhile hok (fun c => ih hr) _ h
  | chain first wrap next ihf ihn =>
    obtain ⟨hf, hn⟩ := Bool.and_eq_true_iff.mp hr
    have hn : ∀ j k, wrap j = some k → k ≠ .errorNode ∧ (next j).isTidy = true := by
      intro j k hk
      have hj := List.all_eq_true.mp hn j (Kind.mem_all j)
      simpa [hk] using hj
    have hwrap : ∀ j k, wrap j = some k → k ≠ .errorNode := fun j k hk => (hn j k hk).1
    have hfirst := ihf hf (hok.of_wrapWhile hwrap h)
    simp only [run] at h ⊢
    rw [hR.cursor hfirst]
    refine hR.wrapWhile hok hwrap (fun j c hj => ?_) _ hfirst h
    obtain ⟨k, hk⟩ := Option.isSome_iff_exists.mp hj
    exact ihn j (hn j k hk).2
  | progress body f ih =>
    obtain ⟨hf, hbody⟩ := Bool.and_eq_true_iff.mp hr
    simp only [run] at h ⊢
    split at h
    · exact absurd (hok.andThen (hok.andThen h).2).1 (hok.report (by simpa using hf))
    · next hne =>
      have ho := ih hbody h
      rw [hR.cursor ho, if_neg hne, if_neg hne]
      exact ho
  | nest k => exact hdeeper k c h

/-- No production makes an error node without a report, or reports by itself that something is
nested too deeply. -/
theorem Construct.isTidy_rule (k : Construct) : k.rule.isTidy = true := by
  cases k <;> decide +kernel

theorem Rule.isTidy_file : file.isTidy = true := by decide +kernel

/-! ## Where parsing ends -/

def Outcome.Clean (o : Outcome) : Prop := o.problems = []

theorem Outcome.inherited_clean : Inherited Clean where
  andThen h := List.append_eq_nil_iff.mp h
  enclose _ h := h
  report _ := nofun

/-- The bytes before the place reached and behind it are those of the text. -/
def Outcome.Located (c : Cursor) (o : Outcome) : Prop :=
  o.cursor.offset + Cursor.width o.cursor.rest = c.offset + Cursor.width c.rest

theorem Outcome.carried_located : Carried fun c o o' => o = o' ∧ o.Located c where
  cursor h := h.1 ▸ rfl
  take n c := by
    refine ⟨rfl, ?_⟩
    have h := Cursor.width_append (c.rest.take n) (c.rest.drop n)
    rw [List.take_append_drop] at h
    show c.offset + Cursor.width (c.rest.take n) + Cursor.width (c.rest.drop n) = _
    omega
  andThen := by
    rintro c o _ next next' ⟨rfl, ho⟩ ⟨hnext, hlocated⟩
    exact ⟨Outcome.andThen_congr hnext, hlocated.trans ho⟩
  enclose _ h := ⟨h.1 ▸ rfl, h.2⟩

/-- The place reached is behind the tokens that were taken. -/
theorem Outcome.Covers.cursor_eq {o : Outcome} {c : Cursor} (hcovers : o.Covers c)
    (h : o.Located c) : o.cursor = c.advance (Tree.forestTokens o.trees).length := by
  obtain ⟨ts, ps, offset, rest⟩ := o
  have hrest : Tree.forestTokens ts ++ rest = c.rest := hcovers
  have hwidth := Cursor.width_append (Tree.forestTokens ts) rest
  have hoffset : offset + Cursor.width rest = c.offset + Cursor.width c.rest := h
  rw [← hrest, hwidth] at hoffset
  simp only [Cursor.advance, ← hrest, List.take_left, List.drop_left, Cursor.mk.injEq, and_true]
  omega

/-- A construct that is parsed without a report accounts for every byte that it passes. -/
theorem Construct.located_parse {n : Nat} {k : Construct} {c : Cursor}
    (h : (parse n k c).Clean) : (parse n k c).Located c := by
  induction n generalizing k c with
  | zero => exact absurd h c.problems_cutOff
  | succ n ih =>
    exact (Rule.transfer Outcome.inherited_clean Outcome.carried_located
      (fun k c h => ⟨rfl, ih h⟩) k.isTidy_rule h).2

/-! ## No limit -/

theorem Cursor.gap_gap (c : Cursor) : c.gap.cursor.gap = c.gap.cursor.stay := by
  have hcount : c.gap.cursor.triviaCount = 0 := by
    rw [triviaCount, rest_gap, List.length_eq_zero_iff, List.takeWhile_eq_nil_iff]
    intro hpos
    have hhead := List.head_dropWhile_not Token.isTrivia (List.length_pos_iff.mp hpos)
    rw [List.head_eq_getElem] at hhead
    exact Bool.not_eq_true _ ▸ hhead
  rw [gap, hcount]
  rfl

/-- What takes a gap first does nothing more behind a gap. -/
theorem Cursor.gap_andThen_of_gap {f next : Cursor → Outcome} (h : ∀ c, f c = c.gap.andThen next)
    (c : Cursor) : c.gap.andThen f = f c := by
  rw [h c]
  refine Outcome.andThen_congr ?_
  rw [h, gap_gap]
  rfl

namespace Construct

/-- Parses a construct in which constructs may be nested to any depth. -/
def parseFreely (k : Construct) (c : Cursor) : Outcome := parse (c.rest.length + 1) k c

/-- Constructs nest no deeper than there are tokens, so a limit past that is none. -/
theorem parseFreely_eq_parse {n : Nat} {k : Construct} {c : Cursor} (h : c.rest.length < n) :
    parseFreely k c = parse n k c :=
  parse_eq_of_lt k (Nat.lt_succ_self _) h

theorem lively_parseFreely : Rule.Lively parseFreely where
  covers _ c := parse_covers _ _ c
  classDecl c := (lively (c.rest.length + 1)).classDecl c
  block c := (lively (c.rest.length + 1)).block c
  expression c := (lively (c.rest.length + 1)).expression c

/-- Without a limit, a construct is parsed by its rule, and so are those inside. -/
theorem parseFreely_eq (k : Construct) (c : Cursor) :
    parseFreely k c = k.rule.run parseFreely c :=
  Rule.run_congr (parse_covers _) lively_parseFreely.covers
    (fun _ _ hlt => (parseFreely_eq_parse hlt).symm) (productive _ k)
    (productive_of_lively lively_parseFreely k) (nestsBelow (parse_covers _) k c)
    (nestsBelow lively_parseFreely.covers k c)

/-- A construct takes the trivia before it first. -/
theorem gap_andThen_parseFreely (k : Construct) (c : Cursor) :
    c.gap.andThen k.parseFreely = k.parseFreely c := by
  obtain ⟨next, hnext⟩ : ∃ next, ∀ c, k.parseFreely c = c.gap.andThen next := by
    cases k
    all_goals exact ⟨_, fun c => parseFreely_eq _ c⟩
  exact Cursor.gap_andThen_of_gap hnext c

end Construct

def parseFreely (text : String) : Parsed :=
  let o := Rule.file.run Construct.parseFreely ⟨0, Token.scan text⟩
  ⟨.node .sourceFile o.trees, o.problems⟩

/-- A limit past the number of tokens of a file is none. -/
theorem Rule.run_file_parseFreely {n : Nat} {c : Cursor} (h : c.rest.length < n) :
    file.run Construct.parseFreely c = file.run (Construct.parse n) c :=
  run_congr Construct.lively_parseFreely.covers (Construct.parse_covers n)
    (fun _ _ hlt => Construct.parseFreely_eq_parse (Nat.lt_of_lt_of_le hlt h))
    (productive_file Construct.lively_parseFreely) (productive_file (Construct.lively n))
    (nestsBelow_file Construct.lively_parseFreely.covers c)
    (nestsBelow_file (Construct.parse_covers n) c)

/-- A higher limit allows for all that a lower one does. -/
theorem Form.Derives.mono {n m : Nat} {f : Form} {w : List Kind} (h : Derives n f w)
    (hle : n ≤ m) : Derives m f w := by
  induction h generalizing m with
  | empty => exact .empty
  | one ht => exact .one ht
  | seq _ _ ihf ihg => exact .seq (ihf hle) (ihg hle)
  | altLeft _ ih => exact .altLeft (ih hle)
  | altRight _ ih => exact .altRight (ih hle)
  | manyNil => exact .manyNil
  | manyCons _ _ ihf ihr => exact .manyCons (ihf hle) (ihr hle)
  | nested _ ih =>
    obtain ⟨m, rfl⟩ := Nat.exists_eq_add_of_lt hle
    exact .nested (ih (by omega))

/-- Without a limit, exactly the texts that have the form of a file are parsed without problems. -/
theorem problems_parseFreely_eq_nil_iff (text : String) :
    (parseFreely text).problems = [] ↔
      ∃ n, Form.Derives n .file (Token.kinds (Token.scan text)) := by
  have hlimit : ∀ n, (Token.scan text).length < n → ((parseFreely text).problems = [] ↔
      Form.Derives n .file (Token.kinds (Token.scan text))) := by
    intro n hn
    show (Rule.file.run Construct.parseFreely ⟨0, Token.scan text⟩).problems = [] ↔ _
    rw [Rule.run_file_parseFreely (c := ⟨0, Token.scan text⟩) hn]
    exact problems_run_file_eq_nil_iff n fun _ => Token.kind_ne_eof_of_mem_scan
  constructor
  · exact fun h => ⟨_, (hlimit _ (Nat.lt_succ_self _)).mp h⟩
  · rintro ⟨n, h⟩
    have hlt : (Token.scan text).length < max n ((Token.scan text).length + 1) :=
      Nat.lt_of_lt_of_le (Nat.lt_succ_self _) (Nat.le_max_right _ _)
    exact (hlimit _ hlt).mpr (h.mono (Nat.le_max_left _ _))

end ClassNav
