import ClassNav.Proofs.Grammar.Brackets

/-!
# What the cut-off takes

Past the limit on the nesting, tokens go into an error node without being parsed. The row of words
that is taken so is described here on its own, by the groups that are open at each of its places:

* no part of it from the start closes more groups than it opens, so a bracket that closes a group
  from further out is never taken;
* it ends with the bracket that closes its first group (`Kind.EndsGroup`), or has no brackets and
  stops at a word that belongs further out (`Kind.StopsShort`), or nothing is left behind it.

One word is added to the front at a time, first inside a group (`Token.within_swallow`) and then
outside (`Token.within_or_stopsShort`); trivia does not count (`Token.words_take_swallow`).
-/

namespace ClassNav

namespace Kind

/-- A row ends with the bracket that closes its first group. -/
def EndsGroup (ks : List Kind) : Prop :=
  ∃ row k, ks = row ++ [k] ∧ k.closesGroup = true ∧ rise ks = 0 ∧
    ∀ p, p <+: row → (∃ j ∈ p, j.opensGroup = true) → 0 < rise p

/-- A row has no brackets and no separators, and stands before one that opens no group. -/
def StopsShort (ks rest : List Kind) : Prop :=
  (∀ j ∈ ks, j.opensGroup = false ∧ j.stops = false) ∧ (front rest).stops = true

/-- A row with `d` groups open before it closes none further out, and ends with the bracket that
closes the last of them, or nothing is left behind it. -/
structure Within (d : Int) (ks rest : List Kind) : Prop where
  above : ∀ p, p <+: ks → 0 ≤ d + rise p
  ends : (∃ row k, ks = row ++ [k] ∧ k.closesGroup = true ∧ d + rise ks = 0) ∨ rest = []

/-- A place of a row with one more kind in front is its start, or a place of the row seen from
behind that kind. -/
theorem above_cons {d : Int} {k : Kind} {ks : List Kind} (hd : 0 ≤ d)
    (h : ∀ p, p <+: ks → 0 ≤ d + k.step + rise p) : ∀ p, p <+: k :: ks → 0 ≤ d + rise p := by
  intro p hp
  rcases List.prefix_cons_iff.mp hp with rfl | ⟨q, rfl, hq⟩
  · rwa [rise_nil, Int.add_zero]
  · rw [rise_cons, ← Int.add_assoc]
    exact h q hq

theorem Within.cons {d : Int} {k : Kind} {ks rest : List Kind} (hd : 0 ≤ d)
    (h : Within (d + k.step) ks rest) : Within d (k :: ks) rest where
  above := above_cons hd h.above
  ends := by
    refine h.ends.imp_left ?_
    rintro ⟨row, j, rfl, hj, hrise⟩
    exact ⟨k :: row, j, rfl, hj, by rw [rise_cons, ← Int.add_assoc, hrise]⟩

/-- A compact row that ends with all groups closed ends with its first group, unless the input is
over. -/
theorem Within.endsGroup_or {ks rest : List Kind} (h : Within 0 ks rest) (hcompact : Compact ks) :
    EndsGroup ks ∨ rest = [] := by
  refine h.ends.imp_left ?_
  rintro ⟨row, k, rfl, hk, hrise⟩
  rw [Int.zero_add] at hrise
  refine ⟨row, k, rfl, hk, hrise, fun p hp ⟨j, hj, hopens⟩ => ?_⟩
  obtain ⟨i, hplace⟩ : ∃ i, p ++ [i] <+: row ++ [k] := by
    obtain ⟨q, rfl⟩ := hp
    cases q with
    | nil => exact ⟨k, by simp⟩
    | cons i q => exact ⟨i, q ++ [k], by simp⟩
  have habove := h.above p ((List.prefix_append p [i]).trans hplace)
  rw [Int.zero_add] at habove
  -- A place outside all groups behind an open bracket would be behind the first group.
  have hne : rise p ≠ 0 := fun h0 => by
    rw [(hcompact p i hplace h0).1 j hj] at hopens
    cases hopens
  omega

theorem rise_of_plain {ks : List Kind} (h : ∀ j ∈ ks, j.opensGroup = false ∧ j.stops = false) :
    rise ks = 0 := by
  induction ks with
  | nil => rfl
  | cons k ks ih =>
    obtain ⟨⟨hopens, hstops⟩, hks⟩ := List.forall_mem_cons.mp h
    rw [rise_cons, ih hks, step, hopens, (Bool.or_eq_false_iff.mp hstops).1]
    rfl

theorem StopsShort.cons {k : Kind} {ks rest : List Kind} (hopens : k.opensGroup = false)
    (hstops : k.stops = false) (h : StopsShort ks rest) : StopsShort (k :: ks) rest :=
  ⟨List.forall_mem_cons.mpr ⟨⟨hopens, hstops⟩, h.1⟩, h.2⟩

theorem StopsShort.above {ks rest p : List Kind} (h : StopsShort ks rest) (hp : p <+: ks) :
    0 ≤ rise p :=
  Int.le_of_eq (rise_of_plain fun j hj => h.1 j (hp.subset hj)).symm

theorem step_of_closesGroup {k : Kind} (h : k.closesGroup = true) : k.step = -1 := by
  cases k <;> first | rfl | cases h

theorem within_singleton {k : Kind} (h : k.closesGroup = true) (rest : List Kind) :
    Within 1 [k] rest where
  above := above_cons (by decide) fun p hp => by
    rw [List.prefix_nil.mp hp, step_of_closesGroup h]
    decide
  ends := .inl ⟨[], k, rfl, h, by simp [step_of_closesGroup h]⟩

end Kind

namespace Token

variable {w : List Token}

/-- Inside a group, words are passed over up to its end. -/
theorem within_swallow (d : Nat) (hw : ∀ t ∈ w, t.isTrivia = false) :
    Kind.Within (d + 1) ((w.take (swallow (d + 1) w)).map kind)
      ((w.drop (swallow (d + 1) w)).map kind) := by
  -- By induction on the words: what the first word adds to the open groups, the rest closes.
  induction w generalizing d with
  | nil => exact ⟨fun p hp => by rw [List.prefix_nil.mp hp, Kind.rise_nil]; omega, .inr rfl⟩
  | cons t w ih =>
    obtain ⟨ht, hw⟩ := List.forall_mem_cons.mp hw
    rcases t.kind.step_cases with
      ⟨hopens, hstep⟩ | ⟨hopens, hcloses, hstep⟩ | ⟨hopens, hcloses, hstep⟩
    · rw [swallow_of_opensGroup ht _ hopens]
      refine Kind.Within.cons (by omega) ?_
      rw [hstep]
      exact ih (d + 1) hw
    · cases d with
      | zero =>
        rw [(swallow_of_closesGroup (d := 0) ht _ hopens hcloses).1]
        exact Kind.within_singleton hcloses _
      | succ d =>
        rw [(swallow_of_closesGroup ht _ hopens hcloses).2]
        refine Kind.Within.cons (by omega) ?_
        rw [hstep, Int.add_neg_cancel_right]
        exact ih d hw
    · rw [swallow_of_neither ht _ hopens hcloses (.inr (Nat.succ_ne_zero d))]
      refine Kind.Within.cons (by omega) ?_
      rw [hstep, Int.add_zero]
      exact ih d hw

/-- Outside all groups, words are passed over up to the end of the first group, or to a word that
belongs further out. -/
theorem within_or_stopsShort (hw : ∀ t ∈ w, t.isTrivia = false) :
    Kind.Within 0 ((w.take (swallow 0 w)).map kind) ((w.drop (swallow 0 w)).map kind) ∨
      Kind.StopsShort ((w.take (swallow 0 w)).map kind) ((w.drop (swallow 0 w)).map kind) := by
  induction w with
  | nil => exact .inl ⟨fun p hp => by rw [List.prefix_nil.mp hp]; decide, .inr rfl⟩
  | cons t w ih =>
    obtain ⟨ht, hw⟩ := List.forall_mem_cons.mp hw
    cases hstops : t.kind.stops with
    | true =>
      rw [swallow_of_stops ht _ hstops]
      exact .inr ⟨by simp, hstops⟩
    | false =>
      obtain ⟨hcloses, hseparates⟩ := Bool.or_eq_false_iff.mp hstops
      rcases t.kind.step_cases with ⟨hopens, hstep⟩ | ⟨_, hcloses', _⟩ | ⟨hopens, _, hstep⟩
      · rw [swallow_of_opensGroup ht _ hopens]
        refine .inl (Kind.Within.cons (Int.le_refl 0) ?_)
        rw [hstep]
        exact within_swallow 0 hw
      · rw [hcloses] at hcloses'
        cases hcloses'
      · rw [swallow_of_neither ht _ hopens hcloses (.inl hseparates)]
        refine (ih hw).imp (fun h => Kind.Within.cons (Int.le_refl 0) ?_)
          (Kind.StopsShort.cons hopens hstops)
        rwa [hstep]

/-- The count goes by words: it passes over the same ones whatever trivia stand between. -/
theorem words_take_swallow (d : Nat) (ts : List Token) :
    words (ts.take (swallow d ts)) = (words ts).take (swallow d (words ts)) := by
  have hwords : words (ts.take (swallow d ts)) ++ words (ts.drop (swallow d ts)) = words ts := by
    rw [← words_append, List.take_append_drop]
  rw [words_drop_swallow] at hwords
  refine List.append_cancel_right (hwords.trans ?_)
  rw [List.take_append_drop]

/-- Nothing is passed over exactly if there is no word, or one that belongs further out. -/
theorem take_swallow_eq_nil_iff (ts : List Token) :
    ts.take (swallow 0 ts) = [] ↔ words ts = [] ∨ (front (words ts)).stops = true := by
  have hnil : ts.take (swallow 0 ts) = [] ↔ words (ts.take (swallow 0 ts)) = [] := by
    refine ⟨fun h => by rw [h]; rfl, fun h => ?_⟩
    have htight : Tight ([] ++ ts.take (swallow 0 ts)) := tight_take_swallow 0 ts
    exact htight.eq_nil h
  rw [hnil, words_take_swallow]
  cases hws : words ts with
  | nil => simp
  | cons t w =>
    have ht : t.isTrivia = false := isTrivia_of_mem_words (hws ▸ List.mem_cons_self)
    cases hstops : t.kind.stops with
    | true => simp [swallow_of_stops ht w hstops, hstops]
    | false =>
      obtain ⟨hcloses, hseparates⟩ := Bool.or_eq_false_iff.mp hstops
      have hpos := swallow_pos w ht hcloses hseparates
      simp [hstops, Nat.pos_iff_ne_zero.mp hpos]

end Token

/-- What the cut-off puts into its error node, after the trivia before it: words that close no group
from further out and have no separator outside their groups, up to the end of their first group, or
to a word that belongs further out, or to the end of the input. The node ends with a word, and is
empty exactly if no word is there, or one that belongs further out. -/
theorem Cursor.cutOff_takes (c : Cursor) : ∃ taken : List Token,
    c.cutOff.trees =
        (c.rest.takeWhile Token.isTrivia).map .leaf ++ [.node .errorNode (taken.map .leaf)] ∧
      c.rest = c.rest.takeWhile Token.isTrivia ++ taken ++ c.cutOff.cursor.rest ∧
      Token.Tight taken ∧
      (∀ p, p <+: Token.kinds taken → 0 ≤ Kind.rise p) ∧
      (∀ p k, p ++ [k] <+: Token.kinds taken →
        (k.closesGroup = true → 0 < Kind.rise p) ∧ (Kind.rise p = 0 → k.separates = false)) ∧
      (Kind.EndsGroup (Token.kinds taken) ∨
        Kind.StopsShort (Token.kinds taken) c.cutOff.cursor.kinds ∨ c.cutOff.cursor.kinds = []) ∧
      (taken = [] ↔ c.kinds = [] ∨ c.current.stops = true) := by
  let rest := c.gap.cursor.rest
  let taken := rest.take (Token.swallow 0 rest)
  have hsplit : c.rest = c.rest.takeWhile Token.isTrivia ++ taken ++ c.cutOff.cursor.rest := by
    show c.rest = c.rest.takeWhile Token.isTrivia ++ taken ++ rest.drop (Token.swallow 0 rest)
    rw [List.append_assoc, List.take_append_drop]
    rw [show rest = _ from c.rest_gap, List.takeWhile_append_dropWhile]
  -- The conditions are about kinds of words, and counting goes by words.
  have hwords : Token.words rest = c.words := c.words_gap
  have hkinds : Token.kinds taken = (c.words.take (Token.swallow 0 c.words)).map Token.kind := by
    rw [← hwords, ← Token.words_take_swallow]
    rfl
  have hleft : c.cutOff.cursor.kinds = (c.words.drop (Token.swallow 0 c.words)).map Token.kind := by
    rw [kinds_eq_map_words, words_cutOff]
  have hcompact : Kind.Compact (Token.kinds taken) := Token.compact_take_swallow rest
  have hends := Token.within_or_stopsShort (w := c.words) fun _ => Token.isTrivia_of_mem_words
  rw [← hkinds, ← hleft] at hends
  have habove : ∀ p, p <+: Token.kinds taken → 0 ≤ Kind.rise p := fun p hp =>
    hends.elim (fun h => by simpa using h.above p hp) fun h => h.above hp
  refine
    ⟨taken, ?_, hsplit, Token.tight_take_swallow 0 rest, habove, fun p k hp => ⟨?_, ?_⟩, ?_, ?_⟩
  · rw [← c.trees_gap]
    rfl
  · intro hcloses
    have h := habove (p ++ [k]) hp
    rw [Kind.rise_append, Kind.rise_cons, Kind.rise_nil, Kind.step_of_closesGroup hcloses] at h
    omega
  · exact fun h0 => (hcompact p k hp h0).2
  · rcases hends with h | h
    · exact (h.endsGroup_or hcompact).imp_right .inr
    · exact .inr (.inl h)
  · rw [Token.take_swallow_eq_nil_iff, hwords, c.current_eq_front, kinds_eq_map_words,
      List.map_eq_nil_iff]

end ClassNav
