import ClassNav.Proofs.Grammar.Acceptance
import ClassNav.Proofs.Grammar.Lossless
import ClassNav.Proofs.Grammar.Shape
import ClassNav.Proofs.Grammar.Trivia
import ClassNav.Proofs.Navigation.Caret
import Mathlib.Data.List.ReduceOption

/-!
# What the problems of a text say

Problems are reported at words, or at the end of the text, from left to right, and every error node
starts with a word that a problem was reported at (`problems_account`).

An outcome `Outcome.Accounts` for what became of the tokens before a cursor, if all this holds of
it. This is kept when outcomes are put in sequence or enclosed in nodes of other kinds, and
`Rule.accounts` says that a rule makes error nodes in no other way than behind a report.
-/

namespace ClassNav

/-! ## Where words stand -/

namespace Token

variable {start : Nat} {ts : List Token} {x : Nat × Nat}

theorem le_of_mem_places (h : x ∈ places start ts) : start ≤ x.1 := by
  induction ts generalizing start with
  | nil => exact Nat.le_of_eq (List.mem_singleton.mp h ▸ rfl)
  | cons t ts ih =>
    rw [places] at h
    split at h
    · exact Nat.le_of_add_right_le (ih h)
    · rcases List.mem_cons.mp h with rfl | h
      · exact Nat.le_refl _
      · exact Nat.le_of_add_right_le (ih h)

theorem pairwise_places (start : Nat) (ts : List Token) :
    (places start ts).Pairwise fun x y => x.1 ≤ y.1 := by
  induction ts generalizing start with
  | nil => exact List.pairwise_singleton _ _
  | cons t ts ih =>
    rw [places]
    split
    · exact ih _
    · exact .cons (fun _ h => Nat.le_of_add_right_le (le_of_mem_places h)) (ih _)

/-- The places of words are those of tokens that are no trivia, and the end. -/
theorem mem_places_cases (h : x ∈ places start ts) :
    (∃ t, (x.1, t) ∈ spread start ts ∧ t.isTrivia = false ∧ x.2 = x.1 + t.size) ∨
      x = (start + Cursor.width ts, start + Cursor.width ts) := by
  induction ts generalizing start with
  | nil => exact .inr (List.mem_singleton.mp h)
  | cons t ts ih =>
    have hlater : x ∈ places (start + t.size) ts →
        (∃ u, (x.1, u) ∈ spread start (t :: ts) ∧ u.isTrivia = false ∧ x.2 = x.1 + u.size) ∨
          x = (start + Cursor.width (t :: ts), start + Cursor.width (t :: ts)) := by
      intro h
      rw [spread, Cursor.width, ← Nat.add_assoc]
      rcases ih h with ⟨u, hu, hword⟩ | hend
      · exact .inl ⟨u, List.mem_cons_of_mem _ hu, hword⟩
      · exact .inr hend
    rw [places] at h
    split at h
    · exact hlater h
    · next ht =>
      rcases List.mem_cons.mp h with rfl | h
      · exact .inl ⟨t, List.mem_cons_self, by simpa using ht, rfl⟩
      · exact hlater h

end Token

namespace Cursor

variable {c : Cursor} {x : Nat × Nat}

/-- Problems are reported at the next word, or at the end of the text. -/
theorem location_mem_places (c : Cursor) : c.location ∈ c.places :=
  List.mem_of_mem_head? c.head?_places

theorem location_le_of_mem_places (h : x ∈ c.places) : c.location.1 ≤ x.1 := by
  obtain ⟨xs, hplaces⟩ := List.head?_eq_some_iff.mp c.head?_places
  have hpairwise : c.places.Pairwise fun x y => x.1 ≤ y.1 := Token.pairwise_places _ _
  rw [hplaces] at h hpairwise
  rcases List.mem_cons.mp h with rfl | h
  · exact Nat.le_refl _
  · exact List.rel_of_pairwise_cons hpairwise h

end Cursor

/-! ## Error nodes -/

/-- The bytes of the first of some tokens that start at a byte. -/
def Token.firstRange? (start : Nat) (ts : List Token) : Option (Nat × Nat) :=
  ts.head?.map fun t => (start, start + t.size)

/-- The bytes of the first token of an element. -/
def Site.firstRange? (s : Site) : Option (Nat × Nat) := Token.firstRange? s.start s.tree.tokens

namespace Tree

mutual

/-- The bytes of the first token of each error node of a tree that starts at a byte, from left to
right. -/
def refusals (start : Nat) : Tree → List (Option (Nat × Nat))
  | leaf _ => []
  | node k cs =>
    if k = .errorNode then Token.firstRange? start (forestTokens cs) :: forestRefusals start cs
    else forestRefusals start cs

def forestRefusals (start : Nat) : List Tree → List (Option (Nat × Nat))
  | [] => []
  | t :: ts => t.refusals start ++ forestRefusals (start + t.size) ts

end

theorem forestRefusals_append (start : Nat) (ts us : List Tree) :
    forestRefusals start (ts ++ us) =
      forestRefusals start ts ++ forestRefusals (start + forestSize ts) us := by
  induction ts generalizing start with
  | nil => simp [forestRefusals, forestSize]
  | cons t ts ih => simp [forestRefusals, forestSize, ih, Nat.add_assoc]

theorem forestRefusals_leaves (start : Nat) (ts : List Token) :
    forestRefusals start (ts.map leaf) = [] := by
  induction ts generalizing start with
  | nil => rw [List.map_nil, forestRefusals]
  | cons t ts ih => rw [List.map_cons, forestRefusals, refusals, ih, List.append_nil]

mutual

/-- Refusals, gathered along the tree, are the first ranges of its error nodes. -/
theorem map_firstRange_sites (above : List Step) (start : Nat) : (t : Tree) →
    ((t.sites above start).filter (Site.isNode .errorNode)).map Site.firstRange? =
      t.refusals start
  | leaf t => by simp [sites, refusals, Site.isNode, isNode]
  | node k cs => by
    have hcs := map_firstRange_forestSites (.first (node k cs) start) above start cs
    rw [sites, refusals, List.filter_cons]
    by_cases hk : k = .errorNode
    · rw [if_pos hk, if_pos (by simp [Site.isNode, isNode, hk]), List.map_cons, hcs]
      rfl
    · rw [if_neg hk, if_neg (by simp [Site.isNode, isNode, hk]), hcs]

theorem map_firstRange_forestSites (step : Step) (above : List Step) (start : Nat) :
    (ts : List Tree) →
    ((forestSites step above start ts).filter (Site.isNode .errorNode)).map Site.firstRange? =
      forestRefusals start ts
  | [] => by simp [forestSites, forestRefusals]
  | t :: ts => by
    rw [forestSites, forestRefusals, List.filter_append, List.map_append,
      map_firstRange_sites (step :: above) start t,
      map_firstRange_forestSites step.next above (start + t.size) ts]

end

end Tree

/-! ## Outcomes that account for their tokens -/

/-- The bytes that a problem concerns. -/
def Problem.range (p : Problem) : Nat × Nat := (p.start, p.stop)

/-- No token is lost, and no byte. -/
structure Outcome.Tracks (c : Cursor) (o : Outcome) : Prop where
  covers : o.Covers c
  offset : o.cursor.offset = c.offset + Tree.forestSize o.trees

/-- Problems are reported at words ahead of a cursor, or at the end, in order, and none behind the
place reached. Every error node is reported, at its first token if it has one. -/
structure Outcome.Accounts (c : Cursor) (o : Outcome) : Prop extends o.Tracks c where
  located : ∀ p ∈ o.problems, p.range ∈ c.places ∧ p.start ≤ o.cursor.location.1
  ordered : o.problems.Pairwise fun p q => p.start ≤ q.start
  refused : (Tree.forestRefusals c.offset o.trees).reduceOption.Sublist
    (o.problems.map Problem.range)
  counted : (Tree.forestRefusals c.offset o.trees).length ≤ o.problems.length

namespace Outcome

variable {c : Cursor} {o : Outcome}

theorem Tracks.andThen {next : Cursor → Outcome} (h : o.Tracks c)
    (hnext : (next o.cursor).Tracks o.cursor) : (o.andThen next).Tracks c where
  covers := h.covers.andThen hnext.covers
  offset := by
    show (next o.cursor).cursor.offset = c.offset + Tree.forestSize (o.trees ++ _)
    rw [hnext.offset, h.offset, Tree.forestSize_append, Nat.add_assoc]

theorem Tracks.enclose (h : o.Tracks c) (k : Kind) : (o.enclose k).Tracks c where
  covers := h.covers.enclose k
  offset := by
    show o.cursor.offset = c.offset + Tree.forestSize [.node k o.trees]
    rw [h.offset, Tree.forestSize, Tree.size, Tree.forestSize, Nat.add_zero]

/-- The words ahead of the place reached were ahead before. -/
theorem Tracks.places_suffix (h : o.Tracks c) : o.cursor.places <:+ c.places := by
  have hdrop := Token.drop_places c.offset (Tree.forestTokens o.trees) o.cursor.rest
  rw [h.covers, ← Tree.forestSize_eq_width, ← h.offset] at hdrop
  exact ⟨_, hdrop ▸ List.take_append_drop _ _⟩

/-- Problems of later stretches do not start before those of earlier ones. -/
theorem Tracks.location_le (h : o.Tracks c) : c.location.1 ≤ o.cursor.location.1 :=
  Cursor.location_le_of_mem_places (h.places_suffix.subset (Cursor.location_mem_places _))

/-- The problems of a stretch are at places that the stretch before has not gone past. -/
theorem Accounts.andThen {next : Cursor → Outcome} (h : o.Accounts c)
    (hnext : (next o.cursor).Accounts o.cursor) : (o.andThen next).Accounts c where
  toTracks := h.toTracks.andThen hnext.toTracks
  located p hp := by
    rcases List.mem_append.mp hp with hp | hp
    · exact ⟨(h.located p hp).1, Nat.le_trans (h.located p hp).2 hnext.location_le⟩
    · exact ⟨h.places_suffix.subset (hnext.located p hp).1, (hnext.located p hp).2⟩
  ordered := by
    refine List.pairwise_append.mpr ⟨h.ordered, hnext.ordered, fun p hp q hq => ?_⟩
    exact Nat.le_trans (h.located p hp).2
      (Cursor.location_le_of_mem_places (hnext.located q hq).1)
  refused := by
    show (Tree.forestRefusals c.offset (o.trees ++ _)).reduceOption.Sublist _
    rw [Tree.forestRefusals_append, ← h.offset, List.reduceOption_append, problems_andThen,
      List.map_append]
    exact h.refused.append hnext.refused
  counted := by
    show (Tree.forestRefusals c.offset (o.trees ++ _)).length ≤ _
    rw [Tree.forestRefusals_append, ← h.offset, List.length_append, problems_andThen,
      List.length_append]
    exact Nat.add_le_add h.counted hnext.counted

/-- A node that is no error node needs no report. -/
theorem Accounts.enclose {k : Kind} (h : o.Accounts c) (hk : k ≠ .errorNode) :
    (o.enclose k).Accounts c := by
  have hrefusals : Tree.forestRefusals c.offset (o.enclose k).trees =
      Tree.forestRefusals c.offset o.trees := by
    simp [Outcome.enclose, Tree.forestRefusals, Tree.refusals, hk]
  refine ⟨h.toTracks.enclose k, h.located, h.ordered, ?_, ?_⟩
  · rw [hrefusals]
    exact h.refused
  · rw [hrefusals]
    exact h.counted

theorem Accounts.wrapWhile {wrap : Kind → Option Kind} {next : Kind → Cursor → Outcome}
    (hwrap : ∀ k, wrap k ≠ some .errorNode) (hnext : ∀ k c, (next k c).Accounts c) (n : Nat)
    (h : o.Accounts c) : (o.wrapWhile wrap next n).Accounts c := by
  induction n generalizing o with
  | zero => exact h
  | succ n ih =>
    unfold Outcome.wrapWhile
    split
    · exact h
    · next k hk =>
      refine ih ((h.andThen (hnext _ _)).enclose fun heq => ?_)
      exact hwrap o.cursor.current (heq ▸ hk)

end Outcome

namespace Cursor

theorem tracks_take (n : Nat) (c : Cursor) : (c.take n).Tracks c where
  covers := c.take_covers n
  offset := by
    show c.offset + width (c.rest.take n) = c.offset + Tree.forestSize ((c.rest.take n).map .leaf)
    rw [Tree.forestSize_eq_width, Tree.forestTokens_leaves]

theorem tracks_report (f : Fault) (c : Cursor) : (c.report f).Tracks c := ⟨c.report_covers f, rfl⟩

theorem accounts_take (n : Nat) (c : Cursor) : (c.take n).Accounts c where
  toTracks := c.tracks_take n
  located := nofun
  ordered := .nil
  refused := by
    show (Tree.forestRefusals c.offset ((c.rest.take n).map .leaf)).reduceOption.Sublist []
    rw [Tree.forestRefusals_leaves]
    exact .slnil
  counted := by
    show (Tree.forestRefusals c.offset ((c.rest.take n).map .leaf)).length ≤ 0
    rw [Tree.forestRefusals_leaves]
    rfl

theorem accounts_report (f : Fault) (c : Cursor) : (c.report f).Accounts c where
  toTracks := c.tracks_report f
  located p hp := by
    obtain rfl := List.mem_singleton.mp hp
    exact ⟨c.location_mem_places, Nat.le_refl _⟩
  ordered := List.pairwise_singleton _ _
  refused := List.nil_sublist _
  counted := Nat.zero_le _

theorem accounts_repeatWhile {test : Cursor → Bool} {body : Cursor → Outcome}
    (hbody : ∀ c, (body c).Accounts c) (n : Nat) (c : Cursor) :
    (c.repeatWhile test body n).Accounts c := by
  induction n generalizing c with
  | zero => exact c.accounts_take 0
  | succ n ih =>
    unfold repeatWhile
    split
    · exact (hbody c).andThen (ih _)
    · exact c.accounts_take 0

variable {c : Cursor} {n : Nat} {x : Nat × Nat}

/-- The first token behind a gap is the next word. -/
theorem firstRange_take_gap
    (h : Token.firstRange? c.gap.cursor.offset (c.gap.cursor.rest.take n) = some x) :
    x = c.location := by
  obtain ⟨t, ht, rfl⟩ := Option.map_eq_some_iff.mp h
  obtain ⟨ts, hts⟩ := List.head?_eq_some_iff.mp ht
  have hrest : c.gap.cursor.rest = t :: (ts ++ c.gap.cursor.rest.drop n) := by
    rw [← List.cons_append, ← hts, List.take_append_drop]
  have htrivia : t.isTrivia = false := by
    have hdrop := c.rest_gap.symm.trans hrest
    have hword := List.head_dropWhile_not Token.isTrivia (l := c.rest) (by simp [hdrop])
    simpa [hdrop] using hword
  have hhead := c.gap.cursor.head?_places
  rw [location_gap, places, hrest, Token.places, htrivia] at hhead
  exact Option.some_inj.mp hhead

theorem forestRefusals_refuse (f : Fault) (n : List Token → Nat) (c : Cursor) :
    Tree.forestRefusals c.offset (c.refuse f n).trees =
      [Token.firstRange? c.gap.cursor.offset
        (c.gap.cursor.rest.take (n c.gap.cursor.rest))] := by
  have hgap : c.gap.cursor.offset = c.offset + Tree.forestSize c.gap.trees :=
    (c.tracks_take c.triviaCount).offset
  show Tree.forestRefusals c.offset (c.gap.trees ++ [.node .errorNode
    ((c.gap.cursor.rest.take (n c.gap.cursor.rest)).map .leaf)]) = _
  rw [Tree.forestRefusals_append, ← hgap, trees_gap, Tree.forestRefusals_leaves]
  rw [Tree.forestRefusals, Tree.refusals, if_pos rfl, Tree.forestTokens_leaves,
    Tree.forestRefusals_leaves, Tree.forestRefusals]
  rfl

/-- Tokens that are put into an error node are reported. -/
theorem accounts_refuse (f : Fault) (n : List Token → Nat) (c : Cursor) :
    (c.refuse f n).Accounts c := by
  have htracks : (c.refuse f n).Tracks c :=
    (c.tracks_report f).andThen ((c.tracks_take _).andThen ((tracks_take _ _).enclose _))
  refine ⟨htracks, fun p hp => ?_, List.pairwise_singleton _ _, ?_, ?_⟩
  · obtain rfl := List.mem_singleton.mp hp
    exact ⟨c.location_mem_places, htracks.location_le⟩
  · rw [forestRefusals_refuse]
    show List.Sublist _ [c.location]
    cases hfirst : Token.firstRange? c.gap.cursor.offset
        (c.gap.cursor.rest.take (n c.gap.cursor.rest)) with
    | none => exact List.nil_sublist _
    | some x => exact firstRange_take_gap hfirst ▸ List.Sublist.refl _
  · rw [forestRefusals_refuse]
    exact Nat.le_refl 1

end Cursor

/-! ## Rules that account for their tokens -/

namespace Rule

/-- Whether two rules in a row refuse a token. -/
def isRefusal : Rule → Rule → Bool
  | report _, node .errorNode bump => true
  | _, _ => false

/-- Whether a rule makes error nodes only for tokens that it refuses. -/
def accounts : Rule → Bool
  | seq a b => isRefusal a b || a.accounts && b.accounts
  | node k body => k != .errorNode && body.accounts
  | look _ next => Kind.all.all fun k => (next k).accounts
  | loop _ body => body.accounts
  | chain first wrap next => first.accounts &&
      Kind.all.all fun k => wrap k != some .errorNode && (next k).accounts
  | progress body _ => body.accounts
  | _ => true

/-- Two rules that refuse a token are its report and its error node. -/
theorem eq_reject_of_isRefusal {a b : Rule} (h : isRefusal a b = true) :
    ∃ f, seq a b = reject f := by
  unfold isRefusal at h
  split at h
  · exact ⟨_, rfl⟩
  · cases h

variable {deeper : Construct → Cursor → Outcome}

/-- A rule accounts for its tokens, provided that constructs do one level deeper. -/
theorem accounts_run (hdeeper : ∀ k c, (deeper k c).Accounts c) {r : Rule} (hr : r.accounts = true)
    (c : Cursor) : (r.run deeper c).Accounts c := by
  induction r generalizing c with
  | done => exact c.accounts_take 0
  | gap => exact c.accounts_take _
  | bump => exact c.accounts_take _
  | report f => exact c.accounts_report f
  | seq a b iha ihb =>
    rcases Bool.or_eq_true_iff.mp hr with hrefusal | hr
    · obtain ⟨f, hreject⟩ := eq_reject_of_isRefusal hrefusal
      rw [hreject, run_reject, Cursor.reject_eq_refuse]
      exact c.accounts_refuse f _
    · obtain ⟨ha, hb⟩ := Bool.and_eq_true_iff.mp hr
      exact (iha ha c).andThen (ihb hb _)
  | node k body ih =>
    obtain ⟨hk, hbody⟩ := Bool.and_eq_true_iff.mp hr
    exact (c.accounts_take _).andThen ((ih hbody _).enclose (by simpa using hk))
  | look skip next ih => exact ih _ (List.all_eq_true.mp hr _ (Kind.mem_all _)) c
  | loop test body ih => exact Cursor.accounts_repeatWhile (ih hr) _ c
  | chain first wrap next ihf ihn =>
    obtain ⟨hf, hn⟩ := Bool.and_eq_true_iff.mp hr
    have hn : ∀ k, wrap k ≠ some .errorNode ∧ (next k).accounts = true := by
      intro k
      simpa using List.all_eq_true.mp hn k (Kind.mem_all k)
    exact (ihf hf c).wrapWhile (fun k => (hn k).1) (fun k c => ihn k (hn k).2 c) _
  | progress body f ih =>
    simp only [run]
    split
    · exact (ih hr c).andThen (Cursor.reject_eq_refuse f _ ▸ Cursor.accounts_refuse f _ _)
    · exact ih hr c
  | nest k => exact hdeeper k c

end Rule

/-- No production makes an error node for a token that it does not refuse. -/
theorem Construct.accounts_rule (k : Construct) : k.rule.accounts = true := by
  cases k <;> decide +kernel

/-- At every level, each construct reports its error nodes where they start. -/
theorem Construct.accounts_parse (n : Nat) (k : Construct) (c : Cursor) :
    (parse n k c).Accounts c := by
  induction n generalizing k c with
  | zero =>
    rw [parse, Cursor.cutOff_eq_refuse]
    exact c.accounts_refuse _ _
  | succ n ih => exact Rule.accounts_run ih k.accounts_rule c

theorem Rule.accounts_file : file.accounts = true := by decide +kernel

/-! ## Texts without problems -/

/-- A kind that no construct and no file mentions is in no text without problems. -/
theorem Form.not_mem_of_avoids_nested {k : Kind} (hk : ∀ c : Construct, c.form.avoids k = true)
    {n : Nat} {f : Form} {w : List Kind} (h : f.avoids k = true) (hw : Derives n f w) : k ∉ w := by
  induction hw with
  | empty => exact List.not_mem_nil
  | one ht =>
    intro hmem
    obtain rfl := List.mem_singleton.mp hmem
    simp [avoids, ht] at h
  | seq _ _ ihf ihg =>
    obtain ⟨hf, hg⟩ := Bool.and_eq_true_iff.mp h
    exact fun hmem => (List.mem_append.mp hmem).elim (ihf hf) (ihg hg)
  | altLeft _ ih => exact ih (Bool.and_eq_true_iff.mp h).1
  | altRight _ ih => exact ih (Bool.and_eq_true_iff.mp h).2
  | manyNil => exact List.not_mem_nil
  | manyCons _ _ ihf ihr => exact fun hmem => (List.mem_append.mp hmem).elim (ihf h) (ihr h)
  | nested _ ih => exact ih (hk _)

/-- No form mentions the tokens that the lexer gave up on. -/
theorem Construct.avoids_error (k : Construct) : k.form.avoids .error = true := by
  cases k <;> decide +kernel

/-- A text without problems has no token that is an error. -/
theorem kind_ne_error_of_problems_eq_nil {text : String} (h : (parse text).problems = [])
    {t : Token} (ht : t ∈ Token.scan text) : t.kind ≠ .error := by
  have hderives := (problems_parseTokens_eq_nil_iff fun _ => Token.kind_ne_eof_of_mem_scan).mp h
  have havoids := Form.not_mem_of_avoids_nested Construct.avoids_error rfl hderives
  intro hkind
  refine havoids (List.mem_map.mpr ⟨t, List.mem_filter.mpr ⟨ht, ?_⟩, hkind⟩)
  rw [Token.isTrivia, hkind]
  rfl

/-! ## Texts -/

/-- Each problem of a text is reported at a token that is neither a blank nor a comment, or at the
end of the text, and the problems are in order of where they start. The error nodes that have a
first token start where problems were reported, in this order; there are not more error nodes than
problems. So a text without problems has no error nodes, and no tokens that are errors either. -/
theorem problems_account (text : String) :
    (∀ p ∈ (parse text).problems,
      (∃ t, (p.start, t) ∈ Token.spread 0 (Token.scan text) ∧ t.isTrivia = false ∧
        p.stop = p.start + t.size) ∨
      p.start = text.utf8ByteSize ∧ p.stop = text.utf8ByteSize) ∧
    ((parse text).problems.Pairwise fun p q => p.start ≤ q.start) ∧
    (((Site.root (parse text).tree).descendants.filter (Site.isNode .errorNode)).filterMap
      Site.firstRange?).Sublist ((parse text).problems.map Problem.range) ∧
    (Site.root (parse text).tree).descendants.countP (Site.isNode .errorNode) ≤
      (parse text).problems.length ∧
    ((parse text).problems = [] →
      (∀ s ∈ (Site.root (parse text).tree).descendants, s.isNode .errorNode = false) ∧
      ∀ t ∈ (parse text).tree.tokens, t.kind ≠ .error) := by
  have haccounts := Rule.accounts_run (Construct.accounts_parse maxDepth) Rule.accounts_file
    ⟨0, Token.scan text⟩
  -- The error nodes of the tree, by their first tokens, are the refusals of its children.
  have hrefusals : ((Site.root (parse text).tree).descendants.filter (Site.isNode .errorNode)).map
      Site.firstRange? = Tree.forestRefusals 0 (parse text).tree.children := by
    rw [Site.descendants, Tree.map_firstRange_sites]
    show Tree.refusals 0 (.node .sourceFile (parse text).tree.children) = _
    rw [Tree.refusals, if_neg (by decide)]
  have hcount : (Site.root (parse text).tree).descendants.countP (Site.isNode .errorNode) ≤
      (parse text).problems.length := by
    rw [List.countP_eq_length_filter, ← List.length_map Site.firstRange?, hrefusals]
    exact haccounts.counted
  refine ⟨fun p hp => ?_, haccounts.ordered, ?_, hcount, fun hclean => ⟨?_, ?_⟩⟩
  · rcases Token.mem_places_cases (haccounts.located p hp).1 with hword | hend
    · exact .inl hword
    · rw [Nat.zero_add, Cursor.width_scan] at hend
      exact .inr (Prod.mk.inj hend)
  · have hsublist : (Tree.forestRefusals 0 (parse text).tree.children).reduceOption.Sublist _ :=
      haccounts.refused
    rw [← hrefusals, List.reduceOption, List.filterMap_map] at hsublist
    exact hsublist
  · rw [hclean, List.length_nil, Nat.le_zero, List.countP_eq_zero] at hcount
    exact fun s hs => Bool.not_eq_true _ ▸ hcount s hs
  · rw [tokens_parse]
    exact fun t => kind_ne_error_of_problems_eq_nil hclean

/-- A class that is not closed, with a stray parenthesis in it, and a correct class. -/
theorem problems_account_of_unclosed_class :
    let text := "class A \x7b ) var"
    (parse text).problems.map Problem.range = [(10, 11), (15, 15), (15, 15), (15, 15)] ∧
      (((Site.root (parse text).tree).descendants.filter (Site.isNode .errorNode)).filterMap
        Site.firstRange?).Sublist [(10, 11), (15, 15), (15, 15), (15, 15)] ∧
      (∀ s ∈ (Site.root (parse "class A {}").tree).descendants, s.isNode .errorNode = false) ∧
      ∀ t ∈ (parse "class A {}").tree.tokens, t.kind ≠ .error := by
  intro text
  have hranges : (parse text).problems.map Problem.range =
      [(10, 11), (15, 15), (15, 15), (15, 15)] := by decide +kernel
  exact ⟨hranges, hranges ▸ (problems_account text).2.2.1,
    (problems_account "class A {}").2.2.2.2 (by decide +kernel)⟩

end ClassNav
