import ClassNav.Proofs.Grammar.Form
import ClassNav.Proofs.Grammar.Trivia

/-!
# Where counting brackets ends

`Token.swallow` finds the end of a stretch of tokens by counting brackets. This module says which
rows it finds the end of.

* `Kind.rise` is the number of groups that a row opens and does not close. In a construct of the
  grammar every group is closed again and none that was opened before it (`Form.level_nested`);
  that can be read off the forms by evaluation (`Form.course`).
* A row is `Kind.Compact` if outside its brackets there are no separators, and nothing behind its
  first group. What counting brackets goes over is compact (`Token.compact_take_swallow`), and it
  goes over the whole of a compact row that is level (`Token.swallow_eq_length`), provided that a
  row without brackets stands before a separator or a closing bracket.
-/

namespace ClassNav

/-! ## Open groups -/

namespace Kind

/-- What a kind adds to the number of open groups. -/
def step (k : Kind) : Int := if k.opensGroup then 1 else if k.closesGroup then -1 else 0

/-- How many more groups are open behind a row than before it. -/
def rise : List Kind → Int
  | [] => 0
  | k :: ks => k.step + rise ks

@[simp] theorem rise_nil : rise [] = 0 := rfl

@[simp] theorem rise_cons (k : Kind) (ks : List Kind) : rise (k :: ks) = k.step + rise ks := rfl

@[simp] theorem rise_append (ks ls : List Kind) : rise (ks ++ ls) = rise ks + rise ls := by
  induction ks with
  | nil => rw [List.nil_append, rise_nil, Int.zero_add]
  | cons k ks ih => rw [List.cons_append, rise_cons, rise_cons, ih, Int.add_assoc]

/-- A row goes up by `final`, and never further down than to `low` on the way. -/
structure Runs (low final : Int) (ks : List Kind) : Prop where
  rise_eq : rise ks = final
  above : ∀ p, p <+: ks → low ≤ rise p

/-- A row closes the groups that it opens, and no others. -/
abbrev Level (ks : List Kind) : Prop := Runs 0 0 ks

/-- Every place of a row outside its brackets stands before the first of them, and holds no
separator. -/
def Compact (ks : List Kind) : Prop :=
  ∀ p k, p ++ [k] <+: ks → rise p = 0 → (∀ j ∈ p, j.opensGroup = false) ∧ k.separates = false

/-- What counting brackets stops before, if no group is open. -/
def stops (k : Kind) : Bool := k.closesGroup || k.separates

/-- A kind opens a group, closes one, or does neither. -/
theorem step_cases (k : Kind) :
    (k.opensGroup = true ∧ k.step = 1) ∨
    (k.opensGroup = false ∧ k.closesGroup = true ∧ k.step = -1) ∨
    (k.opensGroup = false ∧ k.closesGroup = false ∧ k.step = 0) := by
  cases k <;> decide

theorem opensGroup_of_stops {k : Kind} (h : k.stops = true) : k.opensGroup = false := by
  cases k <;> first | rfl | cases h

/-- A place of a row is its first one, or a place of what follows. -/
theorem place_cons_iff {p : List Kind} {j k : Kind} {ks : List Kind} :
    p ++ [j] <+: k :: ks ↔ p = [] ∧ j = k ∨ ∃ q, p = k :: q ∧ q ++ [j] <+: ks := by
  cases p with
  | nil => simp [List.cons_prefix_cons]
  | cons i q =>
    simp only [List.cons_append, List.cons_prefix_cons, reduceCtorEq, false_and, false_or,
      List.cons.injEq]
    constructor
    · rintro ⟨rfl, h⟩
      exact ⟨q, ⟨rfl, rfl⟩, h⟩
    · rintro ⟨_, ⟨rfl, rfl⟩, h⟩
      exact ⟨rfl, h⟩

/-- The second of two rows starts from where the first one has come to. -/
theorem Runs.append {low low' final final' : Int} {ks ls : List Kind} (h : Runs low final ks)
    (h' : Runs low' final' ls) : Runs (min low (final + low')) (final + final') (ks ++ ls) where
  rise_eq := by rw [rise_append, h.rise_eq, h'.rise_eq]
  above p hp := by
    rcases List.prefix_or_prefix_of_prefix hp (List.prefix_append ks ls) with hp | ⟨q, rfl⟩
    · exact Int.le_trans (Int.min_le_left _ _) (h.above p hp)
    · have hq := h'.above q ((List.prefix_append_right_inj ks).mp hp)
      rw [rise_append, h.rise_eq]
      exact Int.le_trans (Int.min_le_right _ _) (Int.add_le_add_left hq final)

theorem Runs.mono {low low' final : Int} {ks : List Kind} (h : Runs low final ks)
    (hle : low' ≤ low) : Runs low' final ks :=
  ⟨h.rise_eq, fun p hp => Int.le_trans hle (h.above p hp)⟩

theorem runs_nil : Level [] :=
  ⟨rfl, fun p hp => by rw [List.prefix_nil.mp hp]; exact Int.le_refl 0⟩

theorem runs_singleton (k : Kind) : Runs (min 0 k.step) k.step [k] where
  rise_eq := by simp
  above p hp := by
    rcases List.prefix_cons_iff.mp hp with rfl | ⟨q, rfl, hq⟩
    · exact Int.min_le_left _ _
    · rw [List.prefix_nil.mp hq, rise_cons, rise_nil, Int.add_zero]
      exact Int.min_le_right _ _

end Kind

/-! ## Brackets in forms -/

namespace Form

/-- Whether all kinds that pass a test add the same to the number of open groups. -/
def allStep (test : Kind → Bool) (s : Int) : Bool := Kind.all.all fun k => !test k || k.step == s

/-- By how much the rows of a form go down at most and up in the end, if they agree in that. -/
def course : Form → Option (Int × Int)
  | empty => some (0, 0)
  | one test => ([0, 1, -1].find? (allStep test)).map fun s => (min 0 s, s)
  | seq f g => f.course.bind fun (l, a) => g.course.map fun (m, b) => (min l (a + m), a + b)
  | alt f g => f.course.bind fun (l, a) => g.course.bind fun (m, b) =>
      if a = b then some (min l m, a) else none
  | many f => f.course.bind fun (l, a) => if a = 0 then some (min 0 l, 0) else none
  | nested _ => some (0, 0)

/-- No construct leaves a group open, or closes one that it did not open. -/
theorem course_form (k : Construct) : k.form.course = some (0, 0) := by
  cases k <;> decide +kernel

/-- What evaluation finds for a form holds of all of its rows. -/
theorem Derives.runs {n : Nat} {f : Form} {w : List Kind} (h : Derives n f w) {low final : Int}
    (hf : f.course = some (low, final)) : Kind.Runs low final w := by
  induction h generalizing low final with
  | empty =>
    cases hf
    exact Kind.runs_nil
  | @one n test k ht =>
    obtain ⟨s, hs, heq⟩ := Option.map_eq_some_iff.mp hf
    have hall : allStep test s = true := List.find?_some hs
    have hall := List.all_eq_true.mp hall k (Kind.mem_all k)
    have hk : k.step = s := by simpa [ht] using hall
    subst hk
    cases heq
    exact Kind.runs_singleton k
  | seq _ _ ihf ihg =>
    obtain ⟨⟨l, a⟩, hl, hf⟩ := Option.bind_eq_some_iff.mp hf
    obtain ⟨⟨m, b⟩, hm, heq⟩ := Option.map_eq_some_iff.mp hf
    cases heq
    exact (ihf hl).append (ihg hm)
  | altLeft _ ih =>
    obtain ⟨⟨l, a⟩, hl, hf⟩ := Option.bind_eq_some_iff.mp hf
    obtain ⟨⟨m, b⟩, -, hf⟩ := Option.bind_eq_some_iff.mp hf
    obtain ⟨rfl, heq⟩ := Option.ite_none_right_eq_some.mp hf
    cases heq
    exact (ih hl).mono (Int.min_le_left l m)
  | altRight _ ih =>
    obtain ⟨⟨l, a⟩, -, hf⟩ := Option.bind_eq_some_iff.mp hf
    obtain ⟨⟨m, b⟩, hm, hf⟩ := Option.bind_eq_some_iff.mp hf
    obtain ⟨rfl, heq⟩ := Option.ite_none_right_eq_some.mp hf
    cases heq
    exact (ih hm).mono (Int.min_le_right l m)
  | manyNil =>
    obtain ⟨⟨l, a⟩, -, hf⟩ := Option.bind_eq_some_iff.mp hf
    obtain ⟨rfl, heq⟩ := Option.ite_none_right_eq_some.mp hf
    cases heq
    exact Kind.runs_nil.mono (Int.min_le_left 0 l)
  | manyCons _ _ ihf ihr =>
    obtain ⟨⟨l, a⟩, hl, hbound⟩ := Option.bind_eq_some_iff.mp hf
    obtain ⟨rfl, heq⟩ := Option.ite_none_right_eq_some.mp hbound
    cases heq
    -- What is repeated ends level, so the repetition goes no further down than one part.
    have h := (ihf hl).append (ihr hf)
    refine ⟨h.rise_eq, (h.mono ?_).above⟩
    rw [Int.zero_add]
    exact Int.le_min.mpr ⟨Int.min_le_right 0 l, Int.le_refl _⟩
  | @nested n k w _ ih =>
    cases hf
    exact ih (course_form k)

/-- A construct closes the groups that it opens, and no others. -/
theorem level_nested {n : Nat} {k : Construct} {w : List Kind} (h : Derives n (nested k) w) :
    Kind.Level w :=
  h.runs rfl

/-- All constructs but expressions have braces. -/
theorem exists_opensGroup {n : Nat} {k : Construct} {w : List Kind} (h : Derives n (nested k) w)
    (hk : k ≠ .expression) : ∃ j ∈ w, j.opensGroup = true := by
  have hbraces : ∀ {n w g}, Derives n (row [token .lBrace, g, token .rBrace]) w →
      ∃ j ∈ w, j.opensGroup = true := by
    intro n w g h
    obtain ⟨_, hopen, _⟩ := splits_seq.mp ⟨w, (List.append_nil w).symm, h⟩
    rw [splits_token.mp hopen]
    exact ⟨.lBrace, List.mem_cons_self, rfl⟩
  cases h with
  | nested h =>
    cases k with
    | anonymousType => exact hbraces h
    | block => exact hbraces h
    | expression => exact absurd rfl hk
    | classDecl =>
      -- The members stand last.
      cases h with
      | seq _ h => cases h with
      | seq _ h => cases h with
      | seq _ h => cases h with
      | seq _ h => cases h with
      | seq _ h =>
        obtain ⟨j, hj, hopens⟩ := hbraces h
        exact ⟨j, by simp [hj], hopens⟩

end Form

/-! ## Passing over a word -/

namespace Token

section

variable {t : Token} {d : Nat} (ht : t.isTrivia = false) (ts : List Token)
include ht

/-- An opening bracket is passed over, and there is one more group to close. -/
theorem swallow_of_opensGroup (h : t.kind.opensGroup = true) :
    swallow d (t :: ts) = swallow (d + 1) ts + 1 := by
  simp [swallow, ht, h]

/-- With no group open, a separator or a closing bracket belongs to a level further out. -/
theorem swallow_of_stops (h : t.kind.stops = true) : swallow 0 (t :: ts) = 0 := by
  have hopens := Kind.opensGroup_of_stops h
  rcases Bool.or_eq_true_iff.mp h with h | h
  · simp [swallow, ht, hopens, h]
  · simp [swallow, ht, hopens, h]

/-- The bracket that closes the first group is the last token that is passed over. -/
theorem swallow_of_closesGroup (hopens : t.kind.opensGroup = false)
    (hcloses : t.kind.closesGroup = true) :
    swallow 1 (t :: ts) = 1 ∧ swallow (d + 2) (t :: ts) = swallow (d + 1) ts + 1 := by
  simp [swallow, ht, hopens, hcloses]

/-- Other tokens are passed over, separators only in a group. -/
theorem swallow_of_neither (hopens : t.kind.opensGroup = false)
    (hcloses : t.kind.closesGroup = false) (h : t.kind.separates = false ∨ d ≠ 0) :
    swallow d (t :: ts) = swallow d ts + 1 := by
  rcases h with h | h
  · simp [swallow, ht, hopens, hcloses, h]
  · simp [swallow, ht, hopens, hcloses, h]

end

/-! ## Rows that are passed over -/

variable {w v : List Token}

/-- Inside a group, the stretch ends where the group is closed. -/
theorem rise_of_swallow {d : Nat} (hw : ∀ t ∈ w, t.isTrivia = false)
    (h : swallow (d + 1) (w ++ v) = w.length) {p : List Kind} {k : Kind}
    (hp : p ++ [k] <+: w.map kind) : (d + 1 : Int) + Kind.rise p ≠ 0 := by
  induction w generalizing d p with
  | nil => simp at hp
  | cons t w ih =>
    obtain ⟨ht, hw⟩ := List.forall_mem_cons.mp hw
    rcases Kind.place_cons_iff.mp hp with ⟨rfl, _⟩ | ⟨q, rfl, hq⟩
    · rw [Kind.rise_nil]
      omega
    rw [List.cons_append] at h
    rw [Kind.rise_cons]
    rcases t.kind.step_cases with
      ⟨hopens, hstep⟩ | ⟨hopens, hcloses, hstep⟩ | ⟨hopens, hcloses, hstep⟩
    · rw [swallow_of_opensGroup ht _ hopens] at h
      have hrise := ih hw (Nat.succ.inj h) hq
      omega
    · cases d with
      | zero =>
        rw [(swallow_of_closesGroup (d := 0) ht _ hopens hcloses).1] at h
        obtain rfl : w = [] := List.eq_nil_of_length_eq_zero (Nat.succ.inj h).symm
        simp at hq
      | succ d =>
        rw [(swallow_of_closesGroup ht _ hopens hcloses).2] at h
        have hrise := ih hw (Nat.succ.inj h) hq
        omega
    · rw [swallow_of_neither ht _ hopens hcloses (.inr (Nat.succ_ne_zero d))] at h
      have hrise := ih hw (Nat.succ.inj h) hq
      omega

/-- Only compact rows are passed over and nothing else. -/
theorem compact_of_swallow (hw : ∀ t ∈ w, t.isTrivia = false)
    (h : swallow 0 (w ++ v) = w.length) : Kind.Compact (w.map kind) := by
  induction w with
  | nil => exact fun p k hp => by simp at hp
  | cons t w ih =>
    obtain ⟨ht, hw⟩ := List.forall_mem_cons.mp hw
    have hgoes : t.kind.stops = false := by
      by_contra hstops
      rw [List.cons_append, swallow_of_stops ht _ (by simpa using hstops)] at h
      cases h
    obtain ⟨hcloses, hseparates⟩ := Bool.or_eq_false_iff.mp hgoes
    intro p k hp hrise
    rcases Kind.place_cons_iff.mp hp with ⟨rfl, rfl⟩ | ⟨q, rfl, hq⟩
    · exact ⟨fun _ hj => (List.not_mem_nil hj).elim, hseparates⟩
    rw [List.cons_append] at h
    rw [Kind.rise_cons] at hrise
    rcases t.kind.step_cases with ⟨hopens, hstep⟩ | ⟨_, hcloses', _⟩ | ⟨hopens, hcloses, hstep⟩
    · rw [swallow_of_opensGroup ht _ hopens] at h
      have hrise := rise_of_swallow hw (Nat.succ.inj h) hq
      omega
    · rw [hcloses] at hcloses'
      cases hcloses'
    · rw [swallow_of_neither ht _ hopens hcloses (.inl hseparates)] at h
      obtain ⟨hplain, hk⟩ := ih hw (Nat.succ.inj h) q k hq (by omega)
      exact ⟨List.forall_mem_cons.mpr ⟨hopens, hplain⟩, hk⟩

/-- A stretch that stays inside a group up to its end, where it closes the group, is passed over. -/
theorem swallow_of_rise {d : Nat} (hw : ∀ t ∈ w, t.isTrivia = false)
    (hinside : ∀ p k, p ++ [k] <+: w.map kind → 0 < (d + 1 : Int) + Kind.rise p)
    (hend : (d + 1 : Int) + Kind.rise (w.map kind) = 0) :
    swallow (d + 1) (w ++ v) = w.length := by
  induction w generalizing d with
  | nil =>
    rw [List.map_nil, Kind.rise_nil] at hend
    omega
  | cons t w ih =>
    obtain ⟨ht, hw⟩ := List.forall_mem_cons.mp hw
    have hrest : ∀ p k, p ++ [k] <+: w.map kind →
        0 < (d + 1 : Int) + (t.kind.step + Kind.rise p) := fun p k hp => by
      have hpast := hinside (t.kind :: p) k (Kind.place_cons_iff.mpr (.inr ⟨p, rfl, hp⟩))
      rwa [Kind.rise_cons] at hpast
    rw [List.map_cons, Kind.rise_cons] at hend
    rw [List.cons_append, List.length_cons]
    rcases t.kind.step_cases with
      ⟨hopens, hstep⟩ | ⟨hopens, hcloses, hstep⟩ | ⟨hopens, hcloses, hstep⟩
    · rw [swallow_of_opensGroup ht _ hopens, ih hw (fun p k hp => ?_) (by omega)]
      have hpast := hrest p k hp
      omega
    · cases d with
      | zero =>
        -- The group is closed here, so nothing may follow.
        cases w with
        | nil => exact (swallow_of_closesGroup (d := 0) ht _ hopens hcloses).1
        | cons u us =>
          have hpast := hrest [] u.kind (by simp [List.cons_prefix_cons])
          simp [hstep] at hpast
      | succ d =>
        rw [(swallow_of_closesGroup ht _ hopens hcloses).2, ih hw (fun p k hp => ?_) (by omega)]
        have hpast := hrest p k hp
        omega
    · rw [swallow_of_neither ht _ hopens hcloses (.inr (Nat.succ_ne_zero d)),
        ih hw (fun p k hp => ?_) (by omega)]
      have hpast := hrest p k hp
      omega

/-- A compact row that is level is passed over and nothing else, provided that one without brackets
stands before something that counting brackets stops at. -/
theorem swallow_of_compact (hw : ∀ t ∈ w, t.isTrivia = false) (hlevel : Kind.Level (w.map kind))
    (hcompact : Kind.Compact (w.map kind))
    (hstop : (∀ t ∈ w, t.kind.opensGroup = false) → swallow 0 v = 0) :
    swallow 0 (w ++ v) = w.length := by
  induction w with
  | nil => exact hstop (by simp)
  | cons t w ih =>
    obtain ⟨ht, hw⟩ := List.forall_mem_cons.mp hw
    have hplace : ∀ {p k}, p ++ [k] <+: w.map kind → t.kind :: p ++ [k] <+: (t :: w).map kind :=
      fun hp => Kind.place_cons_iff.mpr (.inr ⟨_, rfl, hp⟩)
    have habove : ∀ p, p <+: w.map kind → 0 ≤ t.kind.step + Kind.rise p := fun p hp => by
      have hprefix := hlevel.above (t.kind :: p) (List.cons_prefix_cons.mpr ⟨rfl, hp⟩)
      rwa [Kind.rise_cons] at hprefix
    have hrise : t.kind.step + Kind.rise (w.map kind) = 0 := by
      have hsum := hlevel.rise_eq
      rwa [List.map_cons, Kind.rise_cons] at hsum
    rw [List.cons_append, List.length_cons]
    rcases t.kind.step_cases with ⟨hopens, hstep⟩ | ⟨_, _, hstep⟩ | ⟨hopens, hcloses, hstep⟩
    · rw [swallow_of_opensGroup ht _ hopens, swallow_of_rise hw (fun p k hp => ?_) (by omega)]
      -- Had the group been closed before, there would be a place behind it.
      have hne : t.kind.step + Kind.rise p ≠ 0 := by
        intro h0
        have hplain :=
          (hcompact _ k (hplace hp) (by rw [Kind.rise_cons, h0])).1 _ List.mem_cons_self
        rw [hopens] at hplain
        cases hplain
      have hprefix := habove p ((List.prefix_append p [k]).trans hp)
      omega
    · have hprefix := habove [] List.nil_prefix
      rw [Kind.rise_nil] at hprefix
      omega
    · have hsep := (hcompact [] t.kind (by simp [List.cons_prefix_cons]) rfl).2
      rw [swallow_of_neither ht _ hopens hcloses (.inl hsep), ih hw ?_ ?_ ?_]
      · exact ⟨by omega, fun p hp => by have hup := habove p hp; omega⟩
      · intro p k hp h0
        have hpart := hcompact _ k (hplace hp) (by rw [Kind.rise_cons, hstep, h0]; rfl)
        exact ⟨fun j hj => hpart.1 j (List.mem_cons_of_mem _ hj), hpart.2⟩
      · exact fun hplain => hstop (List.forall_mem_cons.mpr ⟨hopens, hplain⟩)

/-! ## Trivia between the words -/

/-- The last token, if there is one, is a word. -/
def Tight (ts : List Token) : Prop := ∀ t ∈ ts.getLast?, t.isTrivia = false

theorem isTrivia_of_mem_words {ts : List Token} {t : Token} (h : t ∈ words ts) :
    t.isTrivia = false := by
  simpa using (List.mem_filter.mp h).2

theorem Tight.eq_nil {ts us : List Token} (h : Tight (ts ++ us)) (hus : words us = []) :
    us = [] := by
  rcases List.eq_nil_or_concat' us with rfl | ⟨vs, t, rfl⟩
  · rfl
  · have ht := h t (by simp)
    rw [words_append, words_cons, ht] at hus
    simp at hus

theorem Tight.append {ts us : List Token} (hus : Tight us) (h : Tight ts ∨ us ≠ []) :
    Tight (ts ++ us) := by
  by_cases hnil : us = []
  · rw [hnil, List.append_nil]
    exact h.resolve_right (not_not_intro hnil)
  · intro t ht
    rw [List.getLast?_append_of_ne_nil ts hnil] at ht
    exact hus t ht

theorem Tight.cons {t : Token} {ts : List Token} (h : t.isTrivia = false ∨ ts ≠ [])
    (hts : Tight ts) : Tight (t :: ts) :=
  show Tight ([t] ++ ts) from hts.append (h.imp_left fun ht => by simp [Tight, ht])

/-- Two ways to cut a list behind a word are the same if the same words are left. -/
theorem Tight.append_inj {as bs cs ds : List Token} (h : as ++ bs = cs ++ ds)
    (hwords : words bs = words ds) (has : Tight as) (hcs : Tight cs) : as = cs := by
  rcases List.append_eq_append_iff.mp h with ⟨us, rfl, rfl⟩ | ⟨us, rfl, rfl⟩
  · have hus : words us = [] := by simpa [words_append] using hwords
    rw [hcs.eq_nil hus, List.append_nil]
  · have hus : words us = [] := by simpa [words_append] using hwords.symm
    rw [has.eq_nil hus, List.append_nil]

theorem swallow_le_length (d : Nat) (ts : List Token) : swallow d ts ≤ ts.length := by
  fun_induction swallow d ts with
  | case1 => exact Nat.le_refl 0
  | _ => simp_all

/-- The trivia at the end of what is passed over stay outside. -/
theorem tight_take_swallow (d : Nat) (ts : List Token) : Tight (ts.take (swallow d ts)) := by
  induction ts generalizing d with
  | nil => simp [Tight]
  | cons t ts ih =>
    have hnil : Tight ((t :: ts).take 0) := by simp [Tight]
    cases ht : t.isTrivia with
    | true =>
      have hts := ih d
      have hle := swallow_le_length d ts
      simp only [swallow, ht, if_true]
      cases hn : swallow d ts with
      | zero => exact hnil
      | succ n =>
        -- Trivia is passed over only with something behind it.
        rw [hn] at hts hle
        refine hts.cons (.inr fun h => ?_)
        have hlength := congrArg List.length h
        simp only [List.length_take, List.length_nil] at hlength
        omega
    | false =>
      have hword : ∀ n, Tight (ts.take n) → Tight ((t :: ts).take (n + 1)) :=
        fun n h => h.cons (.inl ht)
      rcases t.kind.step_cases with ⟨hopens, _⟩ | ⟨hopens, hcloses, _⟩ | ⟨hopens, hcloses, _⟩
      · rw [swallow_of_opensGroup ht _ hopens]
        exact hword _ (ih _)
      · rcases d with _ | _ | d
        · rw [swallow_of_stops ht _ (by simp [Kind.stops, hcloses])]
          exact hnil
        · rw [(swallow_of_closesGroup (d := 0) ht _ hopens hcloses).1]
          exact hword 0 (by simp [Tight])
        · rw [(swallow_of_closesGroup ht _ hopens hcloses).2]
          exact hword _ (ih _)
      · by_cases hstop : t.kind.separates = true ∧ d = 0
        · obtain ⟨hsep, rfl⟩ := hstop
          rw [swallow_of_stops ht _ (by simp [Kind.stops, hsep])]
          exact hnil
        · rw [swallow_of_neither ht _ hopens hcloses (by
            simpa [imp_iff_not_or] using not_and.mp hstop)]
          exact hword _ (ih _)

/-- Trivia does not count when words are passed over. -/
theorem length_words_take_swallow (d : Nat) (ts : List Token) :
    (words (ts.take (swallow d ts))).length = swallow d (words ts) := by
  have hle := swallow_le_length d (words ts)
  have hdrop := congrArg List.length (words_drop_swallow d ts)
  have hwords := congrArg (fun us => (words us).length) (List.take_append_drop (swallow d ts) ts)
  simp only [words_append, List.length_append, List.length_drop] at hdrop hwords
  omega

/-- Passing over never goes on behind its first group, and never past a separator before it. -/
theorem compact_take_swallow (ts : List Token) : Kind.Compact (kinds (ts.take (swallow 0 ts))) := by
  have hwords : swallow 0 (words (ts.take (swallow 0 ts)) ++ words (ts.drop (swallow 0 ts))) =
      (words (ts.take (swallow 0 ts))).length := by
    rw [← words_append, List.take_append_drop]
    exact (length_words_take_swallow 0 ts).symm
  exact compact_of_swallow (fun _ => isTrivia_of_mem_words) hwords

/-- When counting brackets finds the end of a construct: the row is compact and level and ends with
a word. One without brackets has to stand before something that stops the count. -/
theorem swallow_eq_length {row rest : List Token} (htight : Tight row)
    (hlevel : Kind.Level (kinds row)) (hcompact : Kind.Compact (kinds row))
    (hstop : (∀ k ∈ kinds row, k.opensGroup = false) → (Kind.front (kinds rest)).stops = true) :
    swallow 0 (row ++ rest) = row.length := by
  have hwords : swallow 0 (words row ++ words rest) = (words row).length := by
    refine swallow_of_compact (fun _ => isTrivia_of_mem_words) hlevel hcompact fun hplain => ?_
    have hstop := hstop fun k hk => by
      obtain ⟨t, ht, rfl⟩ := List.mem_map.mp hk
      exact hplain t ht
    cases hrest : words rest with
    | nil => rfl
    | cons t ts =>
      have ht : t.isTrivia = false := isTrivia_of_mem_words (hrest ▸ List.mem_cons_self)
      refine swallow_of_stops ht ts ?_
      rwa [kinds, ← words, hrest] at hstop
  have hdrop := words_drop_swallow 0 (row ++ rest)
  rw [words_append, hwords, List.drop_left] at hdrop
  have htake := Tight.append_inj (List.take_append_drop (swallow 0 (row ++ rest)) _) hdrop
    (tight_take_swallow 0 _) htight
  have hlength := congrArg List.length htake
  rwa [List.length_take, Nat.min_eq_left (swallow_le_length 0 _)] at hlength

end Token

end ClassNav
