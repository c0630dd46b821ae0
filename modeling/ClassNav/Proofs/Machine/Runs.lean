import ClassNav.Proofs.Grammar.Continuation
import ClassNav.Proofs.Machine.Program

/-!
# Runs of the parser

What programs do to a state, whatever nodes are open in it. A rule is a function of the cursor, and
a program is tied to it by `Program.Does`: run anywhere at depth `d`, the program comes back, adds
the trees of the rule to the innermost open node, and leaves all else as it was.

* `Machine.Sound` holds in every state of a run. `Machine.Above` compares a state with an earlier
  one: what was open and finished then still is. Both are kept by single steps, and `Program.Runs`
  collects them along a run.
* `Machine.startAt?_checkpoint`: a checkpoint stays good while elements are added behind it, so a
  node that is opened there is as good as one opened before them (`Program.Does.lateNode`), as often
  as that is done (`Program.runs_tail`).
* Steps are put together as rules are: in sequence, in a node, in a choice, in a loop.
-/

namespace ClassNav

/-! ## Tokens one at a time -/

namespace Cursor

variable {c : Cursor} {t : Token} {ts : List Token}

theorem take_zero (c : Cursor) : c.take 0 = c.stay := rfl

theorem take_of_nil (h : c.rest = []) (n : Nat) : c.take n = c.stay := by
  obtain ⟨offset, rest⟩ := c
  cases h
  simp [take, advance, stay, width]

theorem gap_of_not_trivia (h : c.rest.head?.any Token.isTrivia = false) : c.gap = c.stay := by
  have hcount : c.triviaCount = 0 := by
    unfold triviaCount
    cases hrest : c.rest with
    | nil => rfl
    | cons t ts =>
      rw [hrest] at h
      rw [List.takeWhile_cons_of_neg (by simpa using h), List.length_nil]
  rw [gap, hcount, take_zero]

theorem gap_of_trivia (h : c.rest = t :: ts) (ht : t.isTrivia = true) :
    c.gap = (c.take 1).andThen gap := by
  have hcount : c.triviaCount = 1 + (c.take 1).cursor.triviaCount := by
    show (c.rest.takeWhile Token.isTrivia).length =
      1 + ((c.rest.drop 1).takeWhile Token.isTrivia).length
    rw [h, List.takeWhile_cons_of_pos ht, List.length_cons, Nat.add_comm]
    rfl
  rw [gap, hcount, take_add]
  rfl

theorem bump_eq (c : Cursor) : c.bump = c.gap.andThen (take 1) := take_add _ _ _

/-- Trivia is passed over exactly if something behind it is. -/
theorem swallow_rest (c : Cursor) (d : Nat) : Token.swallow d c.rest =
    if Token.swallow d (c.rest.dropWhile Token.isTrivia) = 0 then 0
    else c.triviaCount + Token.swallow d (c.rest.dropWhile Token.isTrivia) := by
  unfold triviaCount
  induction c.rest with
  | nil => rfl
  | cons t ts ih =>
    cases ht : t.isTrivia with
    | true =>
      rw [List.dropWhile_cons_of_pos ht, List.takeWhile_cons_of_pos ht, List.length_cons]
      simp only [Token.swallow, ht, if_true, ih]
      cases hn : Token.swallow d (ts.dropWhile Token.isTrivia) with
      | zero => rfl
      | succ n =>
        rw [if_neg (Nat.succ_ne_zero n), if_neg (Nat.succ_ne_zero n), Nat.add_right_comm]
        rfl
    | false =>
      rw [List.dropWhile_cons_of_neg (by simp [ht]), List.takeWhile_cons_of_neg (by simp [ht]),
        List.length_nil, Nat.zero_add]
      split
      · assumption
      · rfl

/-- What stands behind the trivia is the next token that counts. -/
theorem bump_of_dropWhile (h : c.rest.dropWhile Token.isTrivia = t :: ts) :
    t ∈ c.rest ∧ t.isTrivia = false ∧ c.current = t.kind ∧ c.bump.cursor.rest = ts := by
  have ht : t.isTrivia = false := by
    have hhead := List.head_dropWhile_not Token.isTrivia (l := c.rest) (by simp [h])
    simpa [h] using hhead
  refine ⟨(List.dropWhile_sublist _).subset (h ▸ List.mem_cons_self), ht, ?_, ?_⟩
  · rw [current_eq, kinds, ← Token.kinds_dropWhile, h, Token.kinds_cons, ht]
    rfl
  · show c.rest.drop (c.triviaCount + 1) = ts
    rw [drop_triviaCount_succ, h, List.tail_cons]

/-- Passes over words, with `d` groups open. -/
def pass (d : Nat) (c : Cursor) : Outcome := c.take (Token.swallow d c.rest)

theorem pass_of_zero {ws : List Token} {d : Nat} (h : c.rest.dropWhile Token.isTrivia = ws)
    (hzero : Token.swallow d ws = 0) : c.pass d = c.stay := by
  rw [pass, swallow_rest, h, hzero, if_pos rfl, take_zero]

theorem pass_of_succ {ws : List Token} {d n : Nat} (h : c.rest.dropWhile Token.isTrivia = ws)
    (hsucc : Token.swallow d ws = n + 1) : c.pass d = c.bump.andThen (take n) := by
  rw [pass, swallow_rest, h, hsucc, if_neg (Nat.succ_ne_zero n), ← Nat.add_assoc,
    Nat.add_right_comm, take_add]
  rfl

end Cursor

/-! ## States that a run may go through -/

namespace Machine

variable {m v w : Machine} {o : Outcome} {k : Kind}

/-- What holds in every state: the depth is within the limit, the offset is the length of the tokens
that are leaves, every open node starts at or before the last element, and no token has the kind
that stands for the end of the input. -/
structure Sound (m : Machine) : Prop where
  depth_le : m.depth ≤ maxDepth
  offset_eq : m.cursor.offset = Tree.forestSize m.builder.children
  first_le : ∀ e ∈ m.builder.parents, e.2 ≤ m.builder.children.length
  kind_ne : ∀ t ∈ m.cursor.rest, t.kind ≠ .eof

/-- In state `v` the nodes that were open in state `m` are still open, with the elements that they
had, and the depth is not less. -/
structure Above (m v : Machine) : Prop where
  parents : m.builder.parents <:+ v.builder.parents
  children : m.builder.children <+: v.builder.children
  depth : m.depth ≤ v.depth
  sound : v.Sound

theorem Above.refl (h : m.Sound) : m.Above m :=
  ⟨List.suffix_refl _, List.prefix_refl _, Nat.le_refl _, h⟩

theorem Above.trans (h : m.Above v) (h' : v.Above w) : m.Above w :=
  ⟨h.parents.trans h'.parents, h.children.trans h'.children, Nat.le_trans h.depth h'.depth,
    h'.sound⟩

/-- The state after an outcome: its trees are added to the innermost open node. -/
def after (m : Machine) (o : Outcome) : Machine :=
  ⟨o.cursor, m.depth, m.builder.push o.trees, m.problems ++ o.problems⟩

@[simp] theorem cursor_after (m : Machine) (o : Outcome) : (m.after o).cursor = o.cursor := rfl

theorem after_stay (m : Machine) : m.after m.cursor.stay = m := by
  simp [after, Cursor.stay, Builder.push]

theorem after_after_stay (m : Machine) (o : Outcome) :
    (m.after o).after o.cursor.stay = m.after o :=
  (m.after o).after_stay

theorem after_andThen (m : Machine) (o : Outcome) (next : Cursor → Outcome) :
    m.after (o.andThen next) = (m.after o).after (next o.cursor) := by
  simp [after, Outcome.andThen, Builder.push]

/-- The state with one more node open. -/
def opened (m : Machine) (k : Kind) : Machine := { m with builder := m.builder.start k }

/-- Closing a node makes one tree of what was added to it. -/
theorem finish?_opened (m : Machine) (k : Kind) (o : Outcome) :
    ((m.opened k).after o).builder.finish? = some (m.after (o.enclose k)).builder := by
  simp [Builder.finish?, after, opened, Builder.start, Builder.push, Outcome.enclose]

/-- A node that is opened at a checkpoint is as good as one that was opened when the checkpoint was
taken. -/
theorem startAt?_checkpoint (h : m.Sound) (k : Kind) (o : Outcome) :
    (m.after o).builder.startAt? m.builder.checkpoint k = some ((m.opened k).after o).builder := by
  have hfloor : m.builder.floor ≤ m.builder.children.length := by
    unfold Builder.floor
    cases hp : m.builder.parents with
    | nil => exact Nat.zero_le _
    | cons e es => exact h.first_le e (hp ▸ List.mem_cons_self)
  have hcheck : m.builder.checkpoint.level = (m.after o).builder.parents.length ∧
      (m.after o).builder.floor ≤ m.builder.checkpoint.position ∧
        m.builder.checkpoint.position ≤ (m.after o).builder.children.length := by
    refine ⟨rfl, hfloor, ?_⟩
    simp [Builder.checkpoint, after, Builder.push]
  rw [Builder.startAt?, if_pos hcheck]
  rfl

/-- Opening a node leaves those around it open. -/
theorem above_opened (h : m.Sound) (k : Kind) : m.Above (m.opened k) where
  parents := List.suffix_cons _ _
  children := List.prefix_refl _
  depth := Nat.le_refl _
  sound := {
    depth_le := h.depth_le
    offset_eq := h.offset_eq
    first_le := List.forall_mem_cons.mpr ⟨Nat.le_refl _, h.first_le⟩
    kind_ne := h.kind_ne }

/-- With a node open instead of closed, a sound state stays sound. -/
theorem Sound.opened_after (hm : m.Sound) (k : Kind) (h : (m.after o).Sound) :
    ((m.opened k).after o).Sound where
  depth_le := hm.depth_le
  offset_eq := h.offset_eq
  first_le := by
    refine List.forall_mem_cons.mpr ⟨?_, h.first_le⟩
    exact List.IsPrefix.length_le (List.prefix_append _ _)
  kind_ne := h.kind_ne

/-- What was added to an open node may as well be one node around it. -/
theorem above_enclose (hm : m.Sound) (h : ((m.opened k).after o).Sound) :
    m.Above (m.after (o.enclose k)) where
  parents := List.suffix_refl _
  children := List.prefix_append _ _
  depth := Nat.le_refl _
  sound := {
    depth_le := hm.depth_le
    offset_eq := by
      have hoffset := h.offset_eq
      simpa [after, opened, Builder.start, Builder.push, Outcome.enclose, Tree.forestSize_append,
        Tree.forestSize, Tree.size] using hoffset
    first_le := fun e he => Nat.le_trans (hm.first_le e he)
      (List.IsPrefix.length_le (List.prefix_append _ _))
    kind_ne := h.kind_ne }

end Machine

/-! ## Runs -/

namespace Program

variable {α β : Type} {base m m' m₁ : Machine} {x y : Program Unit}

/-- From state `m` a program returns `a` in state `m'`, and the states that it goes through are all
above `base`. -/
def Runs (base : Machine) (x : Program α) (m : Machine) (a : α) (m' : Machine) : Prop :=
  base.Above m' ∧ ∃ visited : List Machine, (∀ v ∈ visited, base.Above v) ∧
    ∀ seen, x ⟨m, seen⟩ = some (a, ⟨m', seen ++ visited⟩)

theorem Runs.pure (h : base.Above m) (a : α) : Runs base (pure a) m a m :=
  ⟨h, [], by simp, fun seen => by rw [List.append_nil]; rfl⟩

theorem Runs.bind {x : Program α} {f : α → Program β} {a : α} {b : β} {m₂ : Machine}
    (hx : Runs base x m a m₁) (hf : Runs base (f a) m₁ b m₂) : Runs base (x >>= f) m b m₂ := by
  obtain ⟨-, vs, hvs, hx⟩ := hx
  obtain ⟨hend, ws, hws, hf⟩ := hf
  refine ⟨hend, vs ++ ws, List.forall_mem_append.mpr ⟨hvs, hws⟩, fun seen => ?_⟩
  show ((x ⟨m, seen⟩).bind fun p => f p.1 p.2) = _
  rw [hx, Option.bind_some, hf, List.append_assoc]

/-- What stays above a state stays above those below it. -/
theorem Runs.mono {x : Program α} {a : α} {base' : Machine} (h : base.Above base')
    (hx : Runs base' x m a m') : Runs base x m a m' := by
  obtain ⟨hend, vs, hvs, hx⟩ := hx
  exact ⟨h.trans hend, vs, fun v hv => h.trans (hvs v hv), hx⟩

theorem runs_act {step : Machine → Option Machine} (hstep : step m = some m')
    (h : base.Above m') : Runs base (act step) m () m' := by
  refine ⟨h, [m'], by simpa using h, fun seen => ?_⟩
  show ((step m).map fun m => ((), (⟨m, seen ++ [m]⟩ : Session))) = _
  rw [hstep, Option.map_some]

theorem runs_ask (h : base.Above m) (question : Machine → α) :
    Runs base (ask question) m (question m) m :=
  ⟨h, [], by simp, fun seen => by rw [List.append_nil]; rfl⟩

theorem runs_root (h : base.Above m) {t : Tree} (ht : m.builder.root? = some t) :
    Runs base root m t m := by
  refine ⟨h, [], by simp, fun seen => ?_⟩
  rw [List.append_nil, root, ht, Option.map_some]

/-! ## Nodes -/

/-- Closing a node makes one element of what was added since it was opened. -/
theorem runs_finishNode (hm : m.Sound) {k : Kind} {o : Outcome}
    (h : ((m.opened k).after o).Sound) :
    Runs m finishNode ((m.opened k).after o) () (m.after (o.enclose k)) := by
  refine runs_act ?_ (Machine.above_enclose hm h)
  rw [Machine.finish?_opened]
  rfl

/-- Opening a node at a checkpoint comes to the same as opening it there before what was parsed
since. -/
theorem runs_startNodeAt (hm : m.Sound) (k : Kind) {o : Outcome} (h : m.Above (m.after o)) :
    Runs m (startNodeAt m.builder.checkpoint k) (m.after o) () ((m.opened k).after o) := by
  refine runs_act ?_ ⟨?_, h.children, h.depth, hm.opened_after k h.sound⟩
  · rw [Machine.startAt?_checkpoint hm]
    rfl
  · exact List.suffix_cons _ _

/-- At depth `d`, a program does what a function of the cursor says, wherever it is run: the trees
go to the innermost open node, the nodes that are open stay so, and the depth is `d` again. The
value that it returns is a function of the cursor, too. -/
def Performs (d : Nat) (x : Program α) (value : Cursor → α) (f : Cursor → Outcome) : Prop :=
  ∀ m : Machine, m.Sound → m.depth = d → Runs m x m (value m.cursor) (m.after (f m.cursor))

/-- A program that returns nothing does what a function of the cursor says. -/
abbrev Does (d : Nat) (x : Program Unit) (f : Cursor → Outcome) : Prop :=
  Performs d x (fun _ => ()) f

variable {d : Nat} {f g : Cursor → Outcome} {k : Kind}

theorem Does.bind {y : Program α} {w : Cursor → α} (hx : Does d x f) (hy : Performs d y w g) :
    Performs d (x >>= fun _ => y) (fun c => w (f c).cursor) fun c => (f c).andThen g := by
  intro m hm hd
  have hrun := hx m hm hd
  rw [Machine.after_andThen]
  exact hrun.bind ((hy _ hrun.1.sound hd).mono hrun.1)

theorem Does.seq (hx : Does d x f) (hy : Does d y g) :
    Does d (x >>= fun _ => y) fun c => (f c).andThen g :=
  Does.bind hx hy

theorem Does.returning (hx : Does d x f) (a : α) :
    Performs d (x >>= fun _ => Pure.pure a) (fun _ => a) f :=
  fun m hm hd => (hx m hm hd).bind (.pure (hx m hm hd).1 a)

/-! ## Tokens -/

theorem above_take_one (hm : m.Sound) {t : Token} {ts : List Token}
    (h : m.cursor.rest = t :: ts) : m.Above (m.after (m.cursor.take 1)) where
  parents := List.suffix_refl _
  children := List.prefix_append _ _
  depth := Nat.le_refl _
  sound := {
    depth_le := hm.depth_le
    offset_eq := by
      have hoffset := hm.offset_eq
      simp [Machine.after, Builder.push, Cursor.take, Cursor.advance, h, Cursor.width,
        Tree.forestSize_append, Tree.forestSize, Tree.size, hoffset]
    first_le := fun e he => Nat.le_trans (hm.first_le e he)
      (List.IsPrefix.length_le (List.prefix_append _ _))
    kind_ne := fun u hu => hm.kind_ne u (List.mem_of_mem_drop hu) }

theorem runs_pushToken (hm : m.Sound) {t : Token} {ts : List Token}
    (h : m.cursor.rest = t :: ts) : Runs m pushToken m () (m.after (m.cursor.take 1)) := by
  refine runs_act ?_ (above_take_one hm h)
  simp [h, Machine.after, Cursor.take, Cursor.advance, Cursor.width]

/-! ## Loops -/

theorem runs_loop_done {pass : Program Bool} (h : Runs base pass m false m') (n : Nat) :
    Runs base (loop pass (n + 1)) m () m' :=
  h.bind (.pure h.1 ())

theorem runs_loop_more {pass : Program Bool} {n : Nat} (h : Runs base pass m true m₁)
    (hrest : Runs base (loop pass n) m₁ () m') : Runs base (loop pass (n + 1)) m () m' :=
  h.bind hrest

/-- A loop is done in time if it is with any bound above the number of tokens left. -/
theorem runs_untilDone {pass : Program Bool} (h : base.Above m)
    (hloop : ∀ n, m.cursor.rest.length < n → Runs base (loop pass n) m () m') :
    Runs base (untilDone pass) m () m' :=
  (runs_ask h _).bind (hloop _ (Nat.lt_succ_self _))

/-- A loop does what a function of the cursor says, if that function is one pass and the function
again, and every pass but the last takes a token. -/
theorem Does.loop {pass : Program Bool} {more : Cursor → Bool} {result : Cursor → Outcome}
    (hpass : Performs d pass more f)
    (htakes : ∀ c, more c = true → (f c).cursor.rest.length < c.rest.length)
    (hresult : ∀ c, result c = if more c = true then (f c).andThen result else f c) :
    Does d (untilDone pass) result := by
  intro m hm hd
  refine runs_untilDone (.refl hm) fun n hn => ?_
  induction n generalizing m with
  | zero => exact absurd hn (Nat.not_lt_zero _)
  | succ n ih =>
    have hrun := hpass m hm hd
    rw [hresult]
    cases hmore : more m.cursor with
    | true =>
      have hlt : (f m.cursor).cursor.rest.length < n :=
        Nat.lt_of_lt_of_le (htakes _ hmore) (Nat.le_of_lt_succ hn)
      rw [hmore] at hrun
      rw [if_pos rfl, Machine.after_andThen]
      exact runs_loop_more hrun ((ih _ hrun.1.sound hd hlt).mono hrun.1)
    | false =>
      rw [hmore] at hrun
      rw [if_neg Bool.false_ne_true]
      exact runs_loop_done hrun n

/-- A pass that does something only if a test says so, and then asks for another pass. -/
theorem performs_test {q : Cursor → β} (test : β → Bool)
    (hx : ∀ m : Machine, m.Sound → m.depth = d → test (q m.cursor) = true →
      Runs m x m () (m.after (f m.cursor))) :
    Performs d
      (ask (fun m => q m.cursor) >>= fun b =>
        if test b = true then x >>= fun _ => pure true else pure false)
      (fun c => test (q c))
      (fun c => if test (q c) = true then f c else c.stay) := by
  intro m hm hd
  refine (runs_ask (.refl hm) _).bind ?_
  beta_reduce
  cases htest : test (q m.cursor) with
  | true =>
    have hrun := hx m hm hd htest
    rw [if_pos rfl, if_pos rfl]
    exact hrun.bind (.pure hrun.1 true)
  | false =>
    rw [if_neg Bool.false_ne_true, if_neg Bool.false_ne_true, m.after_stay]
    exact .pure (.refl hm) false

/-- Trivia is taken one token at a time. -/
theorem does_eatTrivia : Does d eatTrivia Cursor.gap := by
  have hcons : ∀ {c : Cursor}, c.rest.head?.any Token.isTrivia = true →
      ∃ t ts, c.rest = t :: ts ∧ t.isTrivia = true := by
    intro c h
    cases hts : c.rest with
    | nil => simp [hts] at h
    | cons t ts => exact ⟨t, ts, rfl, by simpa [hts] using h⟩
  refine .loop (performs_test (f := Cursor.take 1) (q := fun c => c.rest.head?.any Token.isTrivia)
    (fun b => b) fun m hm _ h => ?_) (fun c h => ?_) fun c => ?_
  · obtain ⟨t, ts, hts, -⟩ := hcons h
    exact runs_pushToken hm hts
  · obtain ⟨t, ts, hts, -⟩ := hcons h
    rw [if_pos h]
    show (c.rest.drop 1).length < c.rest.length
    rw [hts]
    exact Nat.lt_succ_self _
  · split
    · next h =>
      obtain ⟨t, ts, hts, ht⟩ := hcons h
      exact Cursor.gap_of_trivia hts ht
    · next h => exact Cursor.gap_of_not_trivia (Bool.not_eq_true _ ▸ h)

/-- Whatever trivia there are, a word is taken with all of them, token by token. -/
theorem does_bump : Does d bump Cursor.bump := by
  have hpush : Does d (tokensLeft >>= fun n => if n ≠ 0 then pushToken else pure ())
      (Cursor.take 1) := by
    intro m hm hd
    refine (runs_ask (.refl hm) _).bind ?_
    cases hts : m.cursor.rest with
    | nil =>
      rw [Cursor.take_of_nil hts, m.after_stay]
      exact .pure (.refl hm) ()
    | cons t ts => exact runs_pushToken hm hts
  rw [funext Cursor.bump_eq]
  exact does_eatTrivia.seq hpush

theorem does_report (fault : Fault) : Does d (report fault) (Cursor.report fault) := by
  intro m hm hd
  have hsame : m.after (m.cursor.report fault) =
      { m with problems := m.problems ++ [⟨fault, m.cursor.location.1, m.cursor.location.2⟩] } := by
    simp [Machine.after, Cursor.report, Builder.push]
  rw [hsame]
  exact runs_act rfl ⟨List.suffix_refl _, List.prefix_refl _, Nat.le_refl _,
    ⟨hm.depth_le, hm.offset_eq, hm.first_le, hm.kind_ne⟩⟩

/-! ## Nodes around programs -/

/-- A node that is opened before its elements. -/
theorem Does.node (hx : Does d x f) (k : Kind) :
    Does d (startNode k >>= fun _ => x >>= fun _ => finishNode) fun c =>
      c.gap.andThen fun c => (f c).enclose k := by
  intro m hm hd
  have hgap := does_eatTrivia m hm hd
  have hopen := Machine.above_opened hgap.1.sound k
  have hbody := hx _ hopen.sound hd
  rw [Machine.after_andThen]
  refine (hgap.bind ((runs_act rfl hopen).mono hgap.1)).bind ?_
  exact (hbody.mono (hgap.1.trans hopen)).bind
    ((runs_finishNode hgap.1.sound hbody.1.sound).mono hgap.1)

/-- A node that is opened at a checkpoint, around the elements since then and some more. -/
theorem runs_wrap (hm : m.Sound) (hd : m.depth = d) {o : Outcome} (ho : m.Above (m.after o))
    (hy : Does d y g) (k : Kind) :
    Runs m (startNodeAt m.builder.checkpoint k >>= fun _ => y >>= fun _ => finishNode) (m.after o)
      () (m.after ((o.andThen g).enclose k)) := by
  have hopen := runs_startNodeAt hm k ho
  have hrest := hy _ hopen.1.sound hd
  rw [Machine.cursor_after, ← (m.opened k).after_andThen o g] at hrest
  exact hopen.bind ((hrest.mono hopen.1).bind (runs_finishNode hm hrest.1.sound))

/-- A node that is opened behind its first elements. -/
theorem Does.lateNode (hx : Does d x f) (hy : Does d y g) (k : Kind) :
    Does d (checkpoint >>= fun p => x >>= fun _ => startNodeAt p k >>= fun _ => y >>= fun _ =>
      finishNode) fun c => c.gap.andThen fun c => ((f c).andThen g).enclose k := by
  intro m hm hd
  have hgap := does_eatTrivia m hm hd
  have hfirst := hx _ hgap.1.sound hd
  rw [Machine.after_andThen]
  refine (hgap.bind (runs_ask hgap.1 _)).bind ((hfirst.mono hgap.1).bind ?_)
  exact (runs_wrap hgap.1.sound hd hfirst.1 hy k).mono hgap.1

/-! ## Choices -/

/-- A program that goes on by what it asks about the cursor. -/
theorem Performs.ask {q : Cursor → β} {y : β → Program α} {w : β → Cursor → α}
    {g : β → Cursor → Outcome} (hy : ∀ b, Performs d (y b) (w b) (g b)) :
    Performs d (ask (fun m => q m.cursor) >>= y) (fun c => w (q c) c)
      fun c => g (q c) c :=
  fun m hm hd => (runs_ask (.refl hm) _).bind (hy _ m hm hd)

section

variable {deeper : Construct → Cursor → Outcome} {body : Program Unit} {r a b : Rule}

theorem Does.look {y : Kind → Program Unit} {next : Kind → Rule} (skip : Kind → Bool)
    (hy : ∀ k, Does d (y k) ((next k).run deeper)) :
    Does d (peek skip >>= y) ((Rule.look skip next).run deeper) :=
  Performs.ask (q := fun c => c.peek skip) hy

theorem Does.peek {y : Kind → Program Unit} {next : Kind → Rule}
    (hy : ∀ k, Does d (y k) ((next k).run deeper)) :
    Does d (current >>= y) ((Rule.peek next).run deeper) :=
  Does.look (fun _ => false) hy

/-- A choice between two programs. -/
theorem Does.branch {next : Kind → Rule} (hnext : ∀ k', next k' = if k' = k then a else b)
    (hx : Does d x (a.run deeper)) (hy : Does d y (b.run deeper)) :
    Does d (current >>= fun k' => if k' = k then x else y) ((Rule.peek next).run deeper) := by
  refine .peek fun k' => ?_
  rw [hnext]
  split
  · exact hx
  · exact hy

theorem does_done : Does d (pure ()) (Rule.done.run deeper) := by
  intro m hm _
  rw [Rule.run, m.after_stay]
  exact .pure (.refl hm) ()

theorem Does.whenAt (hx : Does d x (r.run deeper)) :
    Does d (current >>= fun k' => if k' = k then x else pure ()) ((Rule.whenAt k r).run deeper) :=
  .branch (fun _ => rfl) hx does_done

theorem eat_bind (k : Kind) (y : Bool → Program α) :
    eat k >>= y = current >>= fun k' =>
      if k' = k then bump >>= fun _ => y true else y false := by
  rw [eat, bind_assoc]
  congr 1
  funext k'
  by_cases h : k' = k
  · rw [if_pos h, if_pos (beq_iff_eq.mpr h), bind_assoc]
    rfl
  · rw [if_neg h, if_neg (by simpa using h)]
    rfl

theorem does_expect (k : Kind) (fault : Fault) :
    Does d (expect k fault) ((Rule.expect k fault).run deeper) := by
  have h : Does d (current >>= fun k' => if k' = k then bump >>= fun _ => pure () else report fault)
      ((Rule.expect k fault).run deeper) :=
    .branch (fun _ => rfl) (by rw [bind_pure_unit]; exact does_bump) (does_report fault)
  rw [expect, eat_bind]
  exact h

theorem does_bumpError (fault : Fault) : Does d (bumpError fault) (Cursor.reject fault) :=
  (does_report fault).seq (does_bump.node .errorNode)

theorem does_single (k : Kind) : Does d (single k) ((Rule.node k .bump).run deeper) :=
  does_bump.node k

theorem does_name (missing : Fault) :
    Does d (name missing) ((Rule.declaredName missing).run deeper) :=
  .branch (fun k => by cases k <;> rfl) (does_single .name) (does_report missing)

theorem does_reference (missing : Fault) :
    Does d (reference missing) ((Rule.reference missing).run deeper) :=
  .branch (fun k => by cases k <;> rfl) (does_single .reference) (does_report missing)

/-! ## Repetition -/

/-- A loop that tests the next token does what a repetition does. -/
theorem Does.whileAt {test : Kind → Bool} (hprod : (Rule.manyWhile test r).Productive deeper)
    (hbody : Does d body (r.run deeper)) :
    Does d (whileAt test body) ((Rule.manyWhile test r).run deeper) := by
  have hpass := performs_test (q := Cursor.current) test fun m hm hd _ => hbody m hm hd
  refine .loop hpass (fun c h => ?_) fun c => ?_
  · rw [if_pos h]
    exact hprod.2 c h
  · rw [Rule.manyWhile, Rule.run_loop hprod]
    split
    · rfl
    · rfl

theorem does_modifiers : Does d modifiers (Rule.modifiers.run deeper) :=
  .whileAt Rule.productive_modifiers does_bump

theorem does_prefixOperators : Does d prefixOperators (Rule.unaryOperators.run deeper) :=
  .whileAt Rule.productive_unaryOperators does_bump

theorem performs_eat (k : Kind) : Performs d (eat k) (fun c => c.current == k)
    (fun c => if (c.current == k) = true then c.bump else c.stay) :=
  performs_test (· == k) fun m hm hd _ => does_bump m hm hd

/-- A loop that takes commas is a repetition that tests for them. -/
theorem Does.afterCommas (hd : Rule.Lively deeper) (hprod : r.Productive deeper)
    (hbody : Does d body (r.run deeper)) :
    Does d (afterCommas body) ((Rule.afterCommas r).run deeper) := by
  have h : Does d _ ((Rule.afterCommas r).run deeper) :=
    .whileAt (Rule.productive_afterCommas hd hprod) (does_bump.seq hbody)
  rw [Program.afterCommas, eat_bind]
  simpa only [Program.whileAt, beq_iff_eq, bind_assoc, if_true, Bool.false_eq_true, if_false]
    using h

/-- A loop at a checkpoint wraps what stands there as often as there is something to wrap. -/
theorem runs_tail {first : Rule} {wrap : Kind → Option Kind} {next : Kind → Rule}
    {body : Kind → Program Unit} {pass : Checkpoint → Program Bool}
    (hpass : ∀ p, pass p = current >>= fun k => match wrap k with
      | some w =>
        (startNodeAt p w >>= fun _ => body k >>= fun _ => finishNode) >>= fun _ => pure true
      | none => pure false)
    (hprod : (Rule.chain first wrap next).Productive deeper)
    (hbody : ∀ k, Does d (body k) ((next k).run deeper)) (hm : m.Sound) (hd : m.depth = d)
    {o : Outcome} (ho : m.Above (m.after o)) :
    Runs m (untilDone (pass m.builder.checkpoint)) (m.after o) ()
      (m.after (o.wrapAll wrap fun k => (next k).run deeper)) := by
  refine runs_untilDone ho fun n hn => ?_
  rw [Machine.cursor_after] at hn
  induction n generalizing o with
  | zero => exact absurd hn (Nat.not_lt_zero _)
  | succ n ih =>
    have hlook := runs_ask ho fun m => m.cursor.current
    rw [hpass]
    cases hw : wrap o.cursor.current with
    | none =>
      rw [Outcome.wrapAll_of_stop hw]
      refine runs_loop_done (hlook.bind ?_) n
      rw [Machine.cursor_after, hw]
      exact .pure ho false
    | some w =>
      have hwrap := runs_wrap hm hd ho (hbody o.cursor.current) w
      have hlt := Nat.lt_of_lt_of_le (hprod.wrap_takes o.cursor w hw) (Nat.le_of_lt_succ hn)
      -- What was wrapped stands at the checkpoint again, with fewer tokens left.
      have hrest := ih hwrap.1 hlt
      rw [hpass] at hrest
      rw [Outcome.wrapAll_of_wrap hprod.wrap_takes hw]
      refine runs_loop_more (hlook.bind ?_) hrest
      rw [Machine.cursor_after, hw]
      exact hwrap.bind (.pure hwrap.1 true)

end

/-! ## Nesting -/

/-- Tokens are passed over one word at a time. -/
theorem runs_skipGroup (hm : m.Sound) {n : Nat} (depth : Nat) (hn : m.cursor.rest.length < n) :
    Runs m (skipGroup n depth) m () (m.after (m.cursor.pass depth)) := by
  induction n generalizing m depth with
  | zero => exact absurd hn (Nat.not_lt_zero _)
  | succ n ih =>
    rw [skipGroup]
    refine (runs_ask (.refl hm) _).bind ?_
    -- The run ends where counting passes over nothing more.
    have hstop : ∀ {ws}, m.cursor.rest.dropWhile Token.isTrivia = ws →
        Token.swallow depth ws = 0 → Runs m (pure ()) m () (m.after (m.cursor.pass depth)) := by
      intro ws hws h
      rw [Cursor.pass_of_zero hws h, m.after_stay]
      exact .pure (.refl hm) ()
    cases hrest : m.cursor.rest.dropWhile Token.isTrivia with
    | nil =>
      have hcurrent : m.cursor.current = .eof := by
        rw [m.cursor.current_eq, Cursor.kinds, ← Token.kinds_dropWhile, hrest]
        rfl
      rw [hcurrent, if_pos rfl]
      exact hstop hrest rfl
    | cons t us =>
      obtain ⟨hmem, ht, hcurrent, hus⟩ := Cursor.bump_of_dropWhile hrest
      have hbump := does_bump m hm rfl
      -- Otherwise the next word is taken, and counting goes on behind it.
      have hgo : ∀ depth', Token.swallow depth (t :: us) = Token.swallow depth' us + 1 →
          Runs m (bump >>= fun _ => skipGroup n depth') m () (m.after (m.cursor.pass depth)) := by
        intro depth' h
        have heager : Rule.Eager (fun _ => Cursor.stay) .bump := Rule.eager_bump
        have hlt : m.cursor.bump.cursor.rest.length < n :=
          Nat.lt_of_lt_of_le (heager _ (List.ne_nil_of_mem hmem)) (Nat.le_of_lt_succ hn)
        have hnext := ih hbump.1.sound depth' hlt
        rw [Machine.cursor_after, Cursor.pass, hus] at hnext
        rw [Cursor.pass_of_succ hrest h, Machine.after_andThen]
        exact hbump.bind (hnext.mono hbump.1)
      rw [hcurrent, if_neg (hm.kind_ne t hmem)]
      rcases t.kind.step_cases with ⟨hopens, -⟩ | ⟨hopens, hcloses, -⟩ | ⟨hopens, hcloses, -⟩
      · rw [if_pos hopens]
        exact hgo _ (Token.swallow_of_opensGroup ht _ hopens)
      · rw [if_neg (by simp [hopens]), if_pos hcloses]
        rcases depth with _ | _ | depth
        · rw [if_pos rfl]
          exact hstop hrest (Token.swallow_of_stops ht _ (by simp [Kind.stops, hcloses]))
        · -- The group is closed, and the run ends with its bracket.
          have hone := (Token.swallow_of_closesGroup (d := 0) ht us hopens hcloses).1
          rw [if_neg (Nat.succ_ne_zero _), if_pos rfl, Cursor.pass_of_succ (n := 0) hrest hone,
            Machine.after_andThen, Cursor.take_zero, Machine.after_after_stay]
          exact hbump
        · rw [if_neg (Nat.succ_ne_zero _), if_neg (by simp)]
          exact hgo _ (Token.swallow_of_closesGroup ht _ hopens hcloses).2
      · rw [if_neg (by simp [hopens]), if_neg (by simp [hcloses])]
        split
        · next h =>
          obtain ⟨hsep, rfl⟩ : t.kind.separates = true ∧ depth = 0 := by simpa using h
          exact hstop hrest (Token.swallow_of_stops ht _ (by simp [Kind.stops, hsep]))
        · next h =>
          refine hgo _ (Token.swallow_of_neither ht _ hopens hcloses ?_)
          simpa [imp_iff_not_or] using h

/-- Token by token, the program passes over as much as counting brackets says. -/
theorem does_skipTooDeep : Does d skipTooDeep Cursor.cutOff := by
  have hskip : Does d (tokensLeft >>= fun n => skipGroup (n + 1) 0) (Cursor.pass 0) :=
    fun m hm _ => (runs_ask (.refl hm) _).bind (runs_skipGroup hm 0 (Nat.lt_succ_self _))
  have h : Does d _ Cursor.cutOff :=
    (does_report .nestingTooDeep).seq (hskip.node .errorNode)
  rw [skipTooDeep]
  simpa only [bind_assoc] using h

end Program

end ClassNav
