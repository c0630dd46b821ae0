import ClassNav.Proofs.Grammar.Acceptance
import ClassNav.Proofs.Outline.Program

/-!
# Accepted texts are programs

Programs leave nothing out: whatever tokens have the form of a file are the tokens of a program
(`exists_program_of_derives`). A derivation is taken apart from the outside, and each part of the
form gives the part of the program that is written so.

A form speaks of kinds only. That a token is no more than its kind says, or an identifier, is what
scanning adds (`Token.spelled_of_mem_scan`).
-/

namespace ClassNav

/-! ## How tokens are spelled -/

/-- A token whose kind leaves no choice is spelled as its kind says. -/
def Token.Spelled (t : Token) : Prop := t.kind.spelling ≠ "" → t = .sign t.kind

namespace Token

theorem spelled_of_spelling {t : Token} (h : t.kind.spelling = "") : t.Spelled :=
  fun hne => absurd h hne

theorem spelling_ofKeyword? {w : String} {k : Kind} (h : Kind.ofKeyword? w = some k) :
    k.spelling = w := by
  unfold Kind.ofKeyword? at h
  split at h
  all_goals first
    | cases Option.some.inj h; rfl
    | cases h

theorem spelled_ofWord (w : String) : Spelled ⟨.ofWord w, w⟩ := by
  unfold Kind.ofWord
  cases h : Kind.ofKeyword? w with
  | none => exact spelled_of_spelling rfl
  | some k =>
    intro _
    show (⟨k, w⟩ : Token) = ⟨k, k.spelling⟩
    rw [spelling_ofKeyword? h]

theorem spelled_punctuation {c : Char} {k : Kind} (h : punctuation? c = some k) :
    Spelled ⟨k, String.ofList [c]⟩ := by
  unfold punctuation? at h
  split at h
  all_goals first
    | cases Option.some.inj h; exact fun _ => rfl
    | cases Option.some.inj h; exact spelled_of_spelling rfl
    | cases h

/-- Whatever rule of the lexer makes a token, the kind of the token fits its spelling. -/
theorem spelled_extent (c : Char) (cs : List Char) :
    Spelled ⟨(extent c cs).1, String.ofList (c :: cs.take (extent c cs).2)⟩ := by
  unfold extent
  split
  · exact spelled_of_spelling rfl
  split
  · exact spelled_ofWord _
  split
  · exact spelled_of_spelling rfl
  split
  · split <;> exact spelled_of_spelling rfl
  split
  · exact spelled_of_spelling rfl
  · exact spelled_of_spelling rfl
  · cases h : punctuation? c with
    | none => exact spelled_of_spelling rfl
    | some k => exact spelled_punctuation h

theorem spelled_of_mem_scan {text : String} {t : Token} (h : t ∈ scan text) : t.Spelled := by
  obtain ⟨c, rest, rfl⟩ := exists_extent_of_mem h
  exact spelled_extent c rest

end Token

/-! ## Rows of tokens -/

namespace Form

/-- A row of tokens whose kinds have a form. -/
def Rows (n : Nat) (f : Form) (ts : List Token) : Prop :=
  Derives n f (ts.map Token.kind) ∧ ∀ t ∈ ts, t.Spelled

variable {n : Nat} {f g : Form} {ts : List Token}

theorem Rows.one {test : Kind → Bool} (h : Rows n (one test) ts) :
    ∃ t, ts = [t] ∧ test t.kind = true ∧ t.Spelled := by
  obtain ⟨hd, hspelled⟩ := h
  generalize hw : ts.map Token.kind = w at hd
  cases hd with
  | one ht =>
    obtain ⟨t, rfl, rfl⟩ := List.map_eq_singleton_iff.mp hw
    exact ⟨t, rfl, ht, hspelled t List.mem_cons_self⟩

theorem Rows.sign {k : Kind} (h : Rows n (token k) ts) (hk : k.spelling ≠ "") :
    ts = [Token.sign k] := by
  obtain ⟨t, rfl, ht, hspelled⟩ := h.one
  rw [hspelled (eq_of_beq ht ▸ hk), eq_of_beq ht]

theorem Rows.word (h : Rows n (token .ident) ts) : ∃ x, ts = [Token.word x] := by
  obtain ⟨⟨k, x⟩, rfl, ht, _⟩ := h.one
  exact ⟨x, by rw [eq_of_beq (show (k == Kind.ident) = true from ht), Token.word]⟩

theorem rows_seq :
    Rows n (seq f g) ts ↔ ∃ us vs, ts = us ++ vs ∧ Rows n f us ∧ Rows n g vs := by
  constructor
  · rintro ⟨hd, hspelled⟩
    generalize hw : ts.map Token.kind = w at hd
    cases hd with
    | seq hu hv =>
      obtain ⟨us, vs, rfl, rfl, rfl⟩ := List.map_eq_append_iff.mp hw
      rw [List.forall_mem_append] at hspelled
      exact ⟨us, vs, rfl, ⟨hu, hspelled.1⟩, hv, hspelled.2⟩
  · rintro ⟨us, vs, rfl, hus, hvs⟩
    refine ⟨?_, List.forall_mem_append.mpr ⟨hus.2, hvs.2⟩⟩
    rw [List.map_append]
    exact .seq hus.1 hvs.1

theorem Rows.alt (h : Rows n (alt f g) ts) : Rows n f ts ∨ Rows n g ts := by
  obtain ⟨hd, hspelled⟩ := h
  generalize hw : ts.map Token.kind = w at hd
  cases hd with
  | altLeft hl => exact .inl ⟨hw ▸ hl, hspelled⟩
  | altRight hr => exact .inr ⟨hw ▸ hr, hspelled⟩

theorem Rows.opt (h : Rows n (opt f) ts) : ts = [] ∨ Rows n f ts := by
  rcases h.alt with h | ⟨hd, _⟩
  · exact .inr h
  · generalize hw : ts.map Token.kind = w at hd
    cases hd
    exact .inl (List.map_eq_nil_iff.mp hw)

/-- If what has a form is the writing of something, then what repeats the form writes a list of
such things. -/
theorem Rows.many {α : Type} {ok : α → Prop} {print : α → List Token}
    (hitem : ∀ us, Rows n f us → ∃ a, ok a ∧ print a = us) (h : Rows n (many f) ts) :
    ∃ as : List α, (∀ a ∈ as, ok a) ∧ as.flatMap print = ts := by
  obtain ⟨hd, hspelled⟩ := h
  generalize hw : ts.map Token.kind = w at hd
  generalize hg : Form.many f = g at hd
  induction hd generalizing ts with
  | manyNil => exact ⟨[], fun _ => nofun, (List.map_eq_nil_iff.mp hw).symm⟩
  | manyCons hu _ _ ih =>
    cases hg
    obtain ⟨us, vs, rfl, rfl, hvs⟩ := List.map_eq_append_iff.mp hw
    rw [List.forall_mem_append] at hspelled
    obtain ⟨a, hok, rfl⟩ := hitem us ⟨hu, hspelled.1⟩
    obtain ⟨as, hall, rfl⟩ := ih hitem hspelled.2 hvs rfl
    exact ⟨a :: as, List.forall_mem_cons.mpr ⟨hok, hall⟩, List.flatMap_cons⟩
  | _ => cases hg

theorem Rows.nested {k : Construct} (h : Rows n (nested k) ts) :
    ∃ m, n = m + 1 ∧ Rows m k.form ts := by
  obtain ⟨hd, hspelled⟩ := h
  generalize hw : ts.map Token.kind = w at hd
  cases hd with
  | @nested m _ _ hd => exact ⟨m, rfl, hw ▸ hd, hspelled⟩

end Form

/-! ## Lists of declarations -/

theorem MemberDef.listTokens_eq (ms : List MemberDef) :
    MemberDef.listTokens ms = ms.flatMap MemberDef.tokens := by
  induction ms with
  | nil => rfl
  | cons m ms ih => rw [MemberDef.listTokens, ih, List.flatMap_cons]

theorem MemberDef.allWithin_of_forall {n : Nat} {ms : List MemberDef} (h : ∀ m ∈ ms, m.Within n) :
    MemberDef.AllWithin ms n := by
  induction ms with
  | nil => trivial
  | cons m ms ih =>
    exact ⟨h m List.mem_cons_self, ih fun m' hm' => h m' (List.mem_cons_of_mem m hm')⟩

theorem ParamDef.moreTokens_eq (ps : List ParamDef) :
    ParamDef.moreTokens ps = ps.flatMap fun p => Token.sign .comma :: p.tokens := by
  induction ps with
  | nil => rfl
  | cons p ps ih =>
    rw [ParamDef.moreTokens, ih, List.flatMap_cons]
    rfl

theorem ParamDef.allWithin_of_forall {n : Nat} {ps : List ParamDef} (h : ∀ p ∈ ps, p.Within n) :
    ParamDef.AllWithin ps n := by
  induction ps with
  | nil => trivial
  | cons p ps ih =>
    exact ⟨h p List.mem_cons_self, ih fun p' hp' => h p' (List.mem_cons_of_mem p hp')⟩

/-! ## Programs of forms -/

namespace Form

variable {n : Nat} {ts : List Token}

theorem exists_modifiers (h : Rows n modifiers ts) : ∃ mods, Modifier.tokens mods = ts := by
  have hitem : ∀ us, Rows n (one Kind.isModifier) us →
      ∃ m : Modifier, True ∧ [Token.sign m.val] = us := by
    intro us h
    obtain ⟨t, rfl, ht, hspelled⟩ := h.one
    have hspelling : t.kind.spelling ≠ "" := by
      revert ht
      cases t.kind <;> decide
    exact ⟨⟨t.kind, ht⟩, trivial, congrArg (fun t => [t]) (hspelled hspelling).symm⟩
  obtain ⟨mods, -, rfl⟩ := h.many hitem
  exact ⟨mods, List.map_eq_flatMap⟩

theorem exists_keyword (h : Rows n (one fun k => k == .classKw || k == .interfaceKw) ts) :
    ∃ isInterface, ts = [Token.sign (.classKeyword isInterface)] := by
  obtain ⟨t, rfl, ht, hspelled⟩ := h.one
  have hkind : t.kind = .classKw ∨ t.kind = .interfaceKw := by simpa using ht
  rcases hkind with hk | hk
  · refine ⟨false, ?_⟩
    rw [hspelled (by rw [hk]; decide), hk]
    rfl
  · refine ⟨true, ?_⟩
    rw [hspelled (by rw [hk]; decide), hk]
    rfl

theorem exists_extends (h : Rows n (opt (seq (token .extendsKw) (token .ident))) ts) :
    ∃ extended, extendsTokens extended = ts := by
  rcases h.opt with rfl | h
  · exact ⟨none, rfl⟩
  · obtain ⟨us, vs, rfl, hkeyword, htype⟩ := rows_seq.mp h
    obtain rfl := hkeyword.sign (by decide)
    obtain ⟨x, rfl⟩ := htype.word
    exact ⟨some x, rfl⟩

theorem exists_implements
    (h : Rows n (opt (seq (token .implementsKw) (commaList (token .ident)))) ts) :
    ∃ implemented, implementsTokens implemented = ts := by
  have hitem : ∀ us, Rows n (seq (token .comma) (token .ident)) us →
      ∃ x : String, True ∧ [Token.sign .comma, Token.word x] = us := by
    intro us h
    obtain ⟨us, vs, rfl, hcomma, htype⟩ := rows_seq.mp h
    obtain rfl := hcomma.sign (by decide)
    obtain ⟨x, rfl⟩ := htype.word
    exact ⟨x, trivial, rfl⟩
  rcases h.opt with rfl | h
  · exact ⟨[], rfl⟩
  · simp only [commaList, rows_seq] at h
    obtain ⟨_, _, rfl, hkeyword, _, _, rfl, hfirst, hmore⟩ := h
    obtain rfl := hkeyword.sign (by decide)
    obtain ⟨x, rfl⟩ := hfirst.word
    obtain ⟨xs, -, rfl⟩ := hmore.many hitem
    exact ⟨x :: xs, rfl⟩

/-- The tokens of an initial value are those of some value, which is kept as it is. -/
theorem exists_value (h : Rows n (opt initialiser) ts) :
    ∃ value, valueWithin value n ∧ valueTokens value = ts := by
  rcases h.opt with rfl | h
  · exact ⟨none, fun _ => nofun, rfl⟩
  · obtain ⟨us, vs, rfl, heq, hexpr⟩ := rows_seq.mp h
    obtain rfl := heq.sign (by decide)
    refine ⟨some vs, fun ts hts => ?_, rfl⟩
    cases hts
    exact hexpr.1

theorem exists_body (h : Rows n (alt (nested .block) (token .semicolon)) ts) :
    ∃ body, bodyWithin body n ∧ bodyTokens body = ts := by
  rcases h.alt with hblock | hsemi
  · refine ⟨some ts, fun us hus => ?_, rfl⟩
    cases hus
    exact hblock.1
  · exact ⟨none, fun _ => nofun, (hsemi.sign (by decide)).symm⟩

/-- What has the form of a class or of a structure, nested at most `n` deep, writes one. -/
structure Programs (n : Nat) : Prop where
  classes : ∀ ts, Rows n (nested .classDecl) ts → ∃ c : ClassDef, c.Within n ∧ c.tokens = ts
  structures : ∀ ts, Rows n (nested .anonymousType) ts →
    ∃ ms, (TypeDef.structured ms).Within n ∧ Token.braced (MemberDef.listTokens ms) = ts

section

variable (hn : Programs n)
include hn

/-- A type is a name or a structure, and the tokens say which. -/
theorem exists_type (h : Rows n (opt typeTag) ts) : ∃ t : TypeDef, t.Within n ∧ t.tokens = ts := by
  rcases h.opt with rfl | h
  · exact ⟨.omitted, trivial, rfl⟩
  · obtain ⟨us, vs, rfl, hcolon, htype⟩ := rows_seq.mp h
    obtain rfl := hcolon.sign (by decide)
    rcases htype.alt with hname | hstructure
    · obtain ⟨x, rfl⟩ := hname.word
      exact ⟨.named x, trivial, rfl⟩
    · obtain ⟨ms, hwithin, rfl⟩ := hn.structures vs hstructure
      exact ⟨.structured ms, hwithin, rfl⟩

theorem exists_param (h : Rows n parameter ts) : ∃ p : ParamDef, p.Within n ∧ p.tokens = ts := by
  simp only [parameter, row, rows_seq] at h
  obtain ⟨_, _, rfl, hname, _, _, rfl, htype, hvalue⟩ := h
  obtain ⟨x, rfl⟩ := hname.word
  obtain ⟨type, ht, rfl⟩ := exists_type hn htype
  obtain ⟨value, hv, rfl⟩ := exists_value hvalue
  exact ⟨.mk x type value, ⟨ht, hv⟩, rfl⟩

/-- A comma after the last parameter is kept as part of the program. -/
theorem exists_params (h : Rows n parameterList ts) :
    ∃ lastComma ps, ParamDef.AllWithin ps n ∧
      Token.sign .lParen :: (ParamDef.listTokens lastComma ps ++ [Token.sign .rParen]) = ts := by
  have hitem : ∀ us, Rows n (seq (token .comma) parameter) us →
      ∃ p : ParamDef, p.Within n ∧ Token.sign .comma :: p.tokens = us := by
    intro us h
    obtain ⟨us, vs, rfl, hcomma, hparam⟩ := rows_seq.mp h
    obtain rfl := hcomma.sign (by decide)
    obtain ⟨p, hp, rfl⟩ := exists_param hn hparam
    exact ⟨p, hp, rfl⟩
  simp only [parameterList, row, rows_seq] at h
  obtain ⟨_, _, rfl, hopen, _, _, rfl, hparams, hclose⟩ := h
  obtain rfl := hopen.sign (by decide)
  obtain rfl := hclose.sign (by decide)
  rcases hparams.opt with rfl | hparams
  · exact ⟨false, [], trivial, rfl⟩
  · simp only [commaList, rows_seq] at hparams
    obtain ⟨_, _, rfl, ⟨_, _, rfl, hfirst, hmore⟩, hlast⟩ := hparams
    obtain ⟨p, hp, rfl⟩ := exists_param hn hfirst
    obtain ⟨ps, hps, rfl⟩ := hmore.many hitem
    have hwithin := ParamDef.allWithin_of_forall hps
    rw [← ParamDef.moreTokens_eq]
    rcases hlast.opt with rfl | hlast
    · exact ⟨false, p :: ps, ⟨hp, hwithin⟩, rfl⟩
    · obtain rfl := hlast.sign (by decide)
      exact ⟨true, p :: ps, ⟨hp, hwithin⟩, rfl⟩

theorem exists_method (h : Rows n methodDecl ts) : ∃ m : MemberDef, m.Within n ∧ m.tokens = ts := by
  simp only [methodDecl, row, rows_seq] at h
  obtain ⟨_, _, rfl, hmods, _, _, rfl, hkeyword, _, _, rfl, hname, _, _, rfl, hparams,
    _, _, rfl, htype, hbody⟩ := h
  obtain ⟨mods, rfl⟩ := exists_modifiers hmods
  obtain rfl := hkeyword.sign (by decide)
  obtain ⟨x, rfl⟩ := hname.word
  obtain ⟨lastComma, ps, hps, rfl⟩ := exists_params hn hparams
  obtain ⟨type, ht, rfl⟩ := exists_type hn htype
  obtain ⟨body, hb, rfl⟩ := exists_body hbody
  exact ⟨.method mods x ps lastComma type body, ⟨hps, ht, hb⟩, by simp [MemberDef.tokens]⟩

theorem exists_field (h : Rows n (seq modifiers variableDecl) ts) :
    ∃ m : MemberDef, m.Within n ∧ m.tokens = ts := by
  simp only [variableDecl, row, rows_seq] at h
  obtain ⟨_, _, rfl, hmods, _, _, rfl, hkeyword, _, _, rfl, hname, _, _, rfl, htype,
    _, _, rfl, hvalue, hsemi⟩ := h
  obtain ⟨mods, rfl⟩ := exists_modifiers hmods
  obtain rfl := hkeyword.sign (by decide)
  obtain ⟨x, rfl⟩ := hname.word
  obtain ⟨type, ht, rfl⟩ := exists_type hn htype
  obtain ⟨value, hv, rfl⟩ := exists_value hvalue
  obtain rfl := hsemi.sign (by decide)
  exact ⟨.field mods x type value, ⟨ht, hv⟩, by simp [MemberDef.tokens]⟩

theorem exists_member (h : Rows n member ts) : ∃ m : MemberDef, m.Within n ∧ m.tokens = ts := by
  rcases h.alt with hclass | h
  · obtain ⟨c, hc, rfl⟩ := hn.classes ts hclass
    exact ⟨.nested c, hc, rfl⟩
  · rcases h.alt with hmethod | hfield
    · exact exists_method hn hmethod
    · exact exists_field hn hfield

theorem exists_members (h : Rows n memberList ts) :
    ∃ ms, MemberDef.AllWithin ms n ∧ Token.braced (MemberDef.listTokens ms) = ts := by
  simp only [memberList, row, rows_seq] at h
  obtain ⟨_, _, rfl, hopen, _, _, rfl, hmembers, hclose⟩ := h
  obtain rfl := hopen.sign (by decide)
  obtain rfl := hclose.sign (by decide)
  obtain ⟨ms, hms, rfl⟩ := hmembers.many fun _ => exists_member hn
  refine ⟨ms, MemberDef.allWithin_of_forall hms, ?_⟩
  rw [MemberDef.listTokens_eq]
  rfl

/-- A row with the form of a class writes a class that nests one deeper than what is in it. -/
theorem exists_class (h : Rows n classDecl ts) :
    ∃ c : ClassDef, c.Within (n + 1) ∧ c.tokens = ts := by
  simp only [classDecl, row, rows_seq] at h
  obtain ⟨_, _, rfl, hmods, _, _, rfl, hkeyword, _, _, rfl, hname, _, _, rfl, hextends,
    _, _, rfl, himplements, hmembers⟩ := h
  obtain ⟨mods, rfl⟩ := exists_modifiers hmods
  obtain ⟨isInterface, rfl⟩ := exists_keyword hkeyword
  obtain ⟨x, rfl⟩ := hname.word
  obtain ⟨extended, rfl⟩ := exists_extends hextends
  obtain ⟨implemented, rfl⟩ := exists_implements himplements
  obtain ⟨ms, hms, rfl⟩ := exists_members hn hmembers
  exact ⟨.mk mods isInterface x extended implemented ms, ⟨n, rfl, hms⟩, by simp [ClassDef.tokens]⟩

end

/-- By induction on the nesting: classes hold members, members hold structures, and those hold
members again, each one level deeper. -/
theorem programs (n : Nat) : Programs n := by
  induction n with
  | zero =>
    refine ⟨fun ts h => ?_, fun ts h => ?_⟩
    · obtain ⟨m, hm, _⟩ := h.nested
      cases hm
    · obtain ⟨m, hm, _⟩ := h.nested
      cases hm
  | succ n ih =>
    refine ⟨fun ts h => ?_, fun ts h => ?_⟩
    · obtain ⟨m, hm, h⟩ := h.nested
      cases hm
      exact exists_class ih h
    · obtain ⟨m, hm, h⟩ := h.nested
      cases hm
      obtain ⟨ms, hms, rfl⟩ := exists_members ih h
      exact ⟨ms, ⟨n, rfl, hms⟩, rfl⟩

end Form

/-- Tokens that have the form of a file are those of a program. -/
theorem exists_program_of_derives {n : Nat} {ts : List Token} (hspelled : ∀ t ∈ ts, t.Spelled)
    (h : Form.Derives n .file (ts.map Token.kind)) :
    ∃ program : List ClassDef, (∀ c ∈ program, c.Within n) ∧
      program.flatMap ClassDef.tokens = ts :=
  Form.Rows.many (Form.programs n).classes ⟨h, hspelled⟩

end ClassNav
