import ClassNav.Proofs.Grammar.Sketch
import ClassNav.Proofs.Outline.Program

/-!
# The trees of programs

`ClassDef.sketch` is the tree of a class, as far as it is known without its text. In front of the
tokens of a class, the rule of classes builds this tree and takes just these tokens
(`ClassDef.builds`), and so for every part of a program. Nothing is assumed of the tokens behind,
except where a part could go on: a type is not followed by a colon, nor an initial value by
something that continues an expression.

The proof has one lemma for each rule, given what its nested parts build, and one induction over
programs that puts these lemmas together.
-/

namespace ClassNav

/-! ## Sketches of programs -/

namespace Sketch

def sign (k : Kind) : Sketch := leaf (Token.sign k)

def name (x : String) : Sketch := node .name [leaf (Token.word x)]

def reference (x : String) : Sketch := node .reference [leaf (Token.word x)]

def modifiers (mods : List Modifier) : List Sketch := mods.map fun m => sign m.val

def extending : Option String → List Sketch
  | none => []
  | some x => [node .extendsClause [sign .extendsKw, reference x]]

def moreReferences (xs : List String) : List Sketch :=
  xs.flatMap fun x => [sign .comma, reference x]

def implementing : List String → List Sketch
  | [] => []
  | x :: xs => [node .implementsClause (sign .implementsKw :: reference x :: moreReferences xs)]

def initial : Option (List Token) → List Sketch
  | none => []
  | some _ => [sign .eq, value]

/-- The body of a method, or a semicolon in its place. -/
def methodBody : Option (List Token) → Sketch
  | none => sign .semicolon
  | some ts => block ts

/-- Sketches in braces. -/
def braced (row : List Sketch) : List Sketch := sign .lBrace :: (row ++ [sign .rBrace])

end Sketch

open Sketch (sign name reference)

mutual

def ClassDef.sketch : ClassDef → Sketch
  | .mk mods isInterface x extended implemented ms =>
    .node .classDecl (Sketch.modifiers mods ++ sign (.classKeyword isInterface) :: name x ::
      (Sketch.extending extended ++ (Sketch.implementing implemented ++
        [.node .classBody (Sketch.braced (MemberDef.sketches ms))])))

def MemberDef.sketch : MemberDef → Sketch
  | .nested c => c.sketch
  | .method mods x ps lastComma type body =>
    .node .methodDecl (Sketch.modifiers mods ++ sign .functionKw :: name x ::
      .node .paramList (sign .lParen :: (ParamDef.sketches lastComma ps ++ [sign .rParen])) ::
      (type.sketches ++ [Sketch.methodBody body]))
  | .field mods x type value =>
    .node .varDecl (Sketch.modifiers mods ++ sign .varKw :: name x ::
      (type.sketches ++ (Sketch.initial value ++ [sign .semicolon])))

def MemberDef.sketches : List MemberDef → List Sketch
  | [] => []
  | m :: ms => m.sketch :: MemberDef.sketches ms

def ParamDef.sketch : ParamDef → Sketch
  | .mk x type value => .node .param (name x :: (type.sketches ++ Sketch.initial value))

/-- The trees of some parameters, perhaps with a comma after the last one. -/
def ParamDef.sketches (lastComma : Bool) : List ParamDef → List Sketch
  | [] => []
  | p :: ps =>
    p.sketch :: (ParamDef.moreSketches ps ++ if lastComma then [sign .comma] else [])

/-- The trees of some parameters, each with a comma before it. -/
def ParamDef.moreSketches : List ParamDef → List Sketch
  | [] => []
  | p :: ps => sign .comma :: p.sketch :: ParamDef.moreSketches ps

/-- The tree of a type with the colon before it, if there is one. -/
def TypeDef.sketches : TypeDef → List Sketch
  | .omitted => []
  | .named x => [.node .typeTag [sign .colon, reference x]]
  | .structured ms =>
    [.node .typeTag [sign .colon, .node .anonymousType (Sketch.braced (MemberDef.sketches ms))]]

end

/-! ## What programs start with -/

open Token (front)

theorem Kind.isModifier_classKeyword (isInterface : Bool) :
    (Kind.classKeyword isInterface).isModifier = false := by
  cases isInterface <;> rfl

/-- The keyword behind the modifiers of a member. -/
def MemberDef.keyword : MemberDef → Kind
  | .nested (.mk _ isInterface _ _ _ _) => .classKeyword isInterface
  | .method .. => .functionKw
  | .field .. => .varKw

/-- Looking past the modifiers finds the keyword of the declaration. -/
theorem Modifier.dropWhile_tokens (mods : List Modifier) {k : Kind} (hk : k.isModifier = false)
    (ts : List Token) :
    ((Modifier.tokens mods ++ Token.sign k :: ts).map Token.kind).dropWhile Kind.isModifier =
      k :: ts.map Token.kind := by
  induction mods with
  | nil => exact List.dropWhile_cons_of_neg (by simp [Token.sign, hk])
  | cons m mods ih =>
    rw [← ih]
    exact List.dropWhile_cons_of_pos m.property

/-- The first word behind the modifiers of a member tells what it is. -/
theorem MemberDef.dropWhile_tokens (m : MemberDef) (rest : List Token) :
    Kind.front (((m.tokens ++ rest).map Token.kind).dropWhile Kind.isModifier) = m.keyword := by
  cases m with
  | nested c =>
    obtain ⟨mods, isInterface, x, extended, implemented, ms⟩ := c
    rw [MemberDef.tokens, ClassDef.tokens, List.append_assoc, List.cons_append,
      Modifier.dropWhile_tokens mods (Kind.isModifier_classKeyword isInterface)]
    rfl
  | method mods x ps lastComma type body =>
    rw [MemberDef.tokens, List.append_assoc, List.cons_append, Modifier.dropWhile_tokens mods rfl]
    rfl
  | field mods x type value =>
    rw [MemberDef.tokens, List.append_assoc, List.cons_append, Modifier.dropWhile_tokens mods rfl]
    rfl

theorem MemberDef.inBraces_front (m : MemberDef) (rest : List Token) :
    Rule.inBraces (front (m.tokens ++ rest)) = true := by
  refine Rule.inBraces_of_modifiers ?_
  rw [m.dropWhile_tokens]
  cases m with
  | nested c =>
    obtain ⟨mods, isInterface, x, extended, implemented, ms⟩ := c
    cases isInterface <;> rfl
  | method => rfl
  | field => rfl

theorem front_body {body : Option (List Token)} {n : Nat} (h : bodyWithin body n)
    (rest : List Token) :
    front (bodyTokens body ++ rest) = if body.isSome then .lBrace else .semicolon := by
  cases body with
  | none => rfl
  | some ts =>
    have hsplits : Form.Splits n (.nested .block) ((ts ++ rest).map Token.kind)
        (rest.map Token.kind) := ⟨_, List.map_append, h ts rfl⟩
    exact Form.opens_of_splits hsplits

/-! ## What rules build from programs -/

namespace Rule

variable {deeper : Construct → Cursor → Outcome} {row : List Sketch} {ts rest : List Token}

theorem builds_modifiers (mods : List Modifier) (hts : (front ts).isModifier = false) :
    modifiers.Builds deeper (Sketch.modifiers mods) (Modifier.tokens mods ++ ts) ts := by
  have hprod : modifiers.Productive deeper := productive_modifiers
  induction mods with
  | nil => exact builds_loop_stop hprod hts
  | cons m mods ih =>
    have hbump : bump.Builds deeper [sign m.val] (Modifier.tokens (m :: mods) ++ ts)
        (Modifier.tokens mods ++ ts) := builds_bump
    exact hbump.loop ih hprod m.property

theorem builds_declaredName {f : Fault} {x : String} :
    (declaredName f).Builds deeper [name x] (Token.word x :: ts) ts :=
  .peek (.node builds_bump)

theorem builds_reference {f : Fault} {x : String} :
    (Rule.reference f).Builds deeper [Sketch.reference x] (Token.word x :: ts) ts :=
  .peek (.node builds_bump)

theorem builds_extends (extended : Option String) (hts : front ts ≠ .extendsKw) :
    (whenAt .extendsKw extendsClause).Builds deeper (Sketch.extending extended)
      (extendsTokens extended ++ ts) ts := by
  cases extended with
  | none => exact builds_whenAt_skip hts
  | some x => exact .whenAt (.node (builds_bump.seq builds_reference)) rfl

section

variable (hd : Lively deeper)
include hd

theorem builds_moreTypes (xs : List String) (hts : front ts ≠ .comma) :
    (afterCommas typeName).Builds deeper (Sketch.moreReferences xs) (commaWords xs ++ ts) ts := by
  have hprod := productive_afterCommas hd (r := typeName) (productive_reference _)
  induction xs with
  | nil => exact builds_loop_stop hprod (beq_false_of_ne hts)
  | cons x xs ih =>
    have hitem : (seq bump typeName).Builds deeper [sign .comma, Sketch.reference x]
        (Token.sign .comma :: Token.word x :: (commaWords xs ++ ts)) (commaWords xs ++ ts) :=
      builds_bump.seq builds_reference
    exact hitem.loop ih hprod rfl

theorem builds_implements (implemented : List String) (hts : front ts = .lBrace) :
    (whenAt .implementsKw implementsClause).Builds deeper (Sketch.implementing implemented)
      (implementsTokens implemented ++ ts) ts := by
  cases implemented with
  | nil =>
    refine builds_whenAt_skip ?_
    show front ts ≠ _
    rw [hts]
    nofun
  | cons x xs =>
    have hmore := builds_moreTypes hd xs (by rw [hts]; nofun : front ts ≠ .comma)
    exact .whenAt (.node (builds_bump.seq (builds_reference.seq hmore))) rfl

end

theorem builds_memberList
    (h : members.Builds deeper row (ts ++ Token.sign .rBrace :: rest)
      (Token.sign .rBrace :: rest)) :
    memberList.Builds deeper (Sketch.braced row) (Token.braced ts ++ rest) rest := by
  rw [Token.braced, List.cons_append, List.append_assoc]
  exact builds_bump.seq (h.seq (builds_expect rfl))

/-- A class whose members build a row builds its own node around them. -/
theorem builds_classDecl (hd : Lively deeper) (mods : List Modifier) (isInterface : Bool)
    (x : String) (extended : Option String) (implemented : List String)
    (h : members.Builds deeper row (ts ++ Token.sign .rBrace :: rest)
      (Token.sign .rBrace :: rest)) :
    classDecl.Builds deeper
      [.node .classDecl (Sketch.modifiers mods ++ sign (.classKeyword isInterface) :: name x ::
        (Sketch.extending extended ++ (Sketch.implementing implemented ++
          [.node .classBody (Sketch.braced row)])))]
      (Modifier.tokens mods ++ Token.sign (.classKeyword isInterface) :: Token.word x ::
        (extendsTokens extended ++ (implementsTokens implemented ++ (Token.braced ts ++ rest))))
      rest := by
  refine .node ((builds_modifiers mods ?_).seq (builds_bump.seq (builds_declaredName.seq ?_)))
  · exact Kind.isModifier_classKeyword isInterface
  refine (builds_extends extended ?_).seq ?_
  · cases implemented <;> nofun
  · exact (builds_implements hd implemented rfl).seq (.peek (.node (builds_memberList h)))

/-- A type, given what the structure in it builds. -/
theorem builds_typeTag (h : (nest .anonymousType).Builds deeper row ts rest)
    (hts : front ts = .lBrace) :
    optionalType.Builds deeper [.node .typeTag (sign .colon :: row)] (Token.sign .colon :: ts)
      rest := by
  refine .whenAt (.node (builds_bump.seq (.peek ?_))) rfl
  rw [hts]
  exact h

theorem builds_typeName {x : String} :
    optionalType.Builds deeper [.node .typeTag [sign .colon, Sketch.reference x]]
      (Token.sign .colon :: Token.word x :: ts) ts :=
  .whenAt (.node (builds_bump.seq (.peek builds_reference))) rfl

theorem builds_initialiser {n : Nat} {value : Option (List Token)} (h : valueWithin value n)
    (ts : List Token) (hts : (front ts).endsExpression = true) :
    initialiser.Builds (Construct.parse n) (Sketch.initial value) (valueTokens value ++ ts) ts := by
  cases value with
  | none =>
    refine builds_whenAt_skip fun heq => ?_
    rw [show front ts = .eq from heq] at hts
    cases hts
  | some us => exact .whenAt (builds_bump.seq (builds_expression (h us rfl) hts)) rfl

variable {typeRow valueRow : List Sketch} {ms : List Token} {x : String}

theorem builds_varDecl (mods : List Modifier) (htype : optionalType.Builds deeper typeRow ts ms)
    (hvalue : initialiser.Builds deeper valueRow ms (Token.sign .semicolon :: rest)) :
    varDecl.Builds deeper
      [.node .varDecl (Sketch.modifiers mods ++ sign .varKw :: name x ::
        (typeRow ++ (valueRow ++ [sign .semicolon])))]
      (Modifier.tokens mods ++ Token.sign .varKw :: Token.word x :: ts) rest := by
  refine .node ((builds_modifiers mods ?_).seq (builds_bump.seq (builds_declaredName.seq ?_)))
  · rfl
  · exact htype.seq (hvalue.seq (builds_expect rfl))

theorem builds_parameter (htype : optionalType.Builds deeper typeRow ts ms)
    (hvalue : initialiser.Builds deeper valueRow ms rest) :
    parameter.Builds deeper [.node .param (name x :: (typeRow ++ valueRow))] (Token.word x :: ts)
      rest :=
  .node (builds_declaredName.seq (htype.seq hvalue))

theorem builds_lastComma (lastComma : Bool) (ts : List Token) (hts : front ts ≠ .comma) :
    trailingComma.Builds deeper (if lastComma then [sign .comma] else [])
      ((if lastComma then [Token.sign .comma] else []) ++ ts) ts := by
  cases lastComma with
  | false => exact builds_whenAt_skip hts
  | true => exact .whenAt builds_bump rfl

theorem builds_parameterList
    (h : parameters.Builds deeper row ts (Token.sign .rParen :: rest)) :
    parameterList.Builds deeper [.node .paramList (sign .lParen :: (row ++ [sign .rParen]))]
      (Token.sign .lParen :: ts) rest :=
  .peek (.node (builds_bump.seq (h.seq (builds_expect rfl))))

theorem builds_methodDecl {n : Nat} {p : Sketch} {us : List Token} {body : Option (List Token)}
    (mods : List Modifier) (hparams : parameterList.Builds (Construct.parse n) [p] ts us)
    (htype : optionalType.Builds (Construct.parse n) typeRow us (bodyTokens body ++ rest))
    (hbody : bodyWithin body n) :
    methodDecl.Builds (Construct.parse n)
      [.node .methodDecl (Sketch.modifiers mods ++ sign .functionKw :: name x :: p ::
        (typeRow ++ [Sketch.methodBody body]))]
      (Modifier.tokens mods ++ Token.sign .functionKw :: Token.word x :: ts) rest := by
  refine .node ((builds_modifiers mods ?_).seq (builds_bump.seq (builds_declaredName.seq ?_)))
  · rfl
  · refine hparams.seq (htype.seq (.peek ?_))
    rw [front_body hbody rest]
    cases body with
    | none => exact builds_expect rfl
    | some us => exact builds_block (hbody us rfl)

end Rule

/-! ## Programs are built -/

/-- What may stand behind a parameter. -/
def Kind.endsParameter : Kind → Bool
  | comma | rParen => true
  | _ => false

theorem Kind.endsExpression_of_endsParameter {k : Kind} (h : k.endsParameter = true) :
    k.endsExpression = true := by
  revert h
  cases k <;> decide

theorem front_value_ne_colon {value : Option (List Token)} {ts : List Token}
    (h : front ts ≠ .colon) : front (valueTokens value ++ ts) ≠ .colon := by
  cases value with
  | none => exact h
  | some us => nofun

theorem front_body_ne_colon {body : Option (List Token)} {n : Nat} (h : bodyWithin body n)
    (rest : List Token) : front (bodyTokens body ++ rest) ≠ .colon := by
  rw [front_body h]
  cases body <;> nofun

theorem ParamDef.endsParameter_more (ps : List ParamDef) {ts : List Token}
    (h : (front ts).endsParameter = true) :
    (front (ParamDef.moreTokens ps ++ ts)).endsParameter = true := by
  cases ps with
  | nil => exact h
  | cons p ps => rfl

mutual

/-- The rule of classes builds the tree of every class that is not nested too deep, and stops behind
it. -/
theorem ClassDef.builds (c : ClassDef) {n : Nat} (h : c.Within n) (rest : List Token) :
    (Rule.nest .classDecl).Builds (Construct.parse n) [c.sketch] (c.tokens ++ rest) rest := by
  obtain ⟨mods, isInterface, x, extended, implemented, ms⟩ := c
  obtain ⟨m, rfl, hms⟩ := h
  have hmembers := MemberDef.builds_list ms hms (Token.sign .rBrace :: rest) rfl
  have hclass := Rule.builds_classDecl (Construct.lively m) mods isInterface x extended implemented
    hmembers
  rw [ClassDef.tokens, List.append_assoc, List.cons_append, List.cons_append, List.append_assoc,
    List.append_assoc]
  exact hclass

/-- The rule of members tells fields from methods and builds the tree of either. -/
theorem MemberDef.builds (m : MemberDef) {n : Nat} (h : m.Within n) (rest : List Token) :
    Rule.member.Builds (Construct.parse n) [m.sketch] (m.tokens ++ rest) rest := by
  refine .look ?_
  rw [m.dropWhile_tokens]
  cases m with
  | nested c =>
    have hclass := c.builds h rest
    obtain ⟨mods, isInterface, x, extended, implemented, ms⟩ := c
    cases isInterface <;> exact hclass
  | method mods x ps lastComma type body =>
    obtain ⟨hps, htype, hbody⟩ := h
    have hlist := Rule.builds_parameterList (ParamDef.builds_list lastComma ps hps
      (type.tokens ++ (bodyTokens body ++ rest)))
    have htype := type.builds htype (bodyTokens body ++ rest) (front_body_ne_colon hbody rest)
    simp only [MemberDef.tokens, List.append_assoc, List.cons_append]
    exact Rule.builds_methodDecl mods hlist htype hbody
  | field mods x type value =>
    have hvalue := Rule.builds_initialiser h.2 (Token.sign .semicolon :: rest) rfl
    have htype := type.builds h.1 (valueTokens value ++ Token.sign .semicolon :: rest)
      (front_value_ne_colon nofun)
    simp only [MemberDef.tokens, List.append_assoc, List.cons_append]
    exact Rule.builds_varDecl mods htype hvalue

/-- Members are read up to the brace that closes their list. -/
theorem MemberDef.builds_list (ms : List MemberDef) {n : Nat} (h : MemberDef.AllWithin ms n)
    (rest : List Token) (hrest : Rule.inBraces (front rest) = false) :
    Rule.members.Builds (Construct.parse n) (MemberDef.sketches ms)
      (MemberDef.listTokens ms ++ rest) rest := by
  have hprod := Rule.productive_members (Construct.lively n)
  cases ms with
  | nil => exact Rule.builds_loop_stop hprod hrest
  | cons m ms =>
    have hfirst := m.builds h.1 (MemberDef.listTokens ms ++ rest)
    have hmore := MemberDef.builds_list ms h.2 rest hrest
    rw [MemberDef.listTokens, List.append_assoc]
    exact hfirst.loop hmore hprod (m.inBraces_front _)

theorem ParamDef.builds (p : ParamDef) {n : Nat} (h : p.Within n) (rest : List Token)
    (hrest : (front rest).endsParameter = true) :
    Rule.parameter.Builds (Construct.parse n) [p.sketch] (p.tokens ++ rest) rest := by
  obtain ⟨x, type, value⟩ := p
  have hvalue := Rule.builds_initialiser h.2 rest (Kind.endsExpression_of_endsParameter hrest)
  have htype := type.builds h.1 (valueTokens value ++ rest) (front_value_ne_colon ?_)
  · rw [ParamDef.tokens, List.cons_append, List.append_assoc]
    exact Rule.builds_parameter htype hvalue
  · intro hcolon
    rw [hcolon] at hrest
    cases hrest

/-- Parameters are read up to the closing parenthesis, with a last comma or without. -/
theorem ParamDef.builds_list (lastComma : Bool) (ps : List ParamDef) {n : Nat}
    (h : ParamDef.AllWithin ps n) (rest : List Token) :
    Rule.parameters.Builds (Construct.parse n) (ParamDef.sketches lastComma ps)
      (ParamDef.listTokens lastComma ps ++ Token.sign .rParen :: rest)
      (Token.sign .rParen :: rest) := by
  cases ps with
  | nil => exact Rule.builds_whenAt_skip nofun
  | cons p ps =>
    have hcomma : Rule.trailingComma.Builds (Construct.parse n) _ _ _ :=
      Rule.builds_lastComma lastComma (Token.sign .rParen :: rest) nofun
    generalize hlast : (if lastComma then [Token.sign .comma] else []) ++
      Token.sign .rParen :: rest = last at hcomma
    have hends : (front last).endsParameter = true ∧
        (front last == .comma && front last.tail == .ident) = false := by
      rw [← hlast]
      cases lastComma <;> exact ⟨rfl, rfl⟩
    have hmore := ParamDef.builds_more ps h.2 last hends.1 hends.2
    have hfirst := p.builds h.1 (ParamDef.moreTokens ps ++ last)
      (ParamDef.endsParameter_more ps hends.1)
    rw [ParamDef.listTokens, List.append_assoc, List.append_assoc, hlast]
    refine .whenAt (hfirst.seq (hmore.seq hcomma)) ?_
    obtain ⟨x, type, value⟩ := p
    rfl

theorem ParamDef.builds_more (ps : List ParamDef) {n : Nat} (h : ParamDef.AllWithin ps n)
    (rest : List Token) (hrest : (front rest).endsParameter = true)
    (hstop : (front rest == .comma && front rest.tail == .ident) = false) :
    Rule.moreParameters.Builds (Construct.parse n) (ParamDef.moreSketches ps)
      (ParamDef.moreTokens ps ++ rest) rest := by
  have hprod := Rule.productive_moreParameters (Construct.lively n)
  cases ps with
  | nil => exact Rule.builds_loop_stop hprod hstop
  | cons p ps =>
    have hfirst := p.builds h.1 (ParamDef.moreTokens ps ++ rest)
      (ParamDef.endsParameter_more ps hrest)
    have hmore := ParamDef.builds_more ps h.2 rest hrest hstop
    rw [ParamDef.moreTokens, List.cons_append, List.append_assoc]
    refine (Rule.builds_bump.seq hfirst).loop hmore hprod ?_
    obtain ⟨x, type, value⟩ := p
    rfl

/-- A type is read if there is one; no colon may follow if there is none. -/
theorem TypeDef.builds (t : TypeDef) {n : Nat} (h : t.Within n) (rest : List Token)
    (hrest : front rest ≠ .colon) :
    Rule.optionalType.Builds (Construct.parse n) t.sketches (t.tokens ++ rest) rest := by
  cases t with
  | omitted => exact Rule.builds_whenAt_skip hrest
  | named x => exact Rule.builds_typeName
  | structured ms =>
    obtain ⟨m, rfl, hms⟩ := h
    have hmembers := MemberDef.builds_list ms hms (Token.sign .rBrace :: rest) rfl
    exact Rule.builds_typeTag (.node (Rule.builds_memberList hmembers)) rfl

end

theorem ClassDef.builds_topLevel (c : ClassDef) {n : Nat} (h : c.Within n) (rest : List Token) :
    Rule.topLevel.Builds (Construct.parse n) [c.sketch] (c.tokens ++ rest) rest := by
  have hkeyword := (MemberDef.nested c).dropWhile_tokens rest
  have hclass := c.builds h rest
  rw [MemberDef.tokens] at hkeyword
  refine .look ?_
  rw [hkeyword]
  obtain ⟨mods, isInterface, x, extended, implemented, ms⟩ := c
  cases isInterface <;> exact hclass

theorem ClassDef.front_ne_eof (c : ClassDef) (rest : List Token) :
    (front (c.tokens ++ rest) != .eof) = true := by
  have hin := (MemberDef.nested c).inBraces_front rest
  rw [MemberDef.tokens, Rule.inBraces, Bool.and_eq_true] at hin
  exact hin.2

/-- The rule of a file builds the classes of a program, one after another to the end. -/
theorem builds_file {n : Nat} {cs : List ClassDef} (h : ∀ c ∈ cs, c.Within n) :
    Rule.file.Builds (Construct.parse n) (cs.map ClassDef.sketch) (cs.flatMap ClassDef.tokens)
      [] := by
  have hprod := Rule.productive_declarations (Construct.lively n)
  have hclasses : Rule.declarations.Builds (Construct.parse n) (cs.map ClassDef.sketch)
      (cs.flatMap ClassDef.tokens) [] := by
    induction cs with
    | nil => exact Rule.builds_loop_stop hprod rfl
    | cons c cs ih =>
      have hclass := c.builds_topLevel (h c List.mem_cons_self) (cs.flatMap ClassDef.tokens)
      have hmore := ih fun c' hc' => h c' (List.mem_cons_of_mem c hc')
      rw [List.flatMap_cons]
      exact hclass.loop hmore hprod (c.front_ne_eof _)
  have hfile := hclasses.seq Rule.builds_gap
  rw [List.append_nil] at hfile
  exact hfile

end ClassNav
