import ClassNav.Outline.Declaration
import ClassNav.Proofs.Grammar.Cursor
import ClassNav.Proofs.Grammar.Form
import Mathlib.Data.List.Forall2

/-!
# Programs without their text

A `ClassDef` is a class or an interface as one thinks of it: modifiers, a name, the types it refers
to, and members, which are classes, methods and fields again. What stands inside method bodies and
initial values declares nothing for the outside, so it is left as a row of tokens.

* `ClassDef.tokens` writes a class as tokens.
* `ClassDef.Within n`: the class nests constructs at most `n` deep, its method bodies are blocks and
  its initial values are expressions.
* `ClassDef.ReadAt s`: all that the readers of declarations answer at `s`, and at what they find
  below it, is the class.
-/

namespace ClassNav

/-! ## Programs -/

/-- A keyword that may stand before a declaration. -/
abbrev Modifier := { k : Kind // k.isModifier = true }

mutual

/-- A class or an interface. -/
inductive ClassDef
  | mk (modifiers : List Modifier) (isInterface : Bool) (name : String) (extended : Option String)
      (implemented : List String) (members : List MemberDef)

/-- A member of a class. -/
inductive MemberDef
  | nested (c : ClassDef)
  /-- A method; the last of its parameters may be followed by a comma. -/
  | method (modifiers : List Modifier) (name : String) (params : List ParamDef) (lastComma : Bool)
      (returned : TypeDef) (body : Option (List Token))
  | field (modifiers : List Modifier) (name : String) (type : TypeDef)
      (value : Option (List Token))

/-- A parameter of a method. -/
inductive ParamDef
  | mk (name : String) (type : TypeDef) (value : Option (List Token))

/-- A type, where one may be given: none, a name, or a structure that lists its members. -/
inductive TypeDef
  | omitted
  | named (x : String)
  | structured (members : List MemberDef)

end

/-! ## Their tokens -/

/-- How a token is spelled whose kind leaves no choice. -/
def Kind.spelling : Kind → String
  | classKw => "class"
  | interfaceKw => "interface"
  | extendsKw => "extends"
  | implementsKw => "implements"
  | functionKw => "function"
  | varKw => "var"
  | newKw => "new"
  | returnKw => "return"
  | staticKw => "static"
  | publicKw => "public"
  | privateKw => "private"
  | overrideKw => "override"
  | inlineKw => "inline"
  | lBrace => "\x7b"
  | rBrace => "\x7d"
  | lParen => "("
  | rParen => ")"
  | semicolon => ";"
  | colon => ":"
  | comma => ","
  | dot => "."
  | eq => "="
  | _ => ""

namespace Token

def sign (k : Kind) : Token := ⟨k, k.spelling⟩

def word (x : String) : Token := ⟨.ident, x⟩

def braced (ts : List Token) : List Token := sign .lBrace :: (ts ++ [sign .rBrace])

end Token

open Token (sign word braced)

/-- The keywords before a declaration. -/
def Modifier.tokens (ms : List Modifier) : List Token := ms.map fun m => sign m.val

def Kind.classKeyword (isInterface : Bool) : Kind := if isInterface then interfaceKw else classKw

def extendsTokens : Option String → List Token
  | none => []
  | some x => [sign .extendsKw, word x]

/-- Identifiers with a comma before each. -/
def commaWords (xs : List String) : List Token := xs.flatMap fun x => [sign .comma, word x]

def implementsTokens : List String → List Token
  | [] => []
  | x :: xs => sign .implementsKw :: word x :: commaWords xs

def valueTokens : Option (List Token) → List Token
  | none => []
  | some ts => sign .eq :: ts

/-- The body of a method, or a semicolon in its place. -/
def bodyTokens : Option (List Token) → List Token
  | none => [sign .semicolon]
  | some ts => ts

mutual

def ClassDef.tokens : ClassDef → List Token
  | .mk mods isInterface x extended implemented ms =>
    Modifier.tokens mods ++ sign (.classKeyword isInterface) :: word x ::
      (extendsTokens extended ++ implementsTokens implemented ++ braced (MemberDef.listTokens ms))

def MemberDef.tokens : MemberDef → List Token
  | .nested c => c.tokens
  | .method mods x ps lastComma type body =>
    Modifier.tokens mods ++ sign .functionKw :: word x :: sign .lParen ::
      (ParamDef.listTokens lastComma ps ++ sign .rParen :: (type.tokens ++ bodyTokens body))
  | .field mods x type value =>
    Modifier.tokens mods ++ sign .varKw :: word x ::
      (type.tokens ++ valueTokens value ++ [sign .semicolon])

def MemberDef.listTokens : List MemberDef → List Token
  | [] => []
  | m :: ms => m.tokens ++ MemberDef.listTokens ms

def ParamDef.tokens : ParamDef → List Token
  | .mk x type value => word x :: (type.tokens ++ valueTokens value)

/-- The tokens of some parameters, perhaps with a comma after the last one. -/
def ParamDef.listTokens (lastComma : Bool) : List ParamDef → List Token
  | [] => []
  | p :: ps =>
    p.tokens ++ ParamDef.moreTokens ps ++ if lastComma then [sign .comma] else []

/-- The tokens of some parameters, each with a comma before it. -/
def ParamDef.moreTokens : List ParamDef → List Token
  | [] => []
  | p :: ps => sign .comma :: (p.tokens ++ ParamDef.moreTokens ps)

/-- The tokens of a type with the colon before it. -/
def TypeDef.tokens : TypeDef → List Token
  | .omitted => []
  | .named x => [sign .colon, word x]
  | .structured ms => sign .colon :: braced (MemberDef.listTokens ms)

end

/-! ## How deep they are nested -/

/-- An initial value, if there is one, is an expression. -/
def valueWithin (value : Option (List Token)) (n : Nat) : Prop :=
  ∀ ts, value = some ts → Form.Derives n (.nested .expression) (ts.map Token.kind)

/-- The body of a method, if there is one, is a block. -/
def bodyWithin (body : Option (List Token)) (n : Nat) : Prop :=
  ∀ ts, body = some ts → Form.Derives n (.nested .block) (ts.map Token.kind)

mutual

/-- A class has well-formed bodies and initial values and nests constructs at most `n` deep, itself
included. -/
def ClassDef.Within : ClassDef → Nat → Prop
  | .mk _ _ _ _ _ ms, n => ∃ m, n = m + 1 ∧ MemberDef.AllWithin ms m

def MemberDef.Within : MemberDef → Nat → Prop
  | .nested c, n => c.Within n
  | .method _ _ ps _ type body, n => ParamDef.AllWithin ps n ∧ type.Within n ∧ bodyWithin body n
  | .field _ _ type value, n => type.Within n ∧ valueWithin value n

def MemberDef.AllWithin : List MemberDef → Nat → Prop
  | [], _ => True
  | m :: ms, n => m.Within n ∧ MemberDef.AllWithin ms n

def ParamDef.Within : ParamDef → Nat → Prop
  | .mk _ type value, n => type.Within n ∧ valueWithin value n

def ParamDef.AllWithin : List ParamDef → Nat → Prop
  | [], _ => True
  | p :: ps, n => p.Within n ∧ ParamDef.AllWithin ps n

def TypeDef.Within : TypeDef → Nat → Prop
  | .omitted, _ => True
  | .named _, _ => True
  | .structured ms, n => ∃ m, n = m + 1 ∧ MemberDef.AllWithin ms m

end

/-- A text writes a program: its tokens are those of the program, with any blanks and comments
between them, and the program is not nested too deep. -/
def Writes (text : String) (program : List ClassDef) : Prop :=
  (∀ c ∈ program, c.Within maxDepth) ∧
    Token.words (Token.scan text) = program.flatMap ClassDef.tokens

/-! ## How they are read -/

/-- The tokens of an element that are neither blanks nor comments. -/
def Site.words (s : Site) : List Token := Token.words s.tree.tokens

/-- The keywords that may stand before a declaration are among its own tokens if they are given,
and not otherwise. -/
def Site.HasModifiers (s : Site) (mods : List Modifier) : Prop :=
  ∀ m : Modifier, (s.token? m.val).isSome = mods.contains m

mutual

/-- Reading declarations at an element gives a class. -/
inductive ClassDef.ReadAt : ClassDef → Site → Prop
  | mk {mods : List Modifier} {isInterface : Bool} {x : String} {extended : Option String}
      {implemented : List String} {ms : List MemberDef} {s : Site}
      (hnode : s.isNode .classDecl = true)
      (hmodifiers : s.HasModifiers mods)
      (hname : s.name? = some x)
      (hflag : s.isInterface = isInterface)
      (hextended : s.extends?.map Site.identifierText? = extended.map some)
      (himplemented : s.implemented.map Site.identifierText? = implemented.map some)
      (hbody : s.classBody?.isSome = true)
      (hmembers : List.Forall₂ MemberDef.ReadAt ms s.members) :
      ClassDef.ReadAt (.mk mods isInterface x extended implemented ms) s

inductive MemberDef.ReadAt : MemberDef → Site → Prop
  | nested {c : ClassDef} {s : Site} (hclass : c.ReadAt s) : MemberDef.ReadAt (.nested c) s
  | method {mods : List Modifier} {x : String} {ps : List ParamDef} {lastComma : Bool}
      {type : TypeDef} {body : Option (List Token)} {s : Site}
      (hnode : s.isNode .methodDecl = true)
      (hmodifiers : s.HasModifiers mods)
      (hflag : s.isStatic = mods.contains ⟨.staticKw, rfl⟩)
      (hname : s.name? = some x)
      (hparams : List.Forall₂ ParamDef.ReadAt ps s.params)
      (htype : type.ReadAt s.typeTag?)
      (hbody : s.methodBody?.map Site.words = body) :
      MemberDef.ReadAt (.method mods x ps lastComma type body) s
  | field {mods : List Modifier} {x : String} {type : TypeDef} {value : Option (List Token)}
      {s : Site}
      (hnode : s.isNode .varDecl = true)
      (hmodifiers : s.HasModifiers mods)
      (hname : s.name? = some x)
      (htype : type.ReadAt s.typeTag?) :
      MemberDef.ReadAt (.field mods x type value) s

inductive ParamDef.ReadAt : ParamDef → Site → Prop
  | mk {x : String} {type : TypeDef} {value : Option (List Token)} {s : Site}
      (hnode : s.isNode .param = true)
      (hname : s.name? = some x)
      (htype : type.ReadAt s.typeTag?) :
      ParamDef.ReadAt (.mk x type value) s

/-- A type tag that was found, or that none was found, gives a type. -/
inductive TypeDef.ReadAt : TypeDef → Option Site → Prop
  | omitted : TypeDef.ReadAt .omitted none
  | named {x : String} {tag : Site}
      (hname : tag.typeReference?.map Site.identifierText? = some (some x))
      (hnone : tag.typeStructure? = none) :
      TypeDef.ReadAt (.named x) (some tag)
  | structured {ms : List MemberDef} {tag body : Site}
      (hnone : tag.typeReference? = none)
      (hbody : tag.typeStructure? = some body)
      (hmembers : List.Forall₂ MemberDef.ReadAt ms body.members) :
      TypeDef.ReadAt (.structured ms) (some tag)

end

end ClassNav
