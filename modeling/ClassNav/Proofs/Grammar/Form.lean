import ClassNav.Grammar.Rule

/-!
# The grammar of the language

What a text has to look like, without saying how to read it. A `Form` is a pattern for rows of
kinds, with choice, repetition and references to the constructs that may contain themselves.
`Form.Derives n f w` says that the row `w` has the form `f` by a derivation in which no branch
passes through more than `n` constructs.

`Form.file` is the form of a whole file. It reads

    File   ::= Class*
    Class  ::= Mod* (class | interface) Ident [extends Ident] [implements Ident (, Ident)*]
               { Member* }
    Member ::= Class | Mod* function Ident ( [Param (, Param)* [,]] ) [Tag] (Block | ;) | Mod* Var
    Var    ::= var Ident [Tag] [= Expr] ;
    Param  ::= Ident [Tag] [= Expr]
    Tag    ::= : (Ident | Structure)
    Structure ::= { Member* }
    Block  ::= { Stmt* }
    Stmt   ::= Var | Block | ; | return [Expr] ; | Expr ;
    Expr   ::= Post ((Op | =) Post)*
    Post   ::= Op* Prim (. Ident | Args)*
    Prim   ::= Ident | Number | String | new Ident [Args] | ( Expr )
    Args   ::= ( [Expr (, Expr)*] )

where `Class`, `Structure`, `Block` and `Expr` are the constructs.
-/

namespace ClassNav

/-- A pattern for rows of kinds. -/
inductive Form
  /-- The empty row. -/
  | empty
  /-- One kind that passes a test. -/
  | one (test : Kind → Bool)
  /-- One form, then another. -/
  | seq (first second : Form)
  /-- Either of two forms. -/
  | alt (left right : Form)
  /-- A form any number of times. -/
  | many (item : Form)
  /-- A construct, one level deeper. -/
  | nested (construct : Construct)

namespace Form

/-! ## Shorthands -/

def token (k : Kind) : Form := one (· == k)

/-- Several forms in order. -/
def row : List Form → Form
  | [] => empty
  | [f] => f
  | f :: fs => seq f (row fs)

def choice (f : Form) : List Form → Form
  | [] => f
  | g :: gs => alt f (choice g gs)

def opt (f : Form) : Form := alt f empty

/-- A form at least once, with commas between. -/
def commaList (f : Form) : Form := seq f (many (seq (token .comma) f))

/-- An expression, one level deeper. -/
def expr : Form := nested .expression

def modifiers : Form := many (one Kind.isModifier)

/-! ## Expressions -/

def arguments : Form := row [token .lParen, opt (commaList expr), token .rParen]

/-- An expression without operators, fields and calls. -/
def primary : Form :=
  choice (token .ident) [
    token .number,
    token .string,
    row [token .newKw, token .ident, opt arguments],
    row [token .lParen, expr, token .rParen]]

def selection : Form := alt (seq (token .dot) (token .ident)) arguments

/-- An operand with the operators before it and the field accesses and calls after it. -/
def operand : Form := row [many (token .op), primary, many selection]

/-- Operands joined by operators. -/
def expression : Form := seq operand (many (seq (one fun k => k == .op || k == .eq) operand))

/-! ## Declarations -/

def typeTag : Form := seq (token .colon) (alt (token .ident) (nested .anonymousType))

def initialiser : Form := seq (token .eq) expr

def variableDecl : Form :=
  row [token .varKw, token .ident, opt typeTag, opt initialiser, token .semicolon]

def parameter : Form := row [token .ident, opt typeTag, opt initialiser]

/-- Parameters in parentheses, perhaps with a comma after the last one. -/
def parameterList : Form :=
  row [token .lParen, opt (seq (commaList parameter) (opt (token .comma))), token .rParen]

def methodDecl : Form :=
  row [modifiers, token .functionKw, token .ident, parameterList, opt typeTag,
    alt (nested .block) (token .semicolon)]

def member : Form := choice (nested .classDecl) [methodDecl, seq modifiers variableDecl]

def memberList : Form := row [token .lBrace, many member, token .rBrace]

def classDecl : Form :=
  row [modifiers, one (fun k => k == .classKw || k == .interfaceKw), token .ident,
    opt (seq (token .extendsKw) (token .ident)),
    opt (seq (token .implementsKw) (commaList (token .ident))),
    memberList]

/-! ## Statements and files -/

def statement : Form :=
  choice variableDecl [
    nested .block,
    token .semicolon,
    row [token .returnKw, opt expr, token .semicolon],
    seq expr (token .semicolon)]

def block : Form := row [token .lBrace, many statement, token .rBrace]

def file : Form := many (nested .classDecl)

end Form

def Construct.form : Construct → Form
  | classDecl => .classDecl
  | anonymousType => .memberList
  | block => .block
  | expression => .expression

/-! ## Derivations -/

/-- A row of kinds has a form, by a derivation in which no branch passes through more than a
given number of constructs. -/
inductive Form.Derives : Nat → Form → List Kind → Prop
  | empty {n : Nat} : Derives n empty []
  | one {n : Nat} {test : Kind → Bool} {k : Kind} : test k = true → Derives n (one test) [k]
  | seq {n : Nat} {f g : Form} {u v : List Kind} :
      Derives n f u → Derives n g v → Derives n (seq f g) (u ++ v)
  | altLeft {n : Nat} {f g : Form} {w : List Kind} : Derives n f w → Derives n (alt f g) w
  | altRight {n : Nat} {f g : Form} {w : List Kind} : Derives n g w → Derives n (alt f g) w
  | manyNil {n : Nat} {f : Form} : Derives n (many f) []
  | manyCons {n : Nat} {f : Form} {u v : List Kind} :
      Derives n f u → Derives n (many f) v → Derives n (many f) (u ++ v)
  | nested {n : Nat} {k : Construct} {w : List Kind} :
      Derives n k.form w → Derives (n + 1) (nested k) w

namespace Form

/-! ## Forms in front of a row -/

/-- A row starts with a row of a form, and `ks'` is what follows. -/
def Splits (n : Nat) (f : Form) (ks ks' : List Kind) : Prop := ∃ w, ks = w ++ ks' ∧ Derives n f w

variable {n : Nat} {f g : Form} {ks ks' : List Kind}

theorem splits_empty : Splits n empty ks ks' ↔ ks = ks' := by
  constructor
  · rintro ⟨w, rfl, ⟨⟩⟩
    rfl
  · rintro rfl
    exact ⟨[], rfl, .empty⟩

theorem splits_one {test : Kind → Bool} :
    Splits n (one test) ks ks' ↔ ∃ k, test k = true ∧ ks = k :: ks' := by
  constructor
  · rintro ⟨w, rfl, ⟨⟩⟩
    next k h => exact ⟨k, h, rfl⟩
  · rintro ⟨k, h, rfl⟩
    exact ⟨[k], rfl, .one h⟩

theorem splits_token {k : Kind} : Splits n (token k) ks ks' ↔ ks = k :: ks' := by
  rw [token, splits_one]
  constructor
  · rintro ⟨k', h, rfl⟩
    rw [eq_of_beq h]
  · rintro rfl
    exact ⟨k, beq_self_eq_true k, rfl⟩

theorem splits_seq :
    Splits n (seq f g) ks ks' ↔ ∃ ms, Splits n f ks ms ∧ Splits n g ms ks' := by
  constructor
  · rintro ⟨w, rfl, ⟨⟩⟩
    next u v hu hv => exact ⟨v ++ ks', ⟨u, List.append_assoc u v ks', hu⟩, v, rfl, hv⟩
  · rintro ⟨ms, ⟨u, rfl, hu⟩, v, rfl, hv⟩
    exact ⟨u ++ v, (List.append_assoc u v ks').symm, .seq hu hv⟩

theorem splits_alt :
    Splits n (alt f g) ks ks' ↔ Splits n f ks ks' ∨ Splits n g ks ks' := by
  constructor
  · rintro ⟨w, rfl, ⟨⟩⟩
    · next h => exact .inl ⟨w, rfl, h⟩
    · next h => exact .inr ⟨w, rfl, h⟩
  · rintro (⟨w, rfl, h⟩ | ⟨w, rfl, h⟩)
    · exact ⟨w, rfl, .altLeft h⟩
    · exact ⟨w, rfl, .altRight h⟩

theorem splits_opt : Splits n (opt f) ks ks' ↔ ks = ks' ∨ Splits n f ks ks' := by
  rw [opt, splits_alt, splits_empty, or_comm]

/-- A row of repeated forms is empty, or starts with one of them. -/
theorem splits_many :
    Splits n (many f) ks ks' ↔ ks = ks' ∨ ∃ ms, Splits n f ks ms ∧ Splits n (many f) ms ks' := by
  constructor
  · rintro ⟨w, rfl, ⟨⟩⟩
    · exact .inl rfl
    · next u v hu hv => exact .inr ⟨v ++ ks', ⟨u, List.append_assoc u v ks', hu⟩, v, rfl, hv⟩
  · rintro (rfl | ⟨ms, ⟨u, rfl, hu⟩, v, rfl, hv⟩)
    · exact ⟨[], rfl, .manyNil⟩
    · exact ⟨u ++ v, (List.append_assoc u v ks').symm, .manyCons hu hv⟩

theorem splits_many_nil (ks : List Kind) : Splits n (many f) ks ks := splits_many.mpr (.inl rfl)

theorem splits_many_cons {ms : List Kind} (h : Splits n f ks ms)
    (hrest : Splits n (many f) ms ks') : Splits n (many f) ks ks' :=
  splits_many.mpr (.inr ⟨ms, h, hrest⟩)

/-- To prove something of a repeated form in front of a row, go from the last piece to the first. -/
theorem splits_many_induction {P : List Kind → Prop} (h : Splits n (many f) ks ks') (nil : P ks')
    (cons : ∀ ks ms, Splits n f ks ms → P ms → P ks) : P ks := by
  obtain ⟨w, rfl, h⟩ := h
  generalize hg : many f = g at h
  induction h with
  | manyNil => exact nil
  | @manyCons n f' u v hu hv _ ih =>
    cases hg
    exact cons _ (v ++ ks') ⟨u, List.append_assoc u v ks', hu⟩ (ih cons rfl)
  | _ => cases hg

theorem Derives.many_append {u v : List Kind} (hu : Derives n (many f) u)
    (hv : Derives n (many f) v) : Derives n (many f) (u ++ v) := by
  refine splits_many_induction (P := Derives n (many f)) ⟨u, rfl, hu⟩ hv ?_
  rintro _ ms ⟨w, rfl, hw⟩ hms
  exact .manyCons hw hms

theorem Derives.many_one {w : List Kind} (h : Derives n f w) : Derives n (many f) w := by
  have hmany := Derives.manyCons h .manyNil
  rwa [List.append_nil] at hmany

/-- To go down to a construct costs one level. -/
theorem splits_nested {k : Construct} :
    Splits (n + 1) (nested k) ks ks' ↔ Splits n k.form ks ks' := by
  constructor
  · rintro ⟨w, rfl, ⟨⟩⟩
    next h => exact ⟨w, rfl, h⟩
  · rintro ⟨w, rfl, h⟩
    exact ⟨w, rfl, .nested h⟩

/-- At the last level there is nothing to go down to. -/
theorem not_splits_nested_zero {k : Construct} : ¬ Splits 0 (nested k) ks ks' := by
  rintro ⟨w, rfl, ⟨⟩⟩

end Form

end ClassNav
