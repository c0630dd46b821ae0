import ClassNav.Grammar.Cursor

/-!
# Rules

A grammar is a value: `Rule` is a small language of parsing actions, and `Rule.run` gives its
meaning. Facts that hold of every rule are proved once, by induction on rules.

* Rules never fail; what is missing or unexpected is reported and parsing goes on.
* `Rule.node` and `Rule.chain` are the only ways to make nodes. A node takes the trivia before it
  into its parent, so that it starts with a significant token.
* `Rule.nest` is the only way to recurse. It names one of the `Construct`s that may contain
  themselves, and the meaning of one level deeper is a parameter of `Rule.run`.
-/

namespace ClassNav

/-- The parts of a text that can contain themselves. -/
inductive Construct
  | classDecl
  | anonymousType
  | block
  | expression
deriving DecidableEq, Repr, Inhabited

/-- A rule of the grammar. -/
inductive Rule
  /-- Does nothing. -/
  | done
  /-- Takes the trivia before the next significant token. -/
  | gap
  /-- Takes the next significant token with the trivia before it. -/
  | bump
  /-- Reports a fault at the next significant token. -/
  | report (fault : Fault)
  /-- Follows one rule, then another. -/
  | seq (first second : Rule)
  /-- Takes a gap, then makes a node of what the body yields. -/
  | node (kind : Kind) (body : Rule)
  /-- Goes on by the kind of the first significant token that is not skipped. -/
  | look (skip : Kind → Bool) (next : Kind → Rule)
  /-- Repeats the body while the kinds of the next two significant tokens satisfy the test. -/
  | loop (test : Kind → Kind → Bool) (body : Rule)
  /-- Follows the first rule; then, as long as `wrap` names a kind for the next significant token,
  makes a node of that kind from everything yielded so far and what the next rule yields. -/
  | chain (first : Rule) (wrap : Kind → Option Kind) (next : Kind → Rule)
  /-- Follows the body; if that takes no token at all, not even trivia, the next significant token
  is refused. -/
  | progress (body : Rule) (fault : Fault)
  /-- Goes one level deeper. -/
  | nest (construct : Construct)

/-! ## Repetition -/

namespace Cursor

/-- Repeats `body` while `test` holds, at most `bound` times. -/
def repeatWhile (test : Cursor → Bool) (body : Cursor → Outcome) : (bound : Nat) → Cursor → Outcome
  | 0, c => c.stay
  | n + 1, c => if test c then (body c).andThen (repeatWhile test body n) else c.stay

/-- Puts the next significant token into an error node, and reports it. -/
def reject (f : Fault) (c : Cursor) : Outcome :=
  (c.report f).andThen fun c => c.gap.andThen fun c => c.bump.enclose .errorNode

end Cursor

namespace Outcome

/-- While `wrap` names a kind for the next significant token, wraps everything yielded so far
together with what `next` yields, at most `bound` times. -/
def wrapWhile (wrap : Kind → Option Kind) (next : Kind → Cursor → Outcome) :
    (bound : Nat) → Outcome → Outcome
  | 0, o => o
  | n + 1, o =>
    match wrap o.cursor.current with
    | none => o
    | some k => wrapWhile wrap next n ((o.andThen (next o.cursor.current)).enclose k)

end Outcome

/-! ## Meaning -/

namespace Rule

/-- What a rule does at a cursor, given what each construct does one level deeper. A repetition is
bounded by the number of tokens left, since every pass takes one. -/
def run (deeper : Construct → Cursor → Outcome) : Rule → Cursor → Outcome
  | done, c => c.stay
  | gap, c => c.gap
  | bump, c => c.bump
  | report f, c => c.report f
  | seq a b, c => (a.run deeper c).andThen (b.run deeper)
  | node k body, c => c.gap.andThen fun c => (body.run deeper c).enclose k
  | look skip next, c => (next (c.peek skip)).run deeper c
  | loop test body, c =>
    c.repeatWhile (fun c => test c.current c.second) (body.run deeper) c.rest.length
  | chain first wrap next, c =>
    let o := first.run deeper c
    o.wrapWhile wrap (fun k => (next k).run deeper) o.cursor.rest.length
  | progress body f, c =>
    let o := body.run deeper c
    if o.cursor.rest.length = c.rest.length then o.andThen (Cursor.reject f) else o
  | nest k, c => deeper k c

/-! ## Shorthands -/

/-- Follows several rules in order. -/
def all : List Rule → Rule
  | [] => done
  | [r] => r
  | r :: rs => seq r (all rs)

/-- Goes on by the kind of the next significant token. -/
def peek (next : Kind → Rule) : Rule := look (fun _ => false) next

/-- Follows a rule only if the next significant token is of kind `k`. -/
def whenAt (k : Kind) (r : Rule) : Rule := peek fun k' => if k' = k then r else done

/-- Takes a token of kind `k`, or reports that it is missing. -/
def expect (k : Kind) (f : Fault) : Rule := peek fun k' => if k' = k then bump else report f

/-- Reports the next significant token and puts it into an error node. -/
def reject (f : Fault) : Rule := seq (report f) (node .errorNode bump)

theorem run_reject (deeper : Construct → Cursor → Outcome) (f : Fault) (c : Cursor) :
    (reject f).run deeper c = c.reject f := rfl

/-- Repeats a rule while the next significant token satisfies the test. -/
def manyWhile (test : Kind → Bool) (body : Rule) : Rule := loop (fun k _ => test k) body

end Rule

end ClassNav
