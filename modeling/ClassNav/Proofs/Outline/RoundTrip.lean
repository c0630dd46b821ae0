import ClassNav.Proofs.Outline.Accepted
import ClassNav.Proofs.Outline.Declaration
import ClassNav.Proofs.Outline.Layout

/-!
# Programs are read back

Reading the tree of a text that writes a program gives the program back (`outline_parse`), whatever
blanks and comments stand between its tokens.

`Outline.Layout` says which trees are built. Here the readers of declarations are run on such
trees: the nodes that a reader looks for among the children of an element are those that the sketch
of the element has (`Sketch.Fits.nodes`), and so are the tokens (`Sketch.Fits.leaves`). An
expression among the children adds none of them.
-/

namespace ClassNav

/-! ## What readers find -/

/-- Related elements that pass their tests alike stay related. -/
theorem forall₂_filter_cons {α β : Type} {R : α → β → Prop} {f : α → Bool} {g : β → Bool} {a : α}
    {b : β} {l : List α} {m : List β} (htests : f a = g b) (hab : R a b)
    (h : List.Forall₂ R (l.filter f) (m.filter g)) :
    List.Forall₂ R ((a :: l).filter f) ((b :: m).filter g) := by
  rw [List.filter_cons, List.filter_cons, htests]
  split
  · exact .cons hab h
  · exact h

namespace Sketch

/-- Whether a sketch is a node whose kind passes a test. -/
def isNode (p : Kind → Bool) : Sketch → Bool
  | node k _ => p k
  | block _ => p .block
  | _ => false

/-- The token of a sketch, if it is a token whose kind passes a test. -/
def leaf? (p : Kind → Bool) : Sketch → Option Token
  | leaf t => if p t.kind then some t else none
  | _ => none

/-- Whether a sketch is a token whose kind passes a test. -/
def isLeaf (p : Kind → Bool) : Sketch → Bool
  | leaf t => p t.kind
  | _ => false

theorem isSome_leaf? (p : Kind → Bool) (sk : Sketch) : (sk.leaf? p).isSome = sk.isLeaf p := by
  cases sk with
  | leaf t => cases h : p t.kind <;> simp [leaf?, isLeaf, h]
  | _ => rfl

/-- A test that neither trivia nor the parts of an expression pass. -/
def Declares (p : Kind → Bool) : Prop :=
  ∀ k, p k = true → k.isTrivia = false ∧ Form.expressionParts.avoids k = true

/-- A kind that no expression has among its nodes can be looked for beside expressions. -/
theorem declares_eq {k : Kind} (htrivia : k.isTrivia = false)
    (havoids : Form.expressionParts.avoids k = true) : Declares (· == k) := by
  intro k' h
  rw [eq_of_beq h]
  exact ⟨htrivia, havoids⟩

theorem declares_modifier (m : Modifier) : Declares (· == m.val) := by
  obtain ⟨k, hk⟩ := m
  revert hk
  cases k
  all_goals first
    | exact fun _ => declares_eq rfl rfl
    | exact nofun

theorem declares_isMember : Declares Kind.isMember := by
  intro k
  cases k <;> decide

variable {p : Kind → Bool} {row : List Sketch} {ts : List Tree}

/-- What declares something is not found in an expression. -/
theorem Declares.not_mem (hp : Declares p) {vs : List Tree}
    (h : Form.Derives 0 .expressionParts (Tree.forestKinds vs)) {v : Tree} (hv : v ∈ vs) :
    p v.kind = false := by
  cases hk : p v.kind with
  | false => rfl
  | true =>
    obtain ⟨htrivia, havoids⟩ := hp v.kind hk
    exact absurd (Tree.mem_forestKinds.mpr ⟨⟨v, hv, rfl⟩, htrivia⟩)
      (Form.not_mem_of_avoids havoids h)

/-- An element fits a sketch. -/
def At (sk : Sketch) (s : Site) : Prop := Fits [sk] [s.tree]

/-- The nodes among some trees are those of their sketches. Where there is no expression among
them, this holds for every kind of node. -/
theorem Fits.nodes (h : Fits row ts) (hp : Sketch.value ∈ row → Declares p) :
    List.Forall₂ (fun sk t => Fits [sk] [t]) (row.filter (isNode p))
      (ts.filter fun t => !t.isToken && p t.kind) := by
  induction h with
  | nil => exact .nil
  | trivia _ _ ih => exact ih hp
  | leaf _ ih => exact ih fun hv => hp (List.mem_cons_of_mem _ hv)
  | node hinner _ _ ih =>
    exact forall₂_filter_cons rfl (.node hinner .nil) (ih fun hv => hp (List.mem_cons_of_mem _ hv))
  | block hwords _ ih =>
    exact forall₂_filter_cons rfl (.block hwords .nil) (ih fun hv => hp (List.mem_cons_of_mem _ hv))
  | @value row vs ts hparts _ ih =>
    have ih := ih fun hv => hp (List.mem_cons_of_mem _ hv)
    have hnone : vs.filter (fun t => !t.isToken && p t.kind) = [] := by
      refine List.filter_eq_nil_iff.mpr fun v hv => ?_
      simp [(hp List.mem_cons_self).not_mem hparts hv]
    rw [List.filter_append, hnone]
    exact ih

/-- The tokens among some trees are those of their sketches. -/
theorem Fits.leaves (h : Fits row ts) (hp : Declares p) :
    ts.filter (fun t => t.isToken && p t.kind) = (row.filterMap (leaf? p)).map .leaf := by
  induction h with
  | nil => rfl
  | @trivia t row ts ht _ ih =>
    have hk : p t.kind = false := by
      cases hk : p t.kind with
      | false => rfl
      | true => exact absurd ht (by simp [Token.isTrivia, (hp _ hk).1])
    rw [← ih, List.filter_cons_of_neg (by simp [Tree.kind, hk])]
  | @leaf t row ts _ ih =>
    have htest : ((Tree.leaf t).isToken && p (Tree.leaf t).kind) = p t.kind := rfl
    rw [List.filter_cons, htest, ih]
    cases hk : p t.kind <;> simp [leaf?, hk]
  | node _ _ _ ih => exact ih
  | block _ _ ih => exact ih
  | @value row vs ts hparts _ ih =>
    have hnone : vs.filter (fun t => t.isToken && p t.kind) = [] := by
      refine List.filter_eq_nil_iff.mpr fun v hv => ?_
      simp [hp.not_mem hparts hv]
    rw [List.filter_append, hnone]
    exact ih

theorem At.of_node {k : Kind} {s : Site} (h : (node k row).At s) :
    s.isNode k = true ∧ Fits row s.tree.children := by
  obtain ⟨t, start, above⟩ := s
  cases h with
  | trivia _ h => cases h
  | node hinner _ => exact ⟨beq_self_eq_true k, hinner⟩

theorem At.of_block {us : List Token} {s : Site} (h : (block us).At s) : s.words = us := by
  obtain ⟨t, start, above⟩ := s
  cases h with
  | trivia _ h => cases h
  | block hwords _ => exact hwords

end Sketch

/-! ## Rows of programs -/

namespace Sketch

variable {p : Kind → Bool}

@[simp] theorem isNode_sign (k : Kind) : (sign k).isNode p = false := rfl

@[simp] theorem isNode_name (x : String) : (name x).isNode p = p .name := rfl

@[simp] theorem isNode_reference (x : String) : (reference x).isNode p = p .reference := rfl

@[simp] theorem isNode_node (k : Kind) (row : List Sketch) : (node k row).isNode p = p k := rfl

@[simp] theorem isLeaf_sign (k : Kind) : (sign k).isLeaf p = p k := rfl

@[simp] theorem isLeaf_name (x : String) : (name x).isLeaf p = false := rfl

@[simp] theorem isLeaf_node (k : Kind) (row : List Sketch) : (node k row).isLeaf p = false := rfl

@[simp] theorem isLeaf_value : value.isLeaf p = false := rfl

@[simp] theorem filter_moreReferences (xs : List String) :
    (moreReferences xs).filter (isNode (· == .reference)) = xs.map reference := by
  induction xs with
  | nil => rfl
  | cons x xs ih => exact congrArg (reference x :: ·) ih

@[simp] theorem filter_modifiers (mods : List Modifier) :
    (modifiers mods).filter (isNode p) = [] := by
  refine List.filter_eq_nil_iff.mpr fun sk hsk => ?_
  obtain ⟨m, _, rfl⟩ := List.mem_map.mp hsk
  exact Bool.false_ne_true

@[simp] theorem any_modifiers (mods : List Modifier) :
    (modifiers mods).any (isLeaf p) = mods.any (p ·.val) := by
  simp [modifiers, Function.comp_def]

@[simp] theorem filter_extending (extended : Option String) :
    (extending extended).filter (isNode p) =
      if p .extendsClause then extending extended else [] := by
  cases extended <;> cases h : p .extendsClause <;> simp [extending, h]

@[simp] theorem any_extending (extended : Option String) :
    (extending extended).any (isLeaf p) = false := by
  cases extended <;> simp [extending]

@[simp] theorem filter_implementing (implemented : List String) :
    (implementing implemented).filter (isNode p) =
      if p .implementsClause then implementing implemented else [] := by
  cases implemented <;> cases h : p .implementsClause <;> simp [implementing, h]

@[simp] theorem any_implementing (implemented : List String) :
    (implementing implemented).any (isLeaf p) = false := by
  cases implemented <;> simp [implementing]

@[simp] theorem filter_initial (value : Option (List Token)) :
    (initial value).filter (isNode p) = [] := by
  cases value <;> rfl

@[simp] theorem any_initial (value : Option (List Token)) :
    (initial value).any (isLeaf p) = (value.isSome && p .eq) := by
  cases value with
  | none => rfl
  | some ts => simp [initial]

@[simp] theorem isNode_methodBody (body : Option (List Token)) :
    (methodBody body).isNode p = (body.isSome && p .block) := by
  cases body <;> rfl

@[simp] theorem isLeaf_methodBody (body : Option (List Token)) :
    (methodBody body).isLeaf p = (body.isNone && p .semicolon) := by
  cases body <;> rfl

end Sketch

theorem Modifier.any_eq_false {k : Kind} (hk : k.isModifier = false) (mods : List Modifier) :
    (mods.any fun m => m.val == k) = false := by
  refine List.any_eq_false.mpr fun m _ hm => ?_
  have hmod := m.property
  rw [eq_of_beq hm, hk] at hmod
  cases hmod

/-! ## Elements that fit a sketch -/

open Sketch (Fits Declares)

namespace Site

variable {s : Site} {row : List Sketch} {k : Kind} {p : Kind → Bool}

theorem map_tree_children (s : Site) : s.children.map tree = s.tree.children := map_tree_row _ _ _ _

theorem nodes_eq_nodesWhere (s : Site) (k : Kind) : s.nodes k = s.nodesWhere (· == k) := by
  refine List.filter_congr fun c _ => ?_
  rw [Bool.eq_iff_iff, isNode_iff]
  simp

/-- The nodes of an element are those that its sketch lists, in the same order. Nodes in expressions
do not get in the way if they fail the test. -/
theorem fits_nodesWhere (h : Fits row s.tree.children) (hp : Sketch.value ∈ row → Declares p) :
    List.Forall₂ Sketch.At (row.filter (Sketch.isNode p)) (s.nodesWhere p) := by
  have hnodes := h.nodes hp
  rw [← s.map_tree_children, List.filter_map, List.forall₂_map_right_iff] at hnodes
  exact hnodes

theorem fits_nodes (h : Fits row s.tree.children) (hp : Sketch.value ∈ row → Declares (· == k)) :
    List.Forall₂ Sketch.At (row.filter (Sketch.isNode (· == k))) (s.nodes k) := by
  rw [nodes_eq_nodesWhere]
  exact fits_nodesWhere h hp

/-- A node that a sketch has once is found. -/
theorem exists_node? (sk : Sketch) (h : Fits row s.tree.children)
    (hp : Sketch.value ∈ row → Declares (· == k))
    (hrow : row.filter (Sketch.isNode (· == k)) = [sk]) : ∃ c, s.node? k = some c ∧ sk.At c := by
  have hnodes := fits_nodes h hp
  rw [hrow] at hnodes
  rw [node?_eq_head?]
  cases hn : s.nodes k with
  | nil =>
    rw [hn] at hnodes
    cases hnodes
  | cons c cs =>
    rw [hn] at hnodes
    cases hnodes with
    | cons hc _ => exact ⟨c, rfl, hc⟩

theorem node?_eq_none (h : Fits row s.tree.children)
    (hp : Sketch.value ∈ row → Declares (· == k))
    (hrow : row.filter (Sketch.isNode (· == k)) = []) : s.node? k = none := by
  have hnodes := fits_nodes h hp
  rw [hrow] at hnodes
  rw [node?_eq_head?, List.forall₂_nil_left_iff.mp hnodes]
  rfl

theorem map_tree_token? (h : Fits row s.tree.children) (hp : Declares (· == k)) :
    (s.token? k).map tree = (row.filterMap (Sketch.leaf? (· == k))).head?.map .leaf := by
  have hleaves := h.leaves hp
  rw [← s.map_tree_children, List.filter_map] at hleaves
  rw [← List.head?_map, ← hleaves, List.head?_map, List.head?_filter]
  rfl

theorem isSome_token? (h : Fits row s.tree.children) (hp : Declares (· == k)) :
    (s.token? k).isSome = row.any (Sketch.isLeaf (· == k)) := by
  have htoken := congrArg Option.isSome (map_tree_token? h hp)
  rw [Option.isSome_map, Option.isSome_map, List.head?_filterMap, List.isSome_findSome?] at htoken
  simpa only [Sketch.isSome_leaf?] using htoken

/-- A node over one word spells this word. -/
theorem identifierText?_of_fits {x : String} (h : Fits [.leaf (Token.word x)] s.tree.children) :
    s.identifierText? = some x := by
  have htoken := map_tree_token? h (Sketch.declares_eq rfl rfl : Declares (· == .ident))
  obtain ⟨c, hc, htree⟩ := Option.map_eq_some_iff.mp htoken
  rw [identifierText?, identifier?, hc, Option.map_some, text, htree]
  simp [Tree.text, Tree.tokens, Token.word]

theorem name?_of_fits {x : String} (h : Fits row s.tree.children)
    (hrow : row.filter (Sketch.isNode (· == .name)) = [.name x]) : s.name? = some x := by
  obtain ⟨c, hc, hat⟩ := exists_node? _ h (fun _ => Sketch.declares_eq rfl rfl) hrow
  rw [name?, nameNode?, hc, Option.map_some, nameText, identifierText?_of_fits hat.of_node.2]
  rfl

theorem extends?_of_fits {extended : Option String} (h : Fits row s.tree.children)
    (hrow : row.filter (Sketch.isNode (· == .extendsClause)) = Sketch.extending extended) :
    s.extends?.map identifierText? = extended.map some := by
  cases extended with
  | none =>
    rw [extends?, node?_eq_none h (fun _ => Sketch.declares_eq rfl rfl) hrow]
    rfl
  | some x =>
    obtain ⟨c, hc, hat⟩ := exists_node? _ h (fun _ => Sketch.declares_eq rfl rfl) hrow
    obtain ⟨r, hr, href⟩ := exists_node? (k := .reference) _ hat.of_node.2
      (by simp [Sketch.sign, Sketch.reference]) rfl
    rw [extends?, hc, Option.bind_some, hr, Option.map_some,
      identifierText?_of_fits href.of_node.2]
    rfl

theorem map_identifierText?_of_references {xs : List String} {ss : List Site}
    (h : List.Forall₂ Sketch.At (xs.map Sketch.reference) ss) :
    ss.map identifierText? = xs.map some := by
  induction xs generalizing ss with
  | nil =>
    cases h
    rfl
  | cons x xs ih =>
    cases h with
    | cons hr hrs => rw [List.map_cons, List.map_cons, ih hrs, identifierText?_of_fits hr.of_node.2]

theorem implemented_of_fits {implemented : List String} (h : Fits row s.tree.children)
    (hrow : row.filter (Sketch.isNode (· == .implementsClause)) =
      Sketch.implementing implemented) :
    s.implemented.map identifierText? = implemented.map some := by
  cases implemented with
  | nil =>
    rw [Site.implemented, node?_eq_none h (fun _ => Sketch.declares_eq rfl rfl) hrow]
    rfl
  | cons x xs =>
    obtain ⟨c, hc, hat⟩ := exists_node? _ h (fun _ => Sketch.declares_eq rfl rfl) hrow
    have hrefs := fits_nodes (k := .reference) hat.of_node.2
      (by simp [Sketch.sign, Sketch.reference, Sketch.moreReferences])
    rw [Site.implemented, hc, Option.map_some, Option.getD_some]
    refine map_identifierText?_of_references ?_
    simpa using hrefs

theorem methodBody?_of_fits {body : Option (List Token)} (h : Fits row s.tree.children)
    (hrow : row.filter (Sketch.isNode (· == .block)) =
      if body.isSome then [Sketch.methodBody body] else []) :
    s.methodBody?.map words = body := by
  cases body with
  | none =>
    rw [methodBody?, node?_eq_none h (fun _ => Sketch.declares_eq rfl rfl) hrow]
    rfl
  | some us =>
    obtain ⟨c, hc, hat⟩ := exists_node? _ h (fun _ => Sketch.declares_eq rfl rfl) hrow
    rw [methodBody?, hc, Option.map_some, hat.of_block]

/-- The keywords before a declaration are its first children, and no other child is one. -/
theorem hasModifiers_of_fits {mods : List Modifier} {tail : List Sketch}
    (h : Fits (Sketch.modifiers mods ++ tail) s.tree.children)
    (htail : tail.any (Sketch.isLeaf Kind.isModifier) = false) : s.HasModifiers mods := by
  intro m
  have hrest : tail.any (Sketch.isLeaf (· == m.val)) = false := by
    rw [List.any_eq_false] at htail ⊢
    intro sk hsk hleaf
    refine htail sk hsk ?_
    cases sk with
    | leaf t =>
      rw [Sketch.isLeaf, eq_of_beq (show (t.kind == m.val) = true from hleaf)]
      exact m.property
    | _ => cases hleaf
  rw [isSome_token? h (Sketch.declares_modifier m), List.any_append, hrest, Bool.or_false,
    Sketch.any_modifiers, Bool.eq_iff_iff]
  simp [m.property]

end Site

/-! ## Types, parameters and members -/

@[simp] theorem TypeDef.filter_sketches {p : Kind → Bool} (t : TypeDef) :
    t.sketches.filter (Sketch.isNode p) = if p .typeTag then t.sketches else [] := by
  cases t <;> cases h : p .typeTag <;> simp [TypeDef.sketches, h]

@[simp] theorem TypeDef.any_sketches {p : Kind → Bool} (t : TypeDef) :
    t.sketches.any (Sketch.isLeaf p) = false := by
  cases t <;> simp [TypeDef.sketches]

theorem MemberDef.isNode_sketch (m : MemberDef) : m.sketch.isNode Kind.isMember = true := by
  cases m with
  | nested c =>
    obtain ⟨mods, isInterface, x, extended, implemented, ms⟩ := c
    simp [MemberDef.sketch, ClassDef.sketch, Kind.isMember]
  | method => simp [MemberDef.sketch, Kind.isMember]
  | field => simp [MemberDef.sketch, Kind.isMember]

theorem MemberDef.filter_sketches (ms : List MemberDef) :
    (MemberDef.sketches ms).filter (Sketch.isNode Kind.isMember) = MemberDef.sketches ms := by
  induction ms with
  | nil => rfl
  | cons m ms ih => rw [MemberDef.sketches, List.filter_cons_of_pos m.isNode_sketch, ih]

theorem Site.listedMembers_of_fits {ms : List MemberDef} {s : Site}
    (h : Fits (Sketch.braced (MemberDef.sketches ms)) s.tree.children) :
    List.Forall₂ Sketch.At (MemberDef.sketches ms) s.listedMembers := by
  have hmembers := fits_nodesWhere h fun _ => Sketch.declares_isMember
  rw [listedMembers]
  simpa [Sketch.braced, MemberDef.filter_sketches] using hmembers

theorem ParamDef.isNode_sketch (p : ParamDef) : p.sketch.isNode (· == .param) = true := by
  obtain ⟨x, type, value⟩ := p
  simp [ParamDef.sketch]

theorem ParamDef.filter_more (ps : List ParamDef) :
    (ParamDef.moreSketches ps).filter (Sketch.isNode (· == .param)) = ps.map ParamDef.sketch := by
  induction ps with
  | nil => rfl
  | cons p ps ih => simp [ParamDef.moreSketches, p.isNode_sketch, ih]

theorem ParamDef.filter_sketches (lastComma : Bool) (ps : List ParamDef) :
    (Sketch.sign .lParen :: (ParamDef.sketches lastComma ps ++ [Sketch.sign .rParen])).filter
      (Sketch.isNode (· == .param)) = ps.map ParamDef.sketch := by
  cases ps with
  | nil => rfl
  | cons p ps => cases lastComma <;> simp [ParamDef.sketches, p.isNode_sketch, ParamDef.filter_more]

/-! ## Programs are read back -/

mutual

/-- At the tree of a class, the accessors give the class back; by induction on the program, together
with its members, their parameters and types. -/
theorem ClassDef.readAt (c : ClassDef) {s : Site} (h : c.sketch.At s) : c.ReadAt s := by
  obtain ⟨mods, isInterface, x, extended, implemented, ms⟩ := c
  rw [ClassDef.sketch] at h
  obtain ⟨hnode, hfits⟩ := h.of_node
  obtain ⟨body, hbody, hat⟩ := Site.exists_node? (k := .classBody)
    (.node .classBody (Sketch.braced (MemberDef.sketches ms))) hfits
    (fun _ => Sketch.declares_eq rfl rfl) (by simp)
  have hmembers := MemberDef.readAt_list ms (Site.listedMembers_of_fits hat.of_node.2)
  refine .mk hnode (Site.hasModifiers_of_fits hfits ?_) (Site.name?_of_fits hfits ?_) ?_
    (Site.extends?_of_fits hfits ?_) (Site.implemented_of_fits hfits ?_) ?_ ?_
  · cases isInterface <;> simp [Kind.classKeyword, Kind.isModifier]
  · simp
  · rw [Site.isInterface, Site.isSome_token? hfits (Sketch.declares_eq rfl rfl), List.any_append,
      Sketch.any_modifiers, Modifier.any_eq_false rfl, Bool.false_or]
    cases isInterface <;> simp [Kind.classKeyword]
  · simp
  · simp
  · rw [Site.classBody?, hbody]
    rfl
  · rw [Site.members, (Site.isNode_iff.mp hnode).2, Site.classBody?, hbody]
    exact hmembers

theorem MemberDef.readAt (m : MemberDef) {s : Site} (h : m.sketch.At s) : m.ReadAt s := by
  cases m with
  | nested c => exact .nested (c.readAt h)
  | method mods x ps lastComma type body =>
    rw [MemberDef.sketch] at h
    obtain ⟨hnode, hfits⟩ := h.of_node
    obtain ⟨list, hlist, hat⟩ := Site.exists_node? (k := .paramList)
      (.node .paramList (.sign .lParen :: (ParamDef.sketches lastComma ps ++ [.sign .rParen])))
      hfits (fun _ => Sketch.declares_eq rfl rfl) (by simp)
    have hparams := Site.fits_nodes (k := .param) hat.of_node.2
      fun _ => Sketch.declares_eq rfl rfl
    rw [ParamDef.filter_sketches] at hparams
    have hmods : s.HasModifiers mods :=
      Site.hasModifiers_of_fits hfits (by simp [Kind.isModifier])
    refine .method hnode hmods (hmods ⟨.staticKw, rfl⟩) (Site.name?_of_fits hfits ?_) ?_
      (type.readAt hfits ?_) (Site.methodBody?_of_fits hfits ?_)
    · simp
    · rw [Site.params, hlist]
      exact ParamDef.readAt_list ps hparams
    · simp
    · cases body <;> simp
  | field mods x type value =>
    rw [MemberDef.sketch] at h
    obtain ⟨hnode, hfits⟩ := h.of_node
    refine .field hnode (Site.hasModifiers_of_fits hfits ?_) (Site.name?_of_fits hfits ?_)
      (type.readAt hfits ?_)
    · simp [Kind.isModifier]
    · simp
    · simp

theorem MemberDef.readAt_list (ms : List MemberDef) {ss : List Site}
    (h : List.Forall₂ Sketch.At (MemberDef.sketches ms) ss) :
    List.Forall₂ MemberDef.ReadAt ms ss := by
  cases ms with
  | nil =>
    cases h
    exact .nil
  | cons m ms =>
    cases h with
    | cons hm hms => exact .cons (m.readAt hm) (MemberDef.readAt_list ms hms)

theorem ParamDef.readAt (p : ParamDef) {s : Site} (h : p.sketch.At s) : p.ReadAt s := by
  obtain ⟨x, type, value⟩ := p
  rw [ParamDef.sketch] at h
  obtain ⟨hnode, hfits⟩ := h.of_node
  exact .mk hnode (Site.name?_of_fits hfits (by simp)) (type.readAt hfits (by simp))

theorem ParamDef.readAt_list (ps : List ParamDef) {ss : List Site}
    (h : List.Forall₂ Sketch.At (ps.map ParamDef.sketch) ss) :
    List.Forall₂ ParamDef.ReadAt ps ss := by
  cases ps with
  | nil =>
    cases h
    exact .nil
  | cons p ps =>
    cases h with
    | cons hp hps => exact .cons (p.readAt hp) (ParamDef.readAt_list ps hps)

/-- A type tag gives its type back, and a missing one that there is none. -/
theorem TypeDef.readAt (t : TypeDef) {s : Site} {row : List Sketch}
    (h : Fits row s.tree.children)
    (hrow : row.filter (Sketch.isNode (· == .typeTag)) = t.sketches) : t.ReadAt s.typeTag? := by
  rw [Site.typeTag?]
  cases t with
  | omitted =>
    rw [Site.node?_eq_none h (fun _ => Sketch.declares_eq rfl rfl) hrow]
    exact .omitted
  | named x =>
    obtain ⟨tag, htag, hat⟩ := Site.exists_node? _ h (fun _ => Sketch.declares_eq rfl rfl) hrow
    obtain ⟨r, hr, href⟩ := Site.exists_node? (k := .reference) _ hat.of_node.2
      (by simp [Sketch.sign, Sketch.reference]) rfl
    rw [htag]
    refine .named ?_ (Site.node?_eq_none hat.of_node.2 ?_ rfl)
    · rw [Site.typeReference?, hr, Option.map_some, Site.identifierText?_of_fits href.of_node.2]
    · exact fun _ => Sketch.declares_eq rfl rfl
  | structured ms =>
    obtain ⟨tag, htag, hat⟩ := Site.exists_node? _ h (fun _ => Sketch.declares_eq rfl rfl) hrow
    obtain ⟨body, hbody, hstructure⟩ := Site.exists_node? (k := .anonymousType) _ hat.of_node.2
      (fun _ => Sketch.declares_eq rfl rfl) rfl
    obtain ⟨hnode, hfits⟩ := hstructure.of_node
    rw [htag]
    refine .structured (Site.node?_eq_none hat.of_node.2 ?_ rfl) hbody ?_
    · simp [Sketch.sign]
    · rw [Site.members, if_pos (Site.isNode_iff.mp hnode).2]
      exact MemberDef.readAt_list ms (Site.listedMembers_of_fits hfits)

end

/-- The tree of a file over the tokens of some classes is read back as these classes. -/
theorem Sketch.Fits.readAt {cs : List ClassDef} {s : Site}
    (h : Fits (cs.map ClassDef.sketch) s.tree.children) :
    List.Forall₂ ClassDef.ReadAt cs s.classes := by
  have hnodes := Site.fits_nodes (k := .classDecl) h fun _ => Sketch.declares_eq rfl rfl
  have hrow : (cs.map ClassDef.sketch).filter (Sketch.isNode (· == .classDecl)) =
      cs.map ClassDef.sketch := by
    refine List.filter_eq_self.mpr fun sk hsk => ?_
    obtain ⟨c, _, rfl⟩ := List.mem_map.mp hsk
    obtain ⟨mods, isInterface, x, extended, implemented, ms⟩ := c
    simp [ClassDef.sketch]
  rw [hrow, List.forall₂_map_left_iff] at hnodes
  exact hnodes.imp fun c s => c.readAt

theorem Writes.builds {text : String} {program : List ClassDef} (h : Writes text program) :
    (Rule.file.run (Construct.parse maxDepth) ⟨0, Token.scan text⟩).Builds
      (program.map ClassDef.sketch) [] :=
  builds_file h.1 ⟨0, Token.scan text⟩ h.2

/-- A text without problems writes some program. -/
theorem exists_writes {text : String} (h : (parse text).problems = []) :
    ∃ program, Writes text program := by
  have hderives := (problems_parseTokens_eq_nil_iff fun _ => Token.kind_ne_eof_of_mem_scan).mp h
  have hspelled : ∀ t ∈ Token.words (Token.scan text), t.Spelled :=
    fun t ht => Token.spelled_of_mem_scan (List.mem_filter.mp ht).1
  obtain ⟨program, hdepth, hwords⟩ := exists_program_of_derives hspelled hderives
  exact ⟨program, hdepth, hwords.symm⟩

/-- Programs and texts. A text has no problems exactly if it writes some program. Whatever program
it writes, and whatever blanks and comments are between its tokens, reading its tree gives the
program back: the same classes with the same members, in the same order and at the same depth, and
all names, flags and types as they were given. -/
theorem outline_parse (text : String) :
    ((parse text).problems = [] ↔ ∃ program, Writes text program) ∧
      ∀ program, Writes text program →
        List.Forall₂ ClassDef.ReadAt program (Site.root (parse text).tree).classes := by
  refine ⟨⟨exists_writes, fun ⟨_, h⟩ => h.builds.clean⟩, fun program h => ?_⟩
  exact Sketch.Fits.readAt (s := Site.root (parse text).tree) h.builds.fits

theorem outline_parse_of_structure :
    List.Forall₂ ClassDef.ReadAt
      [.mk [⟨.publicKw, rfl⟩] false "A" (some "B") ["I", "J"] [
        .nested (.mk [] true "C" none [] []),
        .method [⟨.staticKw, rfl⟩] "f"
          [.mk "x" (.structured [.field [] "y" (.named "T") none]) none] true (.named "R")
          (some [.sign .lBrace, .sign .rBrace]),
        .field [] "z" .omitted (some [⟨.number, "1"⟩])]]
      (Site.root (parse "public class A extends B implements I, J { interface C {} // empty
        static function f(x : { var y : T; },) : R {} var z = 1; }").tree).classes := by
  have hblock : Form.Derives 255 (.nested .block) ([.lBrace] ++ ([] ++ [.rBrace])) :=
    .nested (.seq (.one rfl) (.seq .manyNil (.one rfl)))
  have hnumber : Form.Derives 255 .expr (([] ++ ([.number] ++ [])) ++ []) :=
    .nested (.seq (.seq .manyNil (.seq (.altRight (.altLeft (.one rfl))) .manyNil)) .manyNil)
  refine (outline_parse _).2 _ ⟨fun c hc => ?_, by decide +kernel⟩
  obtain rfl := List.mem_singleton.mp hc
  refine ⟨255, rfl, ⟨254, rfl, trivial⟩, ⟨⟨⟨⟨254, rfl, ?_⟩, ?_⟩, trivial⟩, trivial, ?_⟩, ?_,
    trivial⟩
  · exact ⟨⟨trivial, fun _ => nofun⟩, trivial⟩
  · exact fun _ => nofun
  · rintro _ ⟨⟩
    exact hblock
  · refine ⟨trivial, ?_⟩
    rintro _ ⟨⟩
    exact hnumber

end ClassNav
