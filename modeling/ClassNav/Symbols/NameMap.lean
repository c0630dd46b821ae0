import ClassNav.Keyed

/-!
# Maps from names

A `NameMap` holds at most one value for each name. The order of its entries says nothing: they stand
as they came.
-/

namespace ClassNav

/-- Values by name, none of them twice. -/
structure NameMap (β : Type) where
  entries : List (String × β)
  distinct : entries.Pairwise fun a b => a.1 ≠ b.1

namespace NameMap

variable {β : Type}

def empty : NameMap β := ⟨[], .nil⟩

instance : Inhabited (NameMap β) := ⟨empty⟩

/-! ## Operations on entries -/

/-- The entries with a value for a name that is made of the one it had, if it had one. -/
def renew (x : String) (g : Option β → β) : List (String × β) → List (String × β)
  | [] => [(x, g none)]
  | e :: es => if e.1 = x then (x, g (some e.2)) :: es else e :: renew x g es

/-- The entries whose values can be changed as asked. -/
def retained (g : β → Option β) (es : List (String × β)) : List (String × β) :=
  es.filterMap fun e => (g e.2).map (e.1, ·)

theorem name_of_mem_renew {x : String} {g : Option β → β} {es : List (String × β)}
    {e : String × β} (h : e ∈ renew x g es) : e.1 = x ∨ ∃ d ∈ es, d.1 = e.1 := by
  induction es with
  | nil =>
    rw [renew, List.mem_singleton] at h
    exact .inl (by rw [h])
  | cons d es ih =>
    rw [renew] at h
    split at h
    · rcases List.mem_cons.mp h with rfl | h
      · exact .inl rfl
      · exact .inr ⟨e, List.mem_cons_of_mem _ h, rfl⟩
    · rcases List.mem_cons.mp h with rfl | h
      · exact .inr ⟨e, List.mem_cons_self, rfl⟩
      · exact (ih h).imp_right fun ⟨d', hd', heq⟩ => ⟨d', List.mem_cons_of_mem _ hd', heq⟩

theorem pairwise_renew (x : String) (g : Option β → β) {es : List (String × β)}
    (h : es.Pairwise fun a b => a.1 ≠ b.1) : (renew x g es).Pairwise fun a b => a.1 ≠ b.1 := by
  induction es with
  | nil => exact List.pairwise_singleton _ _
  | cons e es ih =>
    obtain ⟨hfirst, hes⟩ := List.pairwise_cons.mp h
    rw [renew]
    split
    · next hx => exact List.pairwise_cons.mpr ⟨fun d hd => hx ▸ hfirst d hd, hes⟩
    · next hx =>
      refine List.pairwise_cons.mpr ⟨fun d hd => ?_, ih hes⟩
      rcases name_of_mem_renew hd with heq | ⟨d', hd', heq⟩
      · exact heq ▸ hx
      · exact heq ▸ hfirst d' hd'

theorem pairwise_retained (g : β → Option β) {es : List (String × β)}
    (h : es.Pairwise fun a b => a.1 ≠ b.1) : (retained g es).Pairwise fun a b => a.1 ≠ b.1 := by
  refine List.pairwise_filterMap.mpr (h.imp fun hne a ha b hb => ?_)
  obtain ⟨_, _, rfl⟩ := Option.map_eq_some_iff.mp ha
  obtain ⟨_, _, rfl⟩ := Option.map_eq_some_iff.mp hb
  exact hne

/-! ## Operations on maps -/

def get? (m : NameMap β) (x : String) : Option β := m.entries.lookup x

/-- The map with a value for a name that is made of the one it had, if it had one. -/
def update (m : NameMap β) (x : String) (g : Option β → β) : NameMap β :=
  ⟨renew x g m.entries, pairwise_renew x g m.distinct⟩

/-- The map with every value changed, or left out if it cannot be changed. -/
def retain (m : NameMap β) (g : β → Option β) : NameMap β :=
  ⟨retained g m.entries, pairwise_retained g m.distinct⟩

/-! ## What the operations do to the values -/

theorem get?_eq_some_iff {m : NameMap β} {x : String} {b : β} :
    m.get? x = some b ↔ (x, b) ∈ m.entries :=
  Keyed.lookup_eq_some_iff m.distinct

theorem lookup_renew (x y : String) (g : Option β → β) (es : List (String × β)) :
    (renew x g es).lookup y = if x = y then some (g (es.lookup x)) else es.lookup y := by
  induction es with
  | nil =>
    rw [renew, Keyed.lookup_cons]
    rfl
  | cons e es ih =>
    by_cases hx : e.1 = x
    · rw [renew, if_pos hx, Keyed.lookup_cons, Keyed.lookup_cons, Keyed.lookup_cons, if_pos hx, hx]
      by_cases hy : x = y
      · rw [if_pos hy, if_pos hy]
      · rw [if_neg hy, if_neg hy, if_neg hy]
    · rw [renew, if_neg hx, Keyed.lookup_cons, Keyed.lookup_cons, Keyed.lookup_cons, ih, if_neg hx]
      by_cases hy : x = y
      · rw [if_pos hy, if_pos hy, if_neg (hy ▸ hx)]
      · rw [if_neg hy, if_neg hy]

theorem get?_update (m : NameMap β) (x y : String) (g : Option β → β) :
    (m.update x g).get? y = if x = y then some (g (m.get? x)) else m.get? y :=
  lookup_renew x y g m.entries

theorem get?_retain (m : NameMap β) (x : String) (g : β → Option β) :
    (m.retain g).get? x = (m.get? x).bind g := by
  refine Option.ext fun b => ?_
  rw [get?_eq_some_iff, Option.bind_eq_some_iff]
  simp only [get?_eq_some_iff]
  constructor
  · intro h
    obtain ⟨⟨y, a⟩, hmem, hb⟩ := List.mem_filterMap.mp h
    obtain ⟨c, hc, heq⟩ := Option.map_eq_some_iff.mp hb
    cases heq
    exact ⟨a, hmem, hc⟩
  · rintro ⟨a, hmem, hb⟩
    exact List.mem_filterMap.mpr ⟨(x, a), hmem, by rw [hb]; rfl⟩

end NameMap

end ClassNav
