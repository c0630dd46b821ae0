/-!
# Values by key

Facts about `List.lookup` that the maps from files and the maps from names share. As long as no key
stands twice, what is found for a key is what stands with it (`Keyed.lookup_eq_some_iff`).
-/

namespace ClassNav.Keyed

variable {α β : Type} [DecidableEq α] {k : α} {b : β} {es : List (α × β)}

theorem lookup_cons (k : α) (e : α × β) (es : List (α × β)) :
    (e :: es).lookup k = if e.1 = k then some e.2 else es.lookup k := by
  rw [List.lookup_cons]
  by_cases h : e.1 = k
  · rw [if_pos h, beq_iff_eq.mpr h.symm]
  · rw [if_neg h, beq_false_of_ne (Ne.symm h)]

/-- A test on keys decides for each key whether everything is found or nothing. -/
theorem lookup_filter (p : α → Bool) (k : α) (es : List (α × β)) :
    (es.filter (p ·.1)).lookup k = if p k then es.lookup k else none := by
  induction es with
  | nil => cases p k <;> rfl
  | cons e es ih =>
    rw [List.filter_cons, lookup_cons]
    by_cases h : e.1 = k
    · rw [if_pos h, h]
      cases hp : p k with
      | true => rw [if_pos rfl, if_pos rfl, lookup_cons, if_pos h]
      | false =>
        rw [if_neg Bool.false_ne_true, ih, hp]
        rfl
    · rw [if_neg h, ← ih]
      split
      · rw [lookup_cons, if_neg h]
      · rfl

/-- Where no key stands twice, a value is found for a key if it stands with it. -/
theorem lookup_eq_some_iff (h : es.Pairwise fun a b => a.1 ≠ b.1) :
    es.lookup k = some b ↔ (k, b) ∈ es := by
  induction es with
  | nil => simp
  | cons e es ih =>
    obtain ⟨hfirst, hes⟩ := List.pairwise_cons.mp h
    rw [lookup_cons, List.mem_cons]
    by_cases hk : e.1 = k
    · have hlater : (k, b) ∉ es := fun hmem => hfirst (k, b) hmem hk
      rw [if_pos hk, Option.some_inj, or_iff_left hlater, Prod.ext_iff]
      simp only [hk, true_and, eq_comm]
    · have hnot : (k, b) ≠ e := fun heq => hk (heq ▸ rfl)
      rw [if_neg hk, ih hes, or_iff_right hnot]

end ClassNav.Keyed
