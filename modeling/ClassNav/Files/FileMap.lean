import ClassNav.Keyed
import ClassNav.Text.Position

/-!
# Maps from files

A `FileMap` holds at most one value for each file, in ascending order of files. Two maps with the
same values are equal (`FileMap.ext_get?`), whatever was done to make them.
-/

namespace ClassNav

/-- Values by file, in ascending order. -/
structure FileMap (β : Type) where
  entries : List (FileId × β)
  ascending : entries.Pairwise fun a b => a.1 < b.1

namespace FileMap

variable {β : Type}

def empty : FileMap β := ⟨[], .nil⟩

instance : Inhabited (FileMap β) := ⟨empty⟩

/-! ## Operations on entries -/

/-- The entries without those of a file. -/
def without (f : FileId) (es : List (FileId × β)) : List (FileId × β) :=
  es.filter fun e => e.1 ≠ f

/-- The entries with one more, at its place in the order. -/
def place (f : FileId) (b : β) (es : List (FileId × β)) : List (FileId × β) :=
  es.filter (·.1 < f) ++ (f, b) :: es.filter (f < ·.1)

theorem pairwise_without (f : FileId) {es : List (FileId × β)}
    (h : es.Pairwise fun a b => a.1 < b.1) : (without f es).Pairwise fun a b => a.1 < b.1 :=
  h.filter _

theorem pairwise_place (f : FileId) (b : β) {es : List (FileId × β)}
    (h : es.Pairwise fun a b => a.1 < b.1) : (place f b es).Pairwise fun a b => a.1 < b.1 := by
  refine List.pairwise_append.mpr ⟨h.filter _, List.pairwise_cons.mpr ⟨?_, h.filter _⟩, ?_⟩
  · intro e he
    simpa using (List.mem_filter.mp he).2
  · intro a ha e he
    have ha' : a.1 < f := by simpa using (List.mem_filter.mp ha).2
    rcases List.mem_cons.mp he with rfl | he
    · exact ha'
    · have he' : f < e.1 := by simpa using (List.mem_filter.mp he).2
      exact Nat.lt_trans ha' he'

/-! ## Operations on maps -/

def get? (m : FileMap β) (f : FileId) : Option β := m.entries.lookup f

def insert (m : FileMap β) (f : FileId) (b : β) : FileMap β :=
  ⟨place f b m.entries, pairwise_place f b m.ascending⟩

def erase (m : FileMap β) (f : FileId) : FileMap β :=
  ⟨without f m.entries, pairwise_without f m.ascending⟩

/-- The files with a value, in ascending order. -/
def files (m : FileMap β) : List FileId := m.entries.map (·.1)

/-! ## What the operations do to the values -/

theorem get?_empty (f : FileId) : (empty : FileMap β).get? f = none := rfl

theorem get?_insert (m : FileMap β) (f g : FileId) (b : β) :
    (m.insert f b).get? g = if f = g then some b else m.get? g := by
  show (place f b m.entries).lookup g = _
  rw [place, List.lookup_append, Keyed.lookup_cons, Keyed.lookup_filter (· < f),
    Keyed.lookup_filter (f < ·)]
  by_cases h : f = g
  · have hlt : ¬ g < f := h ▸ Nat.lt_irrefl g.index
    rw [if_pos h, if_pos h, if_neg (by simpa using hlt), Option.none_or]
  · rw [if_neg h, if_neg h]
    rcases Nat.lt_or_gt_of_ne fun heq => h (FileId.ext_index heq) with hlt | hgt
    · have hnot : ¬ g < f := Nat.lt_asymm hlt
      rw [if_neg (by simpa using hnot), if_pos (decide_eq_true (FileId.lt_iff.mpr hlt)),
        Option.none_or]
      rfl
    · have hnot : ¬ f < g := Nat.lt_asymm hgt
      rw [if_pos (decide_eq_true (FileId.lt_iff.mpr hgt)), if_neg (by simpa using hnot),
        Option.or_none]
      rfl

theorem get?_erase (m : FileMap β) (f g : FileId) :
    (m.erase f).get? g = if f = g then none else m.get? g := by
  show (without f m.entries).lookup g = _
  rw [without, Keyed.lookup_filter (· ≠ f)]
  by_cases h : f = g
  · rw [if_pos h, if_neg (by simp [h])]
  · rw [if_neg h, if_pos (by simpa using Ne.symm h)]
    rfl

theorem keys_ne (m : FileMap β) : m.entries.Pairwise fun a b => a.1 ≠ b.1 :=
  m.ascending.imp FileId.ne_of_lt

/-- The order of the entries leaves one entry for each file. -/
theorem get?_eq_some_iff {m : FileMap β} {f : FileId} {b : β} :
    m.get? f = some b ↔ (f, b) ∈ m.entries :=
  Keyed.lookup_eq_some_iff m.keys_ne

/-! ## Equality -/

/-- Maps with the same values are equal, whatever was done to make them: entries in ascending order
are known by their members. -/
theorem ext_get? {m n : FileMap β} (h : ∀ f, m.get? f = n.get? f) : m = n := by
  have hnodup : ∀ m : FileMap β, m.entries.Nodup := fun m =>
    m.keys_ne.imp fun hne heq => hne (congrArg Prod.fst heq)
  have hmem : ∀ e, e ∈ m.entries ↔ e ∈ n.entries := fun e => by
    rw [← get?_eq_some_iff, ← get?_eq_some_iff, h]
  have hperm : m.entries.Perm n.entries :=
    (List.perm_ext_iff_of_nodup (hnodup m) (hnodup n)).mpr hmem
  have heq : m.entries = n.entries :=
    hperm.eq_of_pairwise (fun _ _ _ _ hab hba => absurd hab (Nat.lt_asymm hba)) m.ascending
      n.ascending
  obtain ⟨es, hes⟩ := m
  obtain ⟨ds, hds⟩ := n
  obtain rfl : es = ds := heq
  rfl

end FileMap

end ClassNav
