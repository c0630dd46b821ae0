/-!
# Files and positions

Files are known by number. A caret is a byte in a file.
-/

namespace ClassNav

/-- The number of a file. -/
structure FileId where
  index : Nat
deriving DecidableEq, Repr, Inhabited

namespace FileId

instance : LT FileId := ⟨fun a b => a.index < b.index⟩

instance : LE FileId := ⟨fun a b => a.index ≤ b.index⟩

instance (a b : FileId) : Decidable (a < b) := inferInstanceAs (Decidable (a.index < b.index))

instance (a b : FileId) : Decidable (a ≤ b) := inferInstanceAs (Decidable (a.index ≤ b.index))

theorem lt_iff {a b : FileId} : a < b ↔ a.index < b.index := Iff.rfl

theorem ext_index {a b : FileId} (h : a.index = b.index) : a = b := by
  cases a; cases b; simp_all

theorem ne_of_lt {a b : FileId} (h : a < b) : a ≠ b := fun heq => Nat.lt_irrefl _ (heq ▸ h)

def display (f : FileId) : String := "file#" ++ toString f.index

end FileId

/-- A caret: a file and a byte in it. -/
structure FilePosition where
  file : FileId
  offset : Nat
deriving DecidableEq, Repr, Inhabited

namespace FilePosition

def display (p : FilePosition) : String := p.file.display ++ "@" ++ toString p.offset

end FilePosition

end ClassNav
