-- Numbers that stop at a ceiling: a sum that would pass the ceiling is the
-- ceiling. Costs and widths are such numbers, so no sum of them ever wraps.

namespace LineBreak

/-- A natural number no greater than `ceiling`. -/
@[ext]
structure Capped (ceiling : Nat) where
  val : Nat
  val_le : val ≤ ceiling
  deriving DecidableEq

namespace Capped

variable {ceiling : Nat}

/-- The number itself, or the ceiling if the number is greater. -/
def ofNat (ceiling n : Nat) : Capped ceiling := ⟨min n ceiling, Nat.min_le_right n ceiling⟩

/-- The number itself, unless it is greater than the ceiling. -/
def ofNat? (ceiling n : Nat) : Option (Capped ceiling) :=
  if h : n ≤ ceiling then some ⟨n, h⟩ else none

/-- The same number under another ceiling. -/
def recap (other : Nat) (a : Capped ceiling) : Capped other := ofNat other a.val

instance (n : Nat) : OfNat (Capped ceiling) n := ⟨ofNat ceiling n⟩

/-- Addition stops at the ceiling. -/
instance : Add (Capped ceiling) := ⟨fun a b => ofNat ceiling (a.val + b.val)⟩

instance : LE (Capped ceiling) := ⟨fun a b => a.val ≤ b.val⟩

instance : LT (Capped ceiling) := ⟨fun a b => a.val < b.val⟩

instance (a b : Capped ceiling) : Decidable (a ≤ b) := inferInstanceAs (Decidable (a.val ≤ b.val))

instance (a b : Capped ceiling) : Decidable (a < b) := inferInstanceAs (Decidable (a.val < b.val))

instance : Max (Capped ceiling) := ⟨fun a b => if a ≤ b then b else a⟩

instance : Ord (Capped ceiling) := ⟨compareOn Capped.val⟩

instance : Std.TransOrd (Capped ceiling) :=
  inferInstanceAs (Std.TransCmp (compareOn Capped.val))

instance : Std.LawfulEqOrd (Capped ceiling) where
  eq_of_compare h := Capped.ext (Nat.compare_eq_eq.mp h)

/-! ## Through the number itself -/

@[simp]
theorem val_ofNat (n : Nat) : (ofNat ceiling n).val = min n ceiling := rfl

@[simp]
theorem val_zero : (0 : Capped ceiling).val = 0 := Nat.zero_min ceiling

@[simp]
theorem val_add (a b : Capped ceiling) : (a + b).val = min (a.val + b.val) ceiling := rfl

@[simp]
theorem val_recap (other : Nat) (a : Capped ceiling) : (a.recap other).val = min a.val other := rfl

theorem le_iff {a b : Capped ceiling} : a ≤ b ↔ a.val ≤ b.val := Iff.rfl

theorem lt_iff {a b : Capped ceiling} : a < b ↔ a.val < b.val := Iff.rfl

@[simp]
theorem val_max (a b : Capped ceiling) : (max a b).val = max a.val b.val := by
  show (if a ≤ b then b else a).val = max a.val b.val
  by_cases h : a ≤ b
  · simp [h, Nat.max_eq_right (le_iff.mp h)]
  · simp [h, Nat.max_eq_left (Nat.le_of_not_le h)]

theorem le_add_right (a b : Capped ceiling) : a ≤ a + b :=
  Nat.le_min.mpr ⟨Nat.le_add_right _ _, a.val_le⟩

theorem add_le_add {a b c d : Capped ceiling} (h : a ≤ b) (h' : c ≤ d) : a + c ≤ b + d := by
  have := le_iff.mp h
  have := le_iff.mp h'
  rw [le_iff, val_add, val_add]
  omega

end Capped

/-- What a layout costs; the greatest cost is `2 ^ 64 - 1`. -/
abbrev Cost := Capped 18446744073709551615

/-- A number of columns; the greatest is `2 ^ 32 - 1`. -/
abbrev Width := Capped 4294967295

end LineBreak
