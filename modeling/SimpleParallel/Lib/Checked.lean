import Mathlib.Data.Nat.Notation

/-!
# Arithmetic that does not wrap

`checkedAdd` and `checkedSub` are the operations of an unsigned machine word that
give nothing instead of wrapping. Code that runs on them as it runs on the plain
operations has not wrapped.
-/

namespace SimpleParallel

/-- `a + b`, unless it wraps. -/
def checkedAdd (a b : UInt64) : Option UInt64 :=
  if a.toNat + b.toNat < UInt64.size then some (a + b) else none

/-- `a - b`, unless it wraps. -/
def checkedSub (a b : UInt64) : Option UInt64 :=
  if b ≤ a then some (a - b) else none

variable {a b c : UInt64}

theorem checkedAdd_of_lt (h : a.toNat + b.toNat < UInt64.size) : checkedAdd a b = some (a + b) :=
  if_pos h

theorem checkedSub_of_le (h : b ≤ a) : checkedSub a b = some (a - b) :=
  if_pos h

theorem checkedSub_eq_none (h : a < b) : checkedSub a b = none :=
  if_neg (UInt64.not_le.mpr h)

theorem toNat_add_of_lt (h : a.toNat + b.toNat < UInt64.size) :
    (a + b).toNat = a.toNat + b.toNat := by
  rw [UInt64.toNat_add]
  exact Nat.mod_eq_of_lt h

end SimpleParallel
