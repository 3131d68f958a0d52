import Mathlib.Algebra.Group.Nat.Defs

/-!
# Byte memories

A memory maps addresses to bytes. Its operations copy or fill a half-open
range of addresses; the lemmas say what a read after them gives, and that an
operation on two adjoining ranges is one operation on their union. A number of
`n` bytes is read and written in little-endian order (`load`, `store`).
-/

/-- A memory: a byte at every address. -/
abbrev Mem := Nat → UInt8

namespace Mem

variable {src dst m : Mem} {a n k x : Nat} {v : UInt8}

/-- `dst` with the bytes of `src` on `[a, a + n)`. -/
def copyRange (src : Mem) (a n : Nat) (dst : Mem) : Mem := fun x =>
  if a ≤ x ∧ x < a + n then src x else dst x

/-- `m` with the byte `v` on `[a, a + n)`. -/
def fillRange (v : UInt8) (a n : Nat) (m : Mem) : Mem := fun x =>
  if a ≤ x ∧ x < a + n then v else m x

theorem copyRange_in (h : a ≤ x ∧ x < a + n) : copyRange src a n dst x = src x := if_pos h

theorem copyRange_out (h : ¬ (a ≤ x ∧ x < a + n)) : copyRange src a n dst x = dst x := if_neg h

theorem fillRange_in (h : a ≤ x ∧ x < a + n) : fillRange v a n m x = v := if_pos h

theorem fillRange_out (h : ¬ (a ≤ x ∧ x < a + n)) : fillRange v a n m x = m x := if_neg h

@[simp] theorem copyRange_zero : copyRange src a 0 dst = dst :=
  funext fun _ => copyRange_out (by omega)

/-- Two adjoining copies are one. -/
theorem copyRange_append :
    copyRange src (a + n) k (copyRange src a n dst) = copyRange src a (n + k) dst := by
  funext x
  unfold copyRange
  by_cases h1 : a + n ≤ x ∧ x < a + n + k
  · rw [if_pos h1, if_pos (by omega)]
  · rw [if_neg h1]
    by_cases h2 : a ≤ x ∧ x < a + n
    · rw [if_pos h2, if_pos (by omega)]
    · rw [if_neg h2, if_neg (by omega)]

/-- A copy from a memory that agrees with the target changes nothing. -/
theorem copyRange_eq (h : src x = dst x) : copyRange src a n dst x = dst x := by
  unfold copyRange
  split
  · exact h
  · rfl

/-! ## Little-endian numbers -/

/-- The number whose `n` bytes start at `a`. -/
def load (m : Mem) (a : Nat) : Nat → Nat
  | 0 => 0
  | n + 1 => (m a).toNat + 256 * load m (a + 1) n

/-- Byte `i` of a number. -/
def byteAt (k i : Nat) : UInt8 := UInt8.ofNat (k / 256 ^ i)

/-- Writes `k` into the `n` bytes from `a` on. -/
def store (k a n : Nat) (m : Mem) : Mem := fun x =>
  if a ≤ x ∧ x < a + n then byteAt k (x - a) else m x

theorem load_lt (m : Mem) (a n : Nat) : load m a n < 256 ^ n := by
  induction n generalizing a with
  | zero => simp [load]
  | succ n ih =>
    have hb := (m a).toNat_lt
    have hrest := ih (a + 1)
    rw [load, Nat.pow_succ]
    omega

/-- A number whose last byte is 0 is that much smaller. -/
theorem load_lt_of_zero (h : m (a + n) = 0) : load m a (n + 1) < 256 ^ n := by
  induction n generalizing a with
  | zero =>
    rw [Nat.add_zero] at h
    rw [load, load, h]
    decide
  | succ n ih =>
    have hb := (m a).toNat_lt
    have hrest := ih (a := a + 1) (by rwa [Nat.add_assoc, Nat.add_comm 1 n])
    rw [load, Nat.pow_succ]
    omega

theorem load_congr {m m' : Mem} (h : ∀ i < n, m (a + i) = m' (a + i)) : load m a n = load m' a n := by
  induction n generalizing a with
  | zero => rfl
  | succ n ih =>
    have h0 := h 0 (by omega)
    rw [Nat.add_zero] at h0
    rw [load, load, h0, ih fun i hi => ?_]
    have := h (i + 1) (by omega)
    rwa [show a + 1 + i = a + (i + 1) by omega]

/-- The bytes of a number that was read are the bytes it was read from. -/
theorem byteAt_load {i : Nat} (hi : i < n) : byteAt (load m a n) i = m (a + i) := by
  induction n generalizing a i with
  | zero => omega
  | succ n ih =>
    have hb := (m a).toNat_lt
    cases i with
    | zero =>
      apply UInt8.toNat_inj.mp
      rw [byteAt, load, Nat.pow_zero, Nat.div_one, UInt8.toNat_ofNat']
      simp only [Nat.add_zero]
      omega
    | succ i =>
      have hdiv : load m a (n + 1) / 256 ^ (i + 1) = load m (a + 1) n / 256 ^ i := by
        rw [Nat.pow_succ, Nat.mul_comm, ← Nat.div_div_eq_div_mul]
        congr 1
        rw [load]
        omega
      have := ih (a := a + 1) (i := i) (by omega)
      rw [byteAt] at this ⊢
      rw [hdiv, this, show a + 1 + i = a + (i + 1) by omega]

/-- A memory that holds the bytes of `k` reads as `k`. -/
theorem load_eq (hk : k < 256 ^ n) (h : ∀ i < n, m (a + i) = byteAt k i) : load m a n = k := by
  induction n generalizing a k with
  | zero =>
    rw [Nat.pow_zero] at hk
    rw [load]
    omega
  | succ n ih =>
    have h0 := h 0 (by omega)
    rw [Nat.add_zero, byteAt, Nat.pow_zero, Nat.div_one] at h0
    have hrest := ih (a := a + 1) (k := k / 256) ?_ fun i hi => ?_
    · rw [load, hrest, h0, UInt8.toNat_ofNat']
      omega
    · rw [Nat.pow_succ] at hk
      exact Nat.div_lt_of_lt_mul (by rwa [Nat.mul_comm] at hk)
    · have := h (i + 1) (by omega)
      rw [show a + 1 + i = a + (i + 1) by omega, this, byteAt, byteAt, Nat.pow_succ,
        Nat.mul_comm (256 ^ i), Nat.div_div_eq_div_mul]

theorem store_out (h : ¬ (a ≤ x ∧ x < a + n)) : store k a n m x = m x := if_neg h

theorem store_zero : store k a 0 m = m := funext fun _ => store_out (by omega)

/-- The last byte of a number, written on its own. -/
theorem setByte_store : (fun x => if x = a + n then byteAt k n else store k a n m x) =
    store k a (n + 1) m := by
  funext x
  unfold store
  by_cases hx : x = a + n
  · rw [if_pos hx, if_pos (by omega), hx, Nat.add_sub_cancel_left]
  · rw [if_neg hx]
    by_cases hin : a ≤ x ∧ x < a + n
    · rw [if_pos hin, if_pos (by omega)]
    · rw [if_neg hin, if_neg (by omega)]

/-- A number that was written is read back. -/
theorem load_store (hk : k < 256 ^ n) : load (store k a n m) a n = k := by
  refine load_eq hk fun i hi => ?_
  rw [store, if_pos (by omega), Nat.add_sub_cancel_left]

/-- Writing leaves the numbers at other places alone. -/
theorem load_store_other {b l : Nat} (h : b + l ≤ a ∨ a + n ≤ b) :
    load (store k a n m) b l = load m b l :=
  load_congr fun i hi => store_out (by omega)

/-- Two memories with the same number there agree on its bytes. -/
theorem eq_of_load_eq {m m' : Mem} (h : load m a n = load m' a n) {i : Nat} (hi : i < n) :
    m (a + i) = m' (a + i) := by
  rw [← byteAt_load (m := m) hi, h, byteAt_load hi]

end Mem
