import SimpleParallel.Lib.Bytes

/-!
# Arrays in memories, element by element

An array of `count` elements of `size` bytes. `elementwise g receives` gives each element of
the arrays of some processes what `g` makes of that element on all processes.

* `writeElems_append`, `elementwise_append`: two adjoining arrays one after the other are one
  array.
* `writeElems_load`: elements that were read elsewhere are copied byte for byte.
-/

namespace Mem

variable {src m : Mem} {f : Nat → Nat} {a b n k size count x : Nat}

/-- `m` with the numbers `f 0`, `f 1`, … in the elements from `a` on. -/
def writeElems (f : Nat → Nat) (a size count : Nat) (m : Mem) : Mem := fun x =>
  if a ≤ x ∧ x < a + count * size then byteAt (f ((x - a) / size)) ((x - a) % size) else m x

theorem writeElems_in (h : a ≤ x ∧ x < a + count * size) :
    writeElems f a size count m x = byteAt (f ((x - a) / size)) ((x - a) % size) := if_pos h

theorem writeElems_out (h : ¬ (a ≤ x ∧ x < a + count * size)) :
    writeElems f a size count m x = m x := if_neg h

@[simp] theorem writeElems_zero : writeElems f a size 0 m = m :=
  funext fun _ => writeElems_out (by omega)

theorem writeElems_append :
    writeElems (fun j => f (n + j)) (a + n * size) size k (writeElems f a size n m) =
      writeElems f a size (n + k) m := by
  have hlen : (n + k) * size = n * size + k * size := Nat.add_mul _ _ _
  funext x
  by_cases hlast : a + n * size ≤ x ∧ x < a + n * size + k * size
  · have hpos : 0 < size := Nat.pos_of_ne_zero fun h0 => by rw [h0] at hlast; omega
    have hsub : x - a = x - (a + n * size) + size * n := by
      rw [Nat.mul_comm size n]
      omega
    rw [writeElems_in hlast, writeElems_in (by omega), hsub, Nat.add_mul_div_left _ _ hpos,
      Nat.add_mul_mod_self_left, Nat.add_comm n]
  · rw [writeElems_out hlast]
    by_cases hfirst : a ≤ x ∧ x < a + n * size
    · rw [writeElems_in hfirst, writeElems_in (by omega)]
    · rw [writeElems_out hfirst, writeElems_out (by omega)]

/-- Elements that were read at `b` are the bytes there. -/
theorem writeElems_load (h : a ≤ x ∧ x < a + count * size) :
    writeElems (fun j => src.load (b + j * size) size) a size count m x = src (b + (x - a)) := by
  have hpos : 0 < size := Nat.pos_of_ne_zero fun h0 => by rw [h0] at h; omega
  have hsplit : (x - a) / size * size + (x - a) % size = x - a := Nat.div_add_mod' _ _
  rw [writeElems_in h, byteAt_load (Nat.mod_lt _ hpos), Nat.add_assoc, hsplit]

end Mem

namespace Elementwise

variable {ι : Type*} {g : (ι → Nat) → Nat} {receives : ι → Prop} [DecidablePred receives]
  {size n k : Nat} {buffer : ι → Nat} {w : ι → Mem} {i : ι}

/-- Element `j` of the arrays, combined. -/
def combined (g : (ι → Nat) → Nat) (size : Nat) (buffer : ι → Nat) (w : ι → Mem) (j : Nat) : Nat :=
  g fun i => (w i).load (buffer i + j * size) size

/-- The combined elements, in the arrays of those who receive them. -/
def elementwise (g : (ι → Nat) → Nat) (receives : ι → Prop) [DecidablePred receives] (size : Nat)
    (buffer : ι → Nat) (count : Nat) (w : ι → Mem) : ι → Mem := fun i =>
  if receives i then (w i).writeElems (combined g size buffer w) (buffer i) size count else w i

theorem elementwise_of_receives (h : receives i) : elementwise g receives size buffer n w i =
    (w i).writeElems (combined g size buffer w) (buffer i) size n := if_pos h

theorem elementwise_of_not (h : ¬ receives i) : elementwise g receives size buffer n w i = w i :=
  if_neg h

@[simp] theorem elementwise_zero : elementwise g receives size buffer 0 w = w := by
  funext i
  unfold elementwise
  rw [Mem.writeElems_zero, ite_self]

theorem elementwise_out {x : Nat} (h : ¬ (buffer i ≤ x ∧ x < buffer i + n * size)) :
    elementwise g receives size buffer n w i x = w i x := by
  by_cases hi : receives i
  · rw [elementwise_of_receives hi, Mem.writeElems_out h]
  · rw [elementwise_of_not hi]

/-- The elements after the first `n` are combined as if those had not been. -/
theorem combined_elementwise (j : Nat) :
    combined g size (fun i => buffer i + n * size) (elementwise g receives size buffer n w) j =
      combined g size buffer w (n + j) := by
  refine congrArg g (funext fun i => ?_)
  rw [Nat.add_mul, ← Nat.add_assoc]
  refine Mem.load_congr fun b _ => ?_
  have hafter : buffer i + n * size ≤ buffer i + n * size + j * size + b := by omega
  exact elementwise_out fun hx => absurd hx.2 (Nat.not_lt.mpr hafter)

theorem elementwise_append :
    elementwise g receives size (fun i => buffer i + n * size) k
        (elementwise g receives size buffer n w) =
      elementwise g receives size buffer (n + k) w := by
  funext i
  by_cases hi : receives i
  · have hcombined : combined g size (fun i => buffer i + n * size)
        (elementwise g receives size buffer n w) = fun j => combined g size buffer w (n + j) :=
      funext combined_elementwise
    rw [elementwise_of_receives hi, hcombined, elementwise_of_receives hi,
      elementwise_of_receives hi, Mem.writeElems_append]
  · rw [elementwise_of_not hi, elementwise_of_not hi, elementwise_of_not hi]

end Elementwise
