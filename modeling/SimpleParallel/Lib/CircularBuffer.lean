import Mathlib.Data.List.Basic

/-!
# Bounded circular buffers

A buffer of fixed capacity that never holds more items than its capacity. A
push onto a full buffer overwrites the oldest item; a buffer of capacity zero
ignores every push.
-/

/-- A circular buffer, oldest item first. -/
structure CircularBuffer (α : Type*) where
  capacity : Nat
  items : List α
  bounded : items.length ≤ capacity

namespace CircularBuffer

variable {α : Type*}

def empty (capacity : Nat) : CircularBuffer α := ⟨capacity, [], Nat.zero_le _⟩

def full (b : CircularBuffer α) : Bool := b.items.length == b.capacity

/-- The number of items that fit without overwriting. -/
def reserve (b : CircularBuffer α) : Nat := b.capacity - b.items.length

def front (b : CircularBuffer α) : Option α := b.items.head?

def popFront (b : CircularBuffer α) : CircularBuffer α :=
  ⟨b.capacity, b.items.tail, by have := b.bounded; rw [List.length_tail]; omega⟩

def pushBack (b : CircularBuffer α) (x : α) : CircularBuffer α :=
  if h : b.items.length < b.capacity then
    ⟨b.capacity, b.items ++ [x], by simpa using Nat.succ_le_of_lt h⟩
  else if h0 : b.capacity = 0 then b
  else ⟨b.capacity, b.items.tail ++ [x], by
    have := b.bounded
    simp only [List.length_append, List.length_tail, List.length_cons, List.length_nil]
    omega⟩

@[simp] theorem capacity_empty (c : Nat) : (empty c : CircularBuffer α).capacity = c := rfl

@[simp] theorem items_empty (c : Nat) : (empty c : CircularBuffer α).items = [] := rfl

@[simp] theorem capacity_popFront (b : CircularBuffer α) :
    b.popFront.capacity = b.capacity := rfl

@[simp] theorem items_popFront (b : CircularBuffer α) : b.popFront.items = b.items.tail := rfl

@[simp] theorem capacity_pushBack (b : CircularBuffer α) (x : α) :
    (b.pushBack x).capacity = b.capacity := by
  unfold pushBack
  split
  · rfl
  · split <;> rfl

/-- A push adds at most the pushed item. -/
theorem mem_items_pushBack {b : CircularBuffer α} {x y : α} (h : y ∈ (b.pushBack x).items) :
    y ∈ b.items ∨ y = x := by
  unfold pushBack at h
  split at h
  · simpa using h
  · split at h
    · exact .inl h
    · simp only [List.mem_append, List.mem_singleton] at h
      exact h.imp_left List.mem_of_mem_tail

/-- On a buffer of positive capacity the pushed item is in. -/
theorem mem_pushBack_self {b : CircularBuffer α} (h : 0 < b.capacity) (x : α) :
    x ∈ (b.pushBack x).items := by
  unfold pushBack
  split
  · simp
  · rw [dif_neg (by omega)]
    simp

end CircularBuffer
