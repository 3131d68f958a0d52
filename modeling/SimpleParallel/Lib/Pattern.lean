import Mathlib.Data.List.Basic

/-!
# Patterns of characters

A pattern is a sequence of items: one character of a class, or any number of them.
`fullMatch` matches a whole string; `fullMatch_iff` says in what way it may.

A string of two parts with a separator between them has one reading if the separator is not
met earlier: `Separated.inj`.
-/

namespace SimpleParallel.Pattern

inductive Item
  | one (p : Char → Bool)
  | many (p : Char → Bool)

def literal (s : String) : List Item := s.toList.map fun c => .one fun d => d == c

/-- Some characters of the class, then what `rest` accepts. -/
def manyThen (p : Char → Bool) (rest : List Char → Bool) : List Char → Bool
  | [] => rest []
  | c :: s => rest (c :: s) || (p c && manyThen p rest s)

def fullMatch : List Item → List Char → Bool
  | [], s => s.isEmpty
  | .one p :: items, s =>
    match s with
    | [] => false
    | c :: s => p c && fullMatch items s
  | .many p :: items, s => manyThen p (fullMatch items) s

/-- The string is cut into pieces, one for each item. -/
def Matches : List Item → List Char → Prop
  | [], s => s = []
  | .one p :: items, s => ∃ c t, s = c :: t ∧ p c = true ∧ Matches items t
  | .many p :: items, s => ∃ u t, s = u ++ t ∧ (∀ c ∈ u, p c = true) ∧ Matches items t

theorem manyThen_iff {p : Char → Bool} {rest : List Char → Bool} {s : List Char} :
    manyThen p rest s = true ↔ ∃ u t, s = u ++ t ∧ (∀ c ∈ u, p c = true) ∧ rest t = true := by
  induction s with
  | nil =>
    constructor
    · exact fun h => ⟨[], [], rfl, fun c hc => (by cases hc), h⟩
    · rintro ⟨u, t, hs, -, h⟩
      obtain ⟨-, rfl⟩ := List.append_eq_nil_iff.mp hs.symm
      exact h
  | cons c s ih =>
    rw [manyThen, Bool.or_eq_true, Bool.and_eq_true, ih]
    constructor
    · rintro (h | ⟨hc, u, t, rfl, hu, h⟩)
      · exact ⟨[], c :: s, rfl, fun c hc => (by cases hc), h⟩
      · exact ⟨c :: u, t, rfl, List.forall_mem_cons.mpr ⟨hc, hu⟩, h⟩
    · rintro ⟨u, t, hs, hu, h⟩
      cases u with
      | nil =>
        rw [hs]
        exact .inl h
      | cons d u =>
        obtain ⟨rfl, rfl⟩ := List.cons.inj hs
        obtain ⟨hd, hu⟩ := List.forall_mem_cons.mp hu
        exact .inr ⟨hd, u, t, rfl, hu, h⟩

theorem fullMatch_iff {items : List Item} {s : List Char} :
    fullMatch items s = true ↔ Matches items s := by
  induction items generalizing s with
  | nil => exact List.isEmpty_iff
  | cons item items ih =>
    cases item with
    | one p =>
      cases s with
      | nil => exact iff_of_false (by intro h; cases h) fun ⟨_, _, h, _⟩ => by cases h
      | cons c s =>
        rw [fullMatch, Bool.and_eq_true, ih]
        constructor
        · exact fun ⟨hc, h⟩ => ⟨c, s, rfl, hc, h⟩
        · rintro ⟨_, _, hs, hc, h⟩
          cases hs
          exact ⟨hc, h⟩
    | many p =>
      rw [fullMatch, manyThen_iff]
      simp only [ih, Matches]

/-! ## Putting patterns together -/

section

variable {items items' : List Item} {s s' : List Char} {p : Char → Bool}

theorem Matches.append (h : Matches items s) (h' : Matches items' s') :
    Matches (items ++ items') (s ++ s') := by
  induction items generalizing s with
  | nil =>
    obtain rfl : s = [] := h
    exact h'
  | cons item items ih =>
    cases item with
    | one p =>
      obtain ⟨c, t, rfl, hc, ht⟩ := h
      exact ⟨c, t ++ s', rfl, hc, ih ht⟩
    | many p =>
      obtain ⟨u, t, rfl, hu, ht⟩ := h
      exact ⟨u, t ++ s', List.append_assoc _ _ _, hu, ih ht⟩

theorem Matches.cons {c : Char} (hc : p c = true) (h : Matches items s) :
    Matches (.one p :: items) (c :: s) :=
  ⟨c, s, rfl, hc, h⟩

theorem matches_many (h : ∀ c ∈ s, p c = true) : Matches [.many p] s :=
  ⟨s, [], (List.append_nil s).symm, h, rfl⟩

theorem matches_literal (l : String) : Matches (literal l) l.toList := by
  unfold literal
  induction l.toList with
  | nil => rfl
  | cons c s ih => exact ih.cons (beq_self_eq_true c)

end

/-! ## Separators -/

section

variable {α : Type} {sep x y x' y' : List α}

/-- In `x ++ sep` the separator is not met before the end of `x`. -/
def Separated (sep x : List α) : Prop := ¬ sep <:+: x ++ sep.dropLast

theorem Separated.length_le (h : Separated sep x') (heq : x ++ sep ++ y = x' ++ sep ++ y') :
    x'.length ≤ x.length := by
  by_contra hlt
  rw [Nat.not_le] at hlt
  have hlong : x' ++ sep.dropLast <+: x' ++ sep ++ y' := by
    rw [List.append_assoc, List.prefix_append_right_inj]
    exact (List.dropLast_prefix sep).trans (List.prefix_append sep y')
  have hshort : x ++ sep <+: x' ++ sep ++ y' := heq ▸ List.prefix_append (x ++ sep) y
  have hprefix : x ++ sep <+: x' ++ sep.dropLast := by
    refine List.prefix_of_prefix_length_le hshort hlong ?_
    rw [List.length_append, List.length_append, List.length_dropLast]
    omega
  exact h ((List.suffix_append x sep).isInfix.trans hprefix.isInfix)

theorem Separated.inj (h : Separated sep x) (h' : Separated sep x')
    (heq : x ++ sep ++ y = x' ++ sep ++ y') : x = x' ∧ y = y' := by
  have hlen : x.length = x'.length :=
    Nat.le_antisymm (h.length_le heq.symm) (h'.length_le heq)
  rw [List.append_assoc, List.append_assoc] at heq
  obtain ⟨hx, hrest⟩ := List.append_inj heq hlen
  exact ⟨hx, List.append_cancel_left hrest⟩

end

end SimpleParallel.Pattern
