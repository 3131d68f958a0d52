import Mathlib.Algebra.BigOperators.Group.Finset.Basic
import Mathlib.Data.List.Nodup
import Mathlib.Data.List.Range
import Mathlib.Data.Prod.Lex

/-!
# Dealing in rounds

Takers with room for `room a` pieces each are dealt one piece after the other, in
rounds: in round `k` those with `k < room a`, in their order. `turns` lists the turns
up to a round, each with its round.

* `turns_sorted`, `mem_turns`: the turns are the pairs of a round and a taker that
  takes part in it, in lexicographic order.
* `length_turns`, `count_turns`: how many turns there are, and how many of a taker.
* `count_take`: dealt any number of pieces, all takers have got those of the same full
  rounds, and at most one more.
-/

namespace SimpleParallel.RoundRobin

variable {α : Type*} (takers : List α) (room : α → Nat)

/-- Who takes part in round `k`. -/
def round (k : Nat) : List α := takers.filter fun a => k < room a

/-- The turns of `d` rounds from round `k` on. -/
def turns (k d : Nat) : List (Nat × α) :=
  (List.range' k d).flatMap fun l => (round takers room l).map (Prod.mk l)

variable {takers room} {k d : Nat} {a : α}

theorem mem_round : a ∈ round takers room k ↔ a ∈ takers ∧ k < room a := by
  rw [round, List.mem_filter, decide_eq_true_iff]

theorem turns_zero (k : Nat) : turns takers room k 0 = [] := rfl

theorem turns_succ (k d : Nat) : turns takers room k (d + 1) =
    (round takers room k).map (Prod.mk k) ++ turns takers room (k + 1) d := by
  rw [turns, List.range'_succ, List.flatMap_cons]
  rfl

theorem mem_turns {l : Nat} :
    (l, a) ∈ turns takers room k d ↔ k ≤ l ∧ l < k + d ∧ a ∈ takers ∧ l < room a := by
  rw [turns, List.mem_flatMap]
  constructor
  · rintro ⟨l', hl', hmem⟩
    obtain ⟨b, hb, heq⟩ := List.mem_map.mp hmem
    cases heq
    rw [List.mem_range'_1] at hl'
    exact ⟨hl'.1, hl'.2, mem_round.mp hb⟩
  · rintro ⟨hk, hd, hround⟩
    exact ⟨l, List.mem_range'_1.mpr ⟨hk, hd⟩, List.mem_map_of_mem (mem_round.mpr hround)⟩

theorem turns_eq_nil (h : ∀ a ∈ takers, room a ≤ k) : turns takers room k d = [] :=
  List.eq_nil_iff_forall_not_mem.mpr fun ⟨l, a⟩ hturn => by
    obtain ⟨hl, -, ha, hlt⟩ := mem_turns.mp hturn
    have := h a ha
    omega

/-- The turns are in lexicographic order. -/
theorem turns_sorted {r : α → α → Prop} (h : takers.Pairwise r) (k d : Nat) :
    (turns takers room k d).Pairwise (Prod.Lex (· < ·) r) := by
  rw [turns, List.pairwise_flatMap]
  refine ⟨fun l _ => ?_, List.Pairwise.imp ?_ (List.pairwise_lt_range' 1)⟩
  · rw [List.pairwise_map]
    exact (h.filter _).imp fun {a b} hab => Prod.Lex.right l hab
  · intro l l' hlt turn hturn turn' hturn'
    obtain ⟨a, -, rfl⟩ := List.mem_map.mp hturn
    obtain ⟨b, -, rfl⟩ := List.mem_map.mp hturn'
    exact Prod.Lex.left a b hlt

theorem snd_round (takers : List α) (k : Nat) : (takers.map (Prod.mk k)).map Prod.snd = takers := by
  rw [List.map_map]
  exact List.map_id takers

section Count

variable [DecidableEq α]

theorem count_round (hnodup : takers.Nodup) (ha : a ∈ takers) (k : Nat) :
    (round takers room k).count a = if k < room a then 1 else 0 := by
  by_cases h : k < room a
  · rw [if_pos h]
    exact List.count_eq_one_of_mem (hnodup.filter _) (mem_round.mpr ⟨ha, h⟩)
  · rw [if_neg h]
    exact List.count_eq_zero.mpr fun hmem => h (mem_round.mp hmem).2

/-- A taker takes part in the rounds that it has room for. -/
theorem count_turns (hnodup : takers.Nodup) (ha : a ∈ takers) (k d : Nat) :
    ((turns takers room k d).map Prod.snd).count a = min (k + d) (room a) - k := by
  induction d generalizing k with
  | zero => simp [turns_zero]
  | succ d ih =>
    rw [turns_succ, List.map_append, snd_round, List.count_append, ih, count_round hnodup ha]
    split <;> omega

/-- There are as many turns as there is room. -/
theorem length_turns (hnodup : takers.Nodup) (d : Nat) :
    (turns takers room 0 d).length = ∑ a ∈ takers.toFinset, min d (room a) := by
  have hsub : ((turns takers room 0 d).map Prod.snd).toFinset ⊆ takers.toFinset := by
    intro a ha
    obtain ⟨⟨l, b⟩, hturn, rfl⟩ := List.mem_map.mp (List.mem_toFinset.mp ha)
    exact List.mem_toFinset.mpr (mem_turns.mp hturn).2.2.1
  rw [← List.length_map (f := Prod.snd), ← List.sum_toFinset_count_eq_length,
    Finset.sum_subset hsub fun a _ ha => List.count_eq_zero.mpr (mt List.mem_toFinset.mpr ha)]
  refine Finset.sum_congr rfl fun a ha => ?_
  rw [count_turns hnodup (List.mem_toFinset.mp ha), Nat.zero_add, Nat.sub_zero]

/-- Dealt any number of pieces, all takers have got those of the same full rounds, and at
most one more. -/
theorem count_take (room : α → Nat) (hnodup : takers.Nodup) (t k d : Nat) :
    ∃ full, k ≤ full ∧ ∀ a ∈ takers,
      min full (room a) - k ≤ (((turns takers room k d).take t).map Prod.snd).count a ∧
      (((turns takers room k d).take t).map Prod.snd).count a ≤ min (full + 1) (room a) - k := by
  induction d generalizing k t with
  | zero =>
    refine ⟨k, Nat.le_refl k, fun a _ => ?_⟩
    rw [turns_zero, List.take_nil, List.map_nil, List.count_nil]
    omega
  | succ d ih =>
    rw [turns_succ]
    by_cases ht : t ≤ (round takers room k).length
    · -- the pieces are used up in round `k`
      refine ⟨k, Nat.le_refl k, fun a ha => ⟨by omega, ?_⟩⟩
      rw [List.take_append_of_le_length (by rwa [List.length_map]), ← List.map_take, snd_round]
      have hle := (List.take_sublist t (round takers room k)).count_le a
      rw [count_round hnodup ha] at hle
      split at hle <;> omega
    · obtain ⟨full, hfull, hcount⟩ := ih (t - (round takers room k).length) (k + 1)
      refine ⟨full, by omega, fun a ha => ?_⟩
      obtain ⟨hlo, hhi⟩ := hcount a ha
      rw [List.take_append, List.take_of_length_le (by rw [List.length_map]; omega),
        List.length_map, List.map_append, snd_round, List.count_append, count_round hnodup ha]
      split <;> omega

/-- Nobody is dealt more than there is room for. -/
theorem count_le_room (hnodup : takers.Nodup) (t d : Nat) (a : α) :
    (((turns takers room 0 d).take t).map Prod.snd).count a ≤ room a := by
  have hle := ((List.take_sublist t (turns takers room 0 d)).map Prod.snd).count_le a
  by_cases ha : a ∈ takers
  · rw [count_turns hnodup ha] at hle
    omega
  · have hzero : ((turns takers room 0 d).map Prod.snd).count a = 0 := by
      refine List.count_eq_zero.mpr fun hmem => ?_
      obtain ⟨⟨l, b⟩, hturn, rfl⟩ := List.mem_map.mp hmem
      exact ha (mem_turns.mp hturn).2.2.1
    omega

end Count

end SimpleParallel.RoundRobin
