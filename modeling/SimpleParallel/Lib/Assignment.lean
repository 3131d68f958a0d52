import Mathlib.Data.List.Nodup
import Mathlib.Data.List.Range
import Mathlib.Data.List.Perm.Basic
import Mathlib.Logic.Function.Basic

/-!
# Tasks handed out in order

Tasks `0, 1, 2, …` are handed out one after the other, task `k` to the worker
`own k`. `owned own g r` lists what worker `r` has got after `g` tasks. The
lists of all workers partition `0 .. g-1` (`flatMap_owned_perm`), and each is
strictly increasing (`owned_sorted`). `flatMap_update_perm` is the step of a
count over workers: one of them gets more.
-/

namespace Assignment

variable {own : Nat → Nat} {g r : Nat}

/-- The tasks among the first `g` that went to worker `r`, in order. -/
def owned (own : Nat → Nat) (g r : Nat) : List Nat :=
  (List.range g).filter fun k => own k = r

theorem mem_owned {k : Nat} : k ∈ owned own g r ↔ k < g ∧ own k = r := by
  simp [owned]

@[simp] theorem owned_zero : owned own 0 r = [] := rfl

theorem owned_sorted (own : Nat → Nat) (g r : Nat) : (owned own g r).Pairwise (· < ·) :=
  List.Pairwise.sublist List.filter_sublist List.pairwise_lt_range

theorem owned_congr {own' : Nat → Nat} (h : ∀ k < g, own k = own' k) (r : Nat) :
    owned own g r = owned own' g r := by
  refine List.filter_congr fun k hk => ?_
  rw [h k (List.mem_range.mp hk)]

theorem owned_succ (own : Nat → Nat) (g r : Nat) :
    owned own (g + 1) r = owned own g r ++ if own g = r then [g] else [] := by
  simp only [owned, List.range_succ, List.filter_append, List.filter_cons, List.filter_nil,
    decide_eq_true_eq]

theorem owned_update (own : Nat → Nat) (g r r' : Nat) :
    owned (Function.update own g r) g r' = owned own g r' :=
  owned_congr (fun _ hk => Function.update_of_ne (Nat.ne_of_lt hk) _ _) r'

/-- The next task goes to `r`. -/
theorem owned_give_self (own : Nat → Nat) (g r : Nat) :
    owned (Function.update own g r) (g + 1) r = owned own g r ++ [g] := by
  rw [owned_succ, owned_update, Function.update_self, if_pos rfl]

/-- The next task goes to another worker. -/
theorem owned_give_other (own : Nat → Nat) (g : Nat) {r r' : Nat} (h : r' ≠ r) :
    owned (Function.update own g r) (g + 1) r' = owned own g r' := by
  rw [owned_succ, owned_update, Function.update_self, if_neg (Ne.symm h), List.append_nil]

/-- The workers' lists together are all the tasks, each once. -/
theorem flatMap_owned_perm {m : Nat} (h : ∀ k < g, own k < m) :
    ((List.range m).flatMap (owned own g)).Perm (List.range g) := by
  have hnd : ((List.range m).flatMap (owned own g)).Nodup := by
    rw [List.nodup_flatMap]
    refine ⟨fun r _ => (owned_sorted own g r).imp (fun hlt => Nat.ne_of_lt hlt), ?_⟩
    refine List.Pairwise.imp ?_ List.nodup_range
    intro r r' hne k hk hk'
    exact hne ((mem_owned.mp hk).2.symm.trans (mem_owned.mp hk').2)
  refine (List.perm_ext_iff_of_nodup hnd List.nodup_range).mpr fun k => ?_
  rw [List.mem_flatMap, List.mem_range]
  constructor
  · rintro ⟨r, -, hk⟩
    exact (mem_owned.mp hk).1
  · intro hk
    exact ⟨own k, List.mem_range.mpr (h k hk), mem_owned.mpr ⟨hk, rfl⟩⟩

/-- One worker's list grows by `more`: so do the lists of all. -/
theorem flatMap_update_perm {ι α : Type*} [DecidableEq ι] {f : ι → List α} {l : List ι} {r : ι}
    (hnd : l.Nodup) (hr : r ∈ l) (more : List α) :
    (l.flatMap (Function.update f r (f r ++ more))).Perm (l.flatMap f ++ more) := by
  induction l with
  | nil => cases hr
  | cons x l ih =>
    obtain ⟨hx, hnd'⟩ := List.nodup_cons.mp hnd
    rw [List.flatMap_cons, List.flatMap_cons]
    by_cases hxr : x = r
    · subst hxr
      have hrest : l.flatMap (Function.update f x (f x ++ more)) = l.flatMap f :=
        List.flatMap_congr fun y hy => Function.update_of_ne (ne_of_mem_of_not_mem hy hx) _ _
      rw [Function.update_self, hrest, List.append_assoc, List.append_assoc]
      exact List.perm_append_comm.append_left (f x)
    · have hr' : r ∈ l := (List.mem_cons.mp hr).resolve_left (Ne.symm hxr)
      rw [Function.update_of_ne hxr, List.append_assoc]
      exact (ih hnd' hr').append_left (f x)

end Assignment
