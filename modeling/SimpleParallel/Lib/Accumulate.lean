import Mathlib.Data.List.OfFn
import Mathlib.Logic.Function.Basic

/-!
# Accumulated values

Partial results kept by several ranks are combined by one operation at the end.
For an associative and commutative operation it makes no difference where a
value was put in: adding it to one of the partial results adds it to the whole
(`foldl_update`).
-/

/-- The operation may combine values in any order. -/
structure Accumulates {α : Type*} (op : α → α → α) : Prop where
  assoc : ∀ a b c, op (op a b) c = op a (op b c)
  comm : ∀ a b, op a b = op b a

namespace Accumulates

variable {α : Type*} {op : α → α → α}

theorem right_comm (h : Accumulates op) (a b c : α) : op (op a b) c = op (op a c) b := by
  rw [h.assoc, h.comm b c, h.assoc]

/-- A value combined first may be combined last. -/
theorem foldl_op (h : Accumulates op) (l : List α) (a v : α) :
    l.foldl op (op a v) = op (l.foldl op a) v := by
  induction l generalizing a with
  | nil => rfl
  | cons b l ih => rw [List.foldl_cons, List.foldl_cons, h.right_comm, ih]

/-- A value combined into one partial result is combined into the whole. -/
theorem foldl_update (h : Accumulates op) {n : Nat} (vals : Fin n → α) (w : Fin n) (a v : α) :
    (List.ofFn (Function.update vals w (op (vals w) v))).foldl op a =
      op ((List.ofFn vals).foldl op a) v := by
  induction n generalizing a with
  | zero => exact w.elim0
  | succ n ih =>
    rw [List.ofFn_succ, List.ofFn_succ, List.foldl_cons, List.foldl_cons]
    refine Fin.cases ?_ (fun w => ?_) w
    · have hrest : (fun i : Fin n => Function.update vals 0 (op (vals 0) v) i.succ) =
          fun i => vals i.succ := funext fun i => Function.update_of_ne (Fin.succ_ne_zero i) _ _
      rw [Function.update_self, hrest, ← h.assoc, h.foldl_op]
    · have hrest : (fun i : Fin n => Function.update vals w.succ (op (vals w.succ) v) i.succ) =
          Function.update (fun i : Fin n => vals i.succ) w (op (vals w.succ) v) := by
        funext i
        by_cases hi : i = w
        · subst hi
          rw [Function.update_self, Function.update_self]
        · rw [Function.update_of_ne hi, Function.update_of_ne fun h => hi (Fin.succ_injective _ h)]
      rw [Function.update_of_ne (Fin.succ_ne_zero w).symm, hrest]
      exact ih (fun i => vals i.succ) w _

/-- Partial results that change nothing. -/
theorem foldl_identity {l : List α} {a : α} (h : ∀ b ∈ l, op a b = a) : l.foldl op a = a := by
  induction l with
  | nil => rfl
  | cons b l ih =>
    rw [List.foldl_cons, h b List.mem_cons_self]
    exact ih fun c hc => h c (List.mem_cons_of_mem _ hc)

end Accumulates
