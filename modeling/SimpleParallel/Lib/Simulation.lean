import Mathlib.Data.List.Basic
import SimpleParallel.Lib.LTS

/-!
# Simulations

The runs of a system with their labels, and forward simulation: a system whose
steps are answered, label by label, by steps of a simpler one. A label without
meaning in the simpler system is answered by no step.

* `Simulation.traces`: every run of the first system has a counterpart.
* `Traces.unique`: a deterministic system has one run for its labels.
-/

namespace LTS

variable {σ τ α β : Type*} {S : Sys σ α} {T : Sys τ β}

/-- The labels of the runs of a system, with the states the runs end in. -/
inductive Traces (S : Sys σ α) : List α → σ → Prop
  | init {s : σ} : S.init s → Traces S [] s
  | step {s t : σ} {l : List α} {a : α} : Traces S l s → S.step s a t → Traces S (l ++ [a]) t

theorem Traces.reachable {l : List α} {s : σ} (h : Traces S l s) : Reachable S s := by
  induction h with
  | init h => exact .init h
  | step _ hs ih => exact ih.step hs

theorem Reachable.traces {s : σ} (h : Reachable S s) : ∃ l, Traces S l s := by
  induction h with
  | init h => exact ⟨[], .init h⟩
  | step _ hs ih =>
    obtain ⟨l, hl⟩ := ih
    exact ⟨_, hl.step hs⟩

/-- A system with more steps has more runs. -/
theorem Traces.mono {S' : Sys σ α} {l : List α} {s : σ} (h : Traces S l s)
    (hinit : ∀ s, S.init s → S'.init s) (hstep : ∀ s a t, S.step s a t → S'.step s a t) :
    Traces S' l s := by
  induction h with
  | init h0 => exact .init (hinit _ h0)
  | step _ hs ih => exact ih.step (hstep _ _ _ hs)

/-- `T` simulates `S`: `meaning` says which label of `T` answers a label of `S`. -/
structure Simulation (S : Sys σ α) (T : Sys τ β) (meaning : α → Option β) (R : σ → τ → Prop) :
    Prop where
  init : ∀ s, S.init s → ∃ t, T.init t ∧ R s t
  silent : ∀ s a s' t, Reachable S s → R s t → S.step s a s' → meaning a = none → R s' t
  answer : ∀ s a s' t b, Reachable S s → R s t → S.step s a s' → meaning a = some b →
    ∃ t', T.step t b t' ∧ R s' t'

theorem Simulation.traces {meaning : α → Option β} {R : σ → τ → Prop}
    (h : Simulation S T meaning R) {l : List α} {s : σ} (hs : Traces S l s) :
    ∃ t, Traces T (l.filterMap meaning) t ∧ R s t := by
  induction hs with
  | init h0 =>
    obtain ⟨t, ht, hR⟩ := h.init _ h0
    exact ⟨t, .init ht, hR⟩
  | @step s s' l a hs hstep ih =>
    obtain ⟨t, ht, hR⟩ := ih
    rw [List.filterMap_append]
    cases hm : meaning a with
    | none =>
      rw [List.filterMap_cons_none hm, List.filterMap_nil, List.append_nil]
      exact ⟨t, ht, h.silent _ _ _ _ hs.reachable hR hstep hm⟩
    | some b =>
      obtain ⟨t', ht', hR'⟩ := h.answer _ _ _ _ _ hs.reachable hR hstep hm
      rw [List.filterMap_cons_some hm, List.filterMap_nil]
      exact ⟨t', ht.step ht', hR'⟩

/-- Without a choice the labels of a run tell where it ends. -/
theorem Traces.unique (hinit : ∀ s t, S.init s → S.init t → s = t)
    (hstep : ∀ s a t t', S.step s a t → S.step s a t' → t = t') {l : List α} {s t : σ}
    (hs : Traces S l s) (ht : Traces S l t) : s = t := by
  induction hs generalizing t with
  | init h0 =>
    generalize hl : ([] : List α) = l at ht
    cases ht with
    | init h0' => exact hinit _ _ h0 h0'
    | step _ _ => simp at hl
  | @step s s' l a _ hstep' ih =>
    generalize hl : l ++ [a] = l' at ht
    cases ht with
    | init _ => simp at hl
    | step ht hstep'' =>
      obtain ⟨rfl, hlast⟩ := List.append_inj' hl rfl
      cases hlast
      cases ih ht
      exact hstep _ _ _ _ hstep' hstep''

end LTS
