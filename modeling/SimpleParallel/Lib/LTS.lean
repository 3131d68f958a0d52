import Mathlib.Order.RelClasses

/-!
# Labelled transition systems

States, labelled steps, the states a system reaches, and the two induction
rules every development over a system needs: an invariant of the reachable
states, and an invariant of two runs taken side by side.

* `Reachable.invariant`: what holds initially and is kept by every step holds
  in every reachable state.
* `Sys.restrict`: the runs all of whose steps meet a condition. A reachable
  state of the restricted system is reachable (`Reachable.of_restrict`).
* `Sys.startingAt`: the runs from one state, to speak of what comes after it.
* `Reachable.progress`, `Reachable.exists_goal`: where every state has a step that
  brings it nearer to a goal, a goal is reached.
* `Twin`: two runs with the same public labels and the same observation after
  each of them, each with private steps of its own (`Twin.invariant`).
-/

namespace LTS

/-- A labelled transition system: its initial states and its steps. -/
structure Sys (σ α : Type*) where
  init : σ → Prop
  step : σ → α → σ → Prop

variable {σ α ω : Type*} {S : Sys σ α}

/-! ## Reachable states -/

/-- The states that some run reaches. -/
inductive Reachable (S : Sys σ α) : σ → Prop
  | init {s : σ} : S.init s → Reachable S s
  | step {s t : σ} {a : α} : Reachable S s → S.step s a t → Reachable S t

/-- The invariant rule. The step premise may use that the state it starts from
is reachable, so an invariant can rest on one proved before. -/
theorem Reachable.invariant {P : σ → Prop} (h0 : ∀ s, S.init s → P s)
    (h1 : ∀ s a t, Reachable S s → P s → S.step s a t → P t) {s : σ} (h : Reachable S s) :
    P s := by
  induction h with
  | init h => exact h0 _ h
  | step hr hs ih => exact h1 _ _ _ hr ih hs

/-- The runs of `S` all of whose steps meet `ok`. -/
def Sys.restrict (S : Sys σ α) (ok : σ → α → Prop) : Sys σ α where
  init := S.init
  step s a t := ok s a ∧ S.step s a t

theorem Reachable.of_restrict {ok : σ → α → Prop} {s : σ} (h : Reachable (S.restrict ok) s) :
    Reachable S s := by
  induction h with
  | init h => exact .init h
  | step _ hs ih => exact ih.step hs.2

/-- One more step that meets the condition. -/
theorem Reachable.restrict_step {ok : σ → α → Prop} {s t : σ} (h : Reachable (S.restrict ok) s)
    (a : α) (hok : ok s a) (hs : S.step s a t) : Reachable (S.restrict ok) t :=
  h.step ⟨hok, hs⟩

/-- The runs of `S` from one state. -/
def Sys.startingAt (S : Sys σ α) (s : σ) : Sys σ α := { S with init := (· = s) }

theorem Reachable.trans {s t : σ} (h : Reachable S s) (ht : Reachable (S.startingAt s) t) :
    Reachable S t :=
  ht.invariant (fun _ h0 => h0 ▸ h) fun _ _ _ _ hs hstep => hs.step hstep

/-- The steps of `S` that also meet `good`, from one state. -/
def Sys.along (S : Sys σ α) (good : σ → α → σ → Prop) (s : σ) : Sys σ α where
  init := (· = s)
  step s a t := S.step s a t ∧ good s a t

theorem Reachable.of_along {good : σ → α → σ → Prop} {s t : σ} (hs : Reachable S s)
    (h : Reachable (S.along good s) t) : Reachable S t :=
  h.invariant (fun _ h0 => h0 ▸ hs) fun _ _ _ _ ht hstep => ht.step hstep.1

theorem Reachable.startingAt_of_along {good : σ → α → σ → Prop} {s t : σ}
    (h : Reachable (S.along good s) t) : Reachable (S.startingAt s) t :=
  h.invariant (fun _ h0 => .init h0) fun _ _ _ _ ht hstep => ht.step hstep.1

/-- The progress rule: where every state that is no goal has a step that brings
it nearer, a goal is reached. -/
theorem Reachable.progress {γ : Type*} [LT γ] [WellFoundedLT γ] {goal : σ → Prop}
    {good : σ → α → σ → Prop} (todo : σ → γ)
    (h : ∀ s, Reachable S s → ¬ goal s → ∃ a t, S.step s a t ∧ good s a t ∧ todo t < todo s)
    {s : σ} (hs : Reachable S s) : ∃ t, Reachable (S.along good s) t ∧ goal t := by
  induction hn : todo s using WellFoundedLT.induction generalizing s with
  | ind n ih =>
    by_cases hgoal : goal s
    · exact ⟨s, .init rfl, hgoal⟩
    obtain ⟨a, t, hstep, hgood, hlt⟩ := h s hs hgoal
    obtain ⟨u, hu, hgoalu⟩ := ih (todo t) (hn ▸ hlt) (hs.step hstep) rfl
    refine ⟨u, ?_, hgoalu⟩
    have hfirst : Reachable (S.along good s) t := .step (.init rfl) ⟨hstep, hgood⟩
    exact hfirst.trans hu

/-- The rule for a goal that any step may lead to. -/
theorem Reachable.exists_goal {γ : Type*} [LT γ] [WellFoundedLT γ] (goal : σ → Prop) (todo : σ → γ)
    (h : ∀ s, Reachable S s → ¬ goal s → ∃ a t, S.step s a t ∧ todo t < todo s)
    {s : σ} (hs : Reachable S s) : ∃ t, Reachable (S.startingAt s) t ∧ goal t := by
  obtain ⟨t, ht, hgoal⟩ : ∃ t, Reachable (S.along (fun _ _ _ => True) s) t ∧ goal t := by
    refine hs.progress todo fun s hs hno => ?_
    obtain ⟨a, t, hstep, hlt⟩ := h s hs hno
    exact ⟨a, t, hstep, trivial, hlt⟩
  exact ⟨t, ht.startingAt_of_along, hgoal⟩

/-! ## Two runs side by side -/

/-- Two runs from one initial state. A public label is taken by both runs and
leaves them with the same observation; a private label is taken by one of
them. -/
inductive Twin (S : Sys σ α) (priv : α → Prop) (obs : σ → ω) : σ → σ → Prop
  | init {s : σ} : S.init s → Twin S priv obs s s
  | both {s t s' t' : σ} {a : α} : Twin S priv obs s t → ¬ priv a → S.step s a s' →
      S.step t a t' → obs s' = obs t' → Twin S priv obs s' t'
  | left {s t s' : σ} {a : α} : Twin S priv obs s t → priv a → S.step s a s' →
      Twin S priv obs s' t
  | right {s t t' : σ} {a : α} : Twin S priv obs s t → priv a → S.step t a t' →
      Twin S priv obs s t'

variable {priv : α → Prop} {obs : σ → ω}

/-- The invariant rule for two runs. -/
theorem Twin.invariant {P : σ → σ → Prop} (h0 : ∀ s, S.init s → P s s)
    (hboth : ∀ s t s' t' a, P s t → ¬ priv a → S.step s a s' → S.step t a t' →
      obs s' = obs t' → P s' t')
    (hleft : ∀ s t s' a, P s t → priv a → S.step s a s' → P s' t)
    (hright : ∀ s t t' a, P s t → priv a → S.step t a t' → P s t')
    {s t : σ} (h : Twin S priv obs s t) : P s t := by
  induction h with
  | init h => exact h0 _ h
  | both _ hp hs ht ho ih => exact hboth _ _ _ _ _ ih hp hs ht ho
  | left _ hp hs ih => exact hleft _ _ _ _ ih hp hs
  | right _ hp ht ih => exact hright _ _ _ _ ih hp ht

/-- A run without private steps, taken twice. -/
theorem Twin.diag {s : σ} (h : Reachable (S.restrict fun _ a => ¬ priv a) s) :
    Twin S priv obs s s := by
  induction h with
  | init h => exact .init h
  | step _ hs ih => exact .both ih hs.1 hs.2 hs.2 rfl

end LTS
