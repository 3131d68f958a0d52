import Mathlib.Data.List.Basic

/-!
# Generators

A generator is called with a state and returns the next state, and a value or the
end; `none` is a call that does not return. `Yields gen s values`: called again and
again from `s` on, it returns the values one by one and then the end. `afterCalls`
is the state after a number of calls, whatever they return.
-/

namespace SimpleParallel

variable {σ τ : Type*} {gen : σ → Option (σ × Option τ)} {s s' : σ} {value : τ}
  {values values' : List τ}

/-- All that the generator returns, from `s` on. -/
inductive Yields (gen : σ → Option (σ × Option τ)) : σ → List τ → Prop
  | done {s s' : σ} : gen s = some (s', none) → Yields gen s []
  | more {s s' : σ} {value : τ} {values : List τ} : gen s = some (s', some value) →
      Yields gen s' values → Yields gen s (value :: values)

/-- The state after `k` calls. -/
def afterCalls (gen : σ → Option (σ × Option τ)) (s : σ) : Nat → Option σ
  | 0 => some s
  | k + 1 => (afterCalls gen s k).bind fun s' => (gen s').map Prod.fst

theorem afterCalls_succ {k : Nat} {next : Option τ} (hafter : afterCalls gen s k = some s')
    {s'' : σ} (hcall : gen s' = some (s'', next)) : afterCalls gen s (k + 1) = some s'' := by
  rw [afterCalls, hafter, Option.bind_some, hcall]
  rfl

theorem afterCalls_cons {next : Option τ} (hcall : gen s = some (s', next)) (k : Nat) :
    afterCalls gen s (k + 1) = afterCalls gen s' k := by
  induction k with
  | zero => exact afterCalls_succ rfl hcall
  | succ k ih => rw [afterCalls, ih, afterCalls]

/-- A call that changes nothing is made again and again. -/
theorem afterCalls_fixed {next : Option τ} (hcall : gen s = some (s, next)) (k : Nat) :
    afterCalls gen s k = some s := by
  induction k with
  | zero => rfl
  | succ k ih => exact afterCalls_succ ih hcall

/-- What holds at first and is kept by every call holds after any number of calls. -/
theorem afterCalls_invariant {P : σ → Prop} (hinit : P s)
    (hstep : ∀ s' s'' next, P s' → gen s' = some (s'', next) → P s'') {k : Nat}
    (h : afterCalls gen s k = some s') : P s' := by
  induction k generalizing s' with
  | zero => cases h; exact hinit
  | succ k ih =>
    obtain ⟨s'', hafter, hmap⟩ := Option.bind_eq_some_iff.mp h
    obtain ⟨⟨_, next⟩, hcall, rfl⟩ := Option.map_eq_some_iff.mp hmap
    exact hstep s'' _ next (ih hafter) hcall

theorem Yields.tail (h : Yields gen s values) (hcall : gen s = some (s', some value)) :
    ∃ rest, values = value :: rest ∧ Yields gen s' rest := by
  cases h with
  | done hend => rw [hcall] at hend; cases hend
  | more hmore hrest =>
    rw [hcall] at hmore
    cases hmore
    exact ⟨_, rfl, hrest⟩

/-- Every call returns. -/
theorem Yields.returns (h : Yields gen s values) : gen s ≠ none := by
  cases h with
  | done hend => rw [hend]; exact Option.some_ne_none _
  | more hmore _ => rw [hmore]; exact Option.some_ne_none _

/-- A generator returns one list of values only. -/
theorem Yields.unique (h : Yields gen s values) (h' : Yields gen s values') :
    values = values' := by
  induction h generalizing values' with
  | done hend =>
    cases h' with
    | done _ => rfl
    | more hmore _ => rw [hend] at hmore; cases hmore
  | more hmore _ ih =>
    obtain ⟨rest, rfl, hrest⟩ := h'.tail hmore
    rw [ih hrest]

end SimpleParallel
