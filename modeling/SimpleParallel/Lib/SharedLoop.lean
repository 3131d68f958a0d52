import Mathlib.Data.List.Perm.Basic
import SimpleParallel.Lib.LTS

/-!
# Shared loops

A loop whose elements several ranks share out, as a system of its own. A program that
runs such a loop needs to know of it which ranks run the body for which elements, and
that at its end the body has run for all of them; `SharedLoop` has this as its fields.
-/

namespace SimpleParallel

/-- A loop of `size` ranks. -/
structure SharedLoop (size : Nat) (β : Type) where
  State : Type
  Label : Type
  sys : LTS.Sys State Label
  start : State
  /-- The rank that runs the body in a step, and for which element. -/
  visit? : Label → Option (Fin size × β)
  /-- What the body has run for. -/
  ran : State → List β
  /-- The ranks are through with the loop. -/
  Done : State → Prop
  /-- The elements, as a serial loop runs through them. -/
  elements : List β
  /-- What a step must meet for the loop to come to its end. -/
  Good : State → Label → Prop
  start_init : sys.init start
  ran_start : ran start = []
  ran_step : ∀ {s t : State} {l : Label}, sys.step s l t →
    (ran t).Perm (ran s ++ ((visit? l).map Prod.snd).toList)
  ran_done : ∀ {s : State}, LTS.Reachable sys s → Done s → (ran s).Perm elements
  exists_done : ∀ {s : State}, LTS.Reachable (sys.restrict Good) s →
    ∃ t, LTS.Reachable ((sys.restrict Good).startingAt s) t ∧ Done t

variable {size : Nat} {β : Type} {r : Nat}

/-- The visit of an element by a rank that has a number only. -/
def visitAt (size r : Nat) (x : β) : Option (Fin size × β) :=
  if h : r < size then some (⟨r, h⟩, x) else none

theorem visitAt_map (h : r < size) (x : β) : ((visitAt size r x).map Prod.snd).toList = [x] := by
  rw [visitAt, dif_pos h]
  rfl

end SimpleParallel
