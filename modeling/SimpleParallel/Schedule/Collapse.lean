import SimpleParallel.Lib.Generator
import SimpleParallel.Schedule.Gss

/-!
# Collapsed loops

`s_p_collapse_2_gss_generator` (`c_dynamic_schedule_binding.cc`) cuts the points of a
nest of two loops into tasks. It does not know the points: `gen_func`, a function of
the user, leads from a point to the one `count` points further on. The loop of
`S_P_GSS_UINT64_T_PAR_FOR_COLLAPSE_2` (`c_dynamic_schedule_binding.h`) goes through a
task with the same function, one point at a time.

* A failed assertion ends the program unless `ndebug`, and a division by zero always:
  the generator then returns nothing.
* `Enumerates` says which points a space has and what `gen_func` does on them.
-/

namespace SimpleParallel.Schedule

/-- `s_p_ij_point_t`. -/
@[ext] structure IjPoint where
  i : UInt64
  j : UInt64
  deriving DecidableEq

/-- `s_p_collapse_2_task`. -/
structure Collapse2Task where
  ijBegin : IjPoint
  ijEnd : IjPoint
  deriving DecidableEq

/-- `collapse_2_gss_gen_func_res_t`. -/
structure GenFuncRes where
  ijEnd : IjPoint
  count : UInt64
  deriving DecidableEq

/-- A `collapse_2_gss_gen_func` with its `state`: from `current` on, towards
`final_end`, so many points. -/
abbrev GenFunc := IjPoint → IjPoint → UInt64 → GenFuncRes

/-- `s_p_collapse_2_gss_state_t`. -/
structure Collapse2GssState where
  current : IjPoint
  finalEnd : IjPoint
  remainingIndex : UInt64
  grainSize : UInt64
  allRankProcessCount : UInt64
  genFunc : GenFunc

namespace Collapse2GssState

/-- How many points a call asks for. -/
def next (state : Collapse2GssState) : UInt64 :=
  let next := (state.remainingIndex - 1) / state.allRankProcessCount + 1
  let next := max next state.grainSize
  min next state.remainingIndex

/-- The call of `gen_func`. -/
def genRes (state : Collapse2GssState) : GenFuncRes :=
  state.genFunc state.current state.finalEnd state.next

end Collapse2GssState

/-- `s_p_collapse_2_gss_generator`. -/
def collapse2GssGenerator (ndebug : Bool) (state : Collapse2GssState) :
    Option (Collapse2GssState × Option Collapse2Task) :=
  if state.current.i = state.finalEnd.i then
    if ndebug || state.remainingIndex = 0 then some (state, none) else none
  else if state.allRankProcessCount = 0 then
    none
  else if ndebug || state.genRes.count ≠ 0 then
    some ({ state with
        current := state.genRes.ijEnd
        remainingIndex := state.remainingIndex - state.genRes.count },
      some ⟨state.current, state.genRes.ijEnd⟩)
  else
    none

/-- The loop of `S_P_GSS_UINT64_T_PAR_FOR_COLLAPSE_2` over a task: the body runs on
`ij` unless it is the end of the task. -/
def loopStep (genFunc : GenFunc) (finalEnd ijEnd ij : IjPoint) :
    Option (IjPoint × Option IjPoint) :=
  if ij.i ≠ ijEnd.i ∨ ij.j ≠ ijEnd.j then some ((genFunc ij finalEnd 1).ijEnd, some ij)
  else some (ij, none)

/-- `s_p_new_collapse_2_gss_state`, after the sum of the process counts. -/
def newCollapse2GssState (ijBegin finalEnd : IjPoint) (grainSize allIndexCount : UInt64)
    (genFunc : GenFunc) (allRankProcessCount : UInt64) : Collapse2GssState :=
  ⟨ijBegin, finalEnd, allIndexCount, grainSize, allRankProcessCount, genFunc⟩

/-- A space of `n` points `p 0 .. p (n - 1)`, and a function that enumerates it. `p n`
is where the enumeration ends. -/
structure Enumerates (genFunc : GenFunc) (finalEnd : IjPoint) (p : Nat → IjPoint) (n : Nat) :
    Prop where
  injective : ∀ k l, k ≤ n → l ≤ n → p k = p l → k = l
  last : (p n).i = finalEnd.i
  inner : ∀ k < n, (p k).i ≠ finalEnd.i
  step : ∀ k < n, ∀ count : UInt64, 1 ≤ count → genFunc (p k) finalEnd count =
    ⟨p (min (k + count.toNat) n), .ofNat (min count.toNat (n - k))⟩

end SimpleParallel.Schedule
