import SimpleParallel.Reduce.Area

/-!
# Parallel contexts

`par_ctx_base` of `leader.cc` with its three wrappers: the C++ class `par_ctx`,
the C binding and the Fortran binding. A member function works on the global
flag `in_parallel`, on its object, and on the list of the collective calls that
the leader has made; an exception leaves what was done before it. Every call
that may fail does so as the kernel and MPI please.

* `doEnterParallel_cases`: the ways `do_enter_parallel` can end.
* `Exits`: what exiting and destroying a context do, in each wrapper.
-/

namespace SimpleParallel.Context

open Loops Reduce Sync

/-! ## Collective calls -/

/-- A collective call on `s_p_comm`. The pointer that the entry broadcasts and
the calls of an exit tell the context. -/
inductive Collective
  | rpcTag | memOps | stack | heap
  | parallelCtx (id : Nat)
  | fortranGlobalVariables
  | reduce (id addr count : Nat) (type : MpiDatatype) (op : MpiOp)
  deriving DecidableEq

/-- `rpc_tag`. -/
inductive RpcTag
  | exit
  | runFunctionWithoutContext
  | enterParallel
  deriving DecidableEq

/-! ## The base class -/

/-- `s_p_comm` or `s_p_comm_self`. -/
inductive Comm
  | world
  | self
  deriving DecidableEq

def Comm.size (worldSize : Nat) : Comm → Nat
  | world => worldSize
  | self => 1

/-- `par_ctx_base`. -/
structure ParCtxBase where
  comm : Comm
  reduces : List ReduceArea
  enteredParallel : Bool
  deriving DecidableEq

/-- The constructor of `par_ctx_base`. -/
def ParCtxBase.new (reduces : List ReduceArea) : ParCtxBase := ⟨.world, reduces, false⟩

/-- What a member function works on: the global flag, its object, and the calls
it has made. An exception leaves them as they are. -/
structure Frame (α : Type) where
  inParallel : Bool
  object : α
  calls : List Collective

abbrev Member (α : Type) := EStateM String (Frame α)

/-- `global_variable_info`. -/
structure GlobalVariableInfo where
  name : MemArea
  area : MemArea
  deriving DecidableEq

/-- `sync_fortran_global_variables` on the ranks. -/
structure FortranStep where
  /-- The variables that a rank finds, or the exception of its search. -/
  collect : Nat → Except String (List GlobalVariableInfo)
  /-- The rank stays in its calls unless all ranks make the same: in the debug build, which
  first gathers the counts and then stops at an assertion; in the release build with a
  variable, if MPI waits. -/
  keeps : Nat → Bool

namespace FortranStep

/-- The exception that leaves the step on a rank. -/
def throws (step : FortranStep) (rank : Nat) : Option String :=
  match step.collect rank with
  | .error what => some what
  | .ok _ => none

def vars (step : FortranStep) (rank : Nat) : Option (List GlobalVariableInfo) :=
  (step.collect rank).toOption

/-- All ranks find the variables of the leader. -/
def Alike (worldSize : Nat) (step : FortranStep) : Prop :=
  ∃ vars, step.collect 0 = .ok vars ∧ ∀ rank < worldSize, step.collect rank = .ok vars

theorem throws_of_collect {step : FortranStep} {rank : Nat} {vars : List GlobalVariableInfo}
    (h : step.collect rank = .ok vars) : step.throws rank = none := by
  rw [throws, h]

theorem vars_of_collect {step : FortranStep} {rank : Nat} {vars : List GlobalVariableInfo}
    (h : step.collect rank = .ok vars) : step.vars rank = some vars := by
  rw [FortranStep.vars, h]
  rfl

end FortranStep

/-- How the calls that may fail in one `do_enter_parallel` end: the reasons for
which `getcontext` and `swapcontext` fail, the number of calls that
`enter_parallel_impl` makes when an exception ends it, and the step of a build with
the Fortran binding. -/
structure Kernel where
  getcontext : Option String
  swapcontext : Option String
  impl : Option Nat
  fortran : Option FortranStep

namespace Kernel

/-- No call fails. -/
def ok : Kernel := ⟨none, none, none, none⟩

/-- The exception of the Fortran step on a rank. -/
def fortranThrows (kernel : Kernel) (rank : Nat) : Option String :=
  kernel.fortran.bind (·.throws rank)

/-- Nothing fails in the Fortran step. -/
def FortranAlike (worldSize : Nat) (kernel : Kernel) : Prop :=
  ∀ step, kernel.fortran = some step → step.Alike worldSize

theorem FortranAlike.leader {worldSize : Nat} {kernel : Kernel}
    (h : kernel.FortranAlike worldSize) : kernel.fortranThrows 0 = none := by
  unfold fortranThrows
  cases hstep : kernel.fortran with
  | none => rfl
  | some step =>
    obtain ⟨vars, hleader, -⟩ := h step hstep
    exact FortranStep.throws_of_collect hleader

end Kernel

/-- The calls of `enter_parallel_impl`. It catches its exceptions, and nobody
looks at them after the switch. -/
def enterParallelImpl (id : Nat) (kernel : Kernel) : List Collective :=
  let calls := [.rpcTag, .memOps, .stack, .heap, .parallelCtx id]
  match kernel.impl with
  | none => calls
  | some made => calls.take made

/-- `do_enter_parallel` on the leader. It starts the calls over the Fortran variables; without
the binding there are none. -/
def doEnterParallel (worldSize id : Nat) (kernel : Kernel) (enterParallel : Bool) :
    Member ParCtxBase Unit := do
  let f ← get
  if enterParallel = false ∨ f.object.comm.size worldSize = 1 then
    set { f with object := { f.object with comm := .self } }
  else if f.inParallel then
    throw "Error: nested parallel is not supported\n"
  else
    set { f with inParallel := true, object := { f.object with enteredParallel := true } }
    match kernel.getcontext with
    | some reason => throw ("Failed to getcontext, reason: " ++ reason)
    | none => pure ()
    match verifyReducesNoOverlap f.object.reduces with
    | .error what => throw what
    | .ok () => pure ()
    match kernel.swapcontext with
    | some reason => throw ("Failed to swapcontext, reason: " ++ reason)
    | none => pure ()
    modify fun f => { f with calls := f.calls ++ enterParallelImpl id kernel }
    match kernel.fortranThrows 0 with
    | some what => throw what
    | none => modify fun f => { f with calls := f.calls ++ [.fortranGlobalVariables] }

/-- The calls of MPI that `reduce_area::reduce` makes. -/
def reduceCalls (id : Nat) (r : ReduceArea) : List Collective :=
  (chunks intMax r.count).map fun c =>
    .reduce id (r.begin + c.1 * r.type.size) c.2 r.type r.op

/-- `do_exit_parallel` on the leader, when MPI refuses the call with the number
`refused`. -/
def doExitParallel (worldSize id : Nat) (refused : Option Nat) : Member ParCtxBase Unit := do
  let f ← get
  if f.object.enteredParallel then
    set { f with inParallel := false }
    if 1 < f.object.comm.size worldSize then
      let calls := f.object.reduces.flatMap (reduceCalls id)
      match refused.filter (· < calls.length) with
      | some i =>
        modify fun f => { f with calls := f.calls ++ calls.take (i + 1) }
        throw "Failed to reduce"
      | none => modify fun f => { f with calls := f.calls ++ calls }

/-! ## The wrappers -/

/-- `par_ctx_fortran_binding`. Its vector `m_reduces` is the span of its base. -/
structure ParCtxFortranBinding extends ParCtxBase where
  mInParallel : Bool
  mEverEnteredParallel : Bool
  deriving DecidableEq

namespace ParCtxFortranBinding

def new : ParCtxFortranBinding := ⟨.new [], false, false⟩

/-- A call of a member function of the base class. -/
def onBase (f : Member ParCtxBase Unit) : Member ParCtxFortranBinding Unit := fun s =>
  match f.run ⟨s.inParallel, s.object.toParCtxBase, s.calls⟩ with
  | .ok _ t => .ok () ⟨t.inParallel, { s.object with toParCtxBase := t.object }, t.calls⟩
  | .error e t => .error e ⟨t.inParallel, { s.object with toParCtxBase := t.object }, t.calls⟩

/-- `add_reduce_area`. -/
def addReduceArea (r : ReduceArea) (b : ParCtxFortranBinding) : ParCtxFortranBinding :=
  { b with reduces := b.reduces ++ [r] }

/-- `enter_parallel`. -/
def enterParallel (worldSize id : Nat) (kernel : Kernel) (enter : Bool) :
    Member ParCtxFortranBinding Unit := do
  let f ← get
  if f.object.mInParallel then
    throw "Error: Recursively enter Fortran parallel context again is not supported"
  else if f.object.mEverEnteredParallel then
    throw "Error: Re-enter Fortran parallel context is not supported"
  else
    set { f with object := { f.object with mInParallel := true, mEverEnteredParallel := true } }
    onBase (doEnterParallel worldSize id kernel enter)

/-- `exit_parallel`. -/
def exitParallel (worldSize id : Nat) (refused : Option Nat) : Member ParCtxFortranBinding Unit := do
  let f ← get
  if f.object.mInParallel then
    set { f with object := { f.object with mInParallel := false } }
    onBase (doExitParallel worldSize id refused)

/-- The destructor. -/
def destroy (worldSize id : Nat) (refused : Option Nat) : Member ParCtxFortranBinding Unit := do
  let f ← get
  if f.object.mInParallel then
    exitParallel worldSize id refused

end ParCtxFortranBinding

/-- The wrappers whose constructor enters and whose destructor exits. -/
inductive RaiiWrapper
  | parCtx
  | cBinding
  deriving DecidableEq

inductive Ctx
  | raii (wrapper : RaiiWrapper) (base : ParCtxBase)
  | fortran (binding : ParCtxFortranBinding)
  deriving DecidableEq

/-- How a call of a member function ends: what it throws, the flag, the object,
and the calls it made. -/
structure Outcome where
  thrown : Option String
  inParallel : Bool
  ctx : Ctx
  calls : List Collective
  deriving DecidableEq

def outcome {α : Type} (wrap : α → Ctx) (f : Member α Unit) (inParallel : Bool) (object : α) :
    Outcome :=
  match f.run ⟨inParallel, object, []⟩ with
  | .ok _ s => ⟨none, s.inParallel, wrap s.object, s.calls⟩
  | .error what s => ⟨some what, s.inParallel, wrap s.object, s.calls⟩

namespace Ctx

def base : Ctx → ParCtxBase
  | raii _ base => base
  | fortran b => b.toParCtxBase

/-- The constructor of `par_ctx` and of `par_ctx_c_binding`. -/
def construct (worldSize id : Nat) (wrapper : RaiiWrapper) (enterParallel : Bool)
    (reduces : List ReduceArea) (kernel : Kernel) (inParallel : Bool) : Outcome :=
  outcome (raii wrapper) (doEnterParallel worldSize id kernel enterParallel) inParallel
    (.new reduces)

/-- The destructors. -/
def destroy (worldSize id : Nat) (refused : Option Nat) (inParallel : Bool) : Ctx → Outcome
  | raii wrapper base =>
    outcome (raii wrapper) (doExitParallel worldSize id refused) inParallel base
  | fortran b => outcome fortran (ParCtxFortranBinding.destroy worldSize id refused) inParallel b

/-- Leaving the context clears the global flag. -/
def active : Ctx → Bool
  | raii _ base => base.enteredParallel
  | fortran b => b.mInParallel && b.enteredParallel

end Ctx

/-! ## How the members end -/

section

variable {n id : Nat} {kernel : Kernel} {enter p : Bool} {refused : Option Nat}

/-- The frame once both flags are set. -/
def Frame.raised (f : Frame ParCtxBase) : Frame ParCtxBase :=
  { f with inParallel := true, object := { f.object with enteredParallel := true } }

/-- `do_enter_parallel` does not make the context parallel. -/
def Alone (worldSize : Nat) (enterParallel : Bool) (ctx : ParCtxBase) : Prop :=
  enterParallel = false ∨ ctx.comm.size worldSize = 1

/-- It becomes a context of one process, finds a section in progress, or sets
both flags before it fails or makes its calls. Where it fails, it has made all of
`enter_parallel_impl` or none. -/
theorem doEnterParallel_cases (n id : Nat) (kernel : Kernel) (enter : Bool)
    (f : Frame ParCtxBase) :
    (Alone n enter f.object ∧ (doEnterParallel n id kernel enter).run f =
        .ok () { f with object := { f.object with comm := .self } }) ∨
    (¬ Alone n enter f.object ∧ f.inParallel = true ∧
      (doEnterParallel n id kernel enter).run f =
        .error "Error: nested parallel is not supported\n" f) ∨
    (¬ Alone n enter f.object ∧ f.inParallel = false ∧
      ((∃ what calls, (doEnterParallel n id kernel enter).run f =
          .error what { f.raised with calls := f.calls ++ calls }) ∨
        (doEnterParallel n id kernel enter).run f = .ok () { f.raised with
          calls := f.calls ++ enterParallelImpl id kernel ++ [.fortranGlobalVariables] })) := by
  simp only [doEnterParallel, Alone, EStateM.run_bind, EStateM.run_get]
  by_cases halone : enter = false ∨ f.object.comm.size n = 1
  · simp [halone]
  · cases hp : f.inParallel with
    | true => simp [halone]
    | false =>
      refine .inr (.inr ⟨halone, rfl, ?_⟩)
      simp only [halone]
      cases hget : kernel.getcontext with
      | some reason => exact .inl ⟨_, [], by rw [List.append_nil]; rfl⟩
      | none =>
        cases hverify : verifyReducesNoOverlap f.object.reduces with
        | error what => exact .inl ⟨_, [], by rw [List.append_nil]; rfl⟩
        | ok u =>
          cases hswap : kernel.swapcontext with
          | some reason => exact .inl ⟨_, [], by rw [List.append_nil]; rfl⟩
          | none =>
            cases hfortran : kernel.fortranThrows 0 with
            | some what => exact .inl ⟨what, enterParallelImpl id kernel, rfl⟩
            | none => exact .inr rfl

/-- The flag is cleared by a context that was entered, also when MPI refuses a
call. -/
theorem doExitParallel_cases (n id : Nat) (refused : Option Nat) (f : Frame ParCtxBase) :
    ∃ calls, (f.object.enteredParallel = false → calls = f.calls) ∧
      ((doExitParallel n id refused).run f =
          .ok () { f with inParallel := f.inParallel && !f.object.enteredParallel, calls } ∨
        (f.object.enteredParallel = true ∧ refused ≠ none ∧
          (doExitParallel n id refused).run f = .error "Failed to reduce"
            { f with inParallel := f.inParallel && !f.object.enteredParallel, calls })) := by
  simp only [doExitParallel, EStateM.run_bind, EStateM.run_get]
  cases hentered : f.object.enteredParallel with
  | false => exact ⟨f.calls, fun _ => rfl, .inl (by simp)⟩
  | true =>
    simp only [Bool.not_true, Bool.and_false, if_true, EStateM.run_bind, EStateM.run_set]
    split
    · split
      · next i hi =>
        exact ⟨_, nofun, .inr ⟨trivial, fun h => by simp [h] at hi, rfl⟩⟩
      · exact ⟨_, nofun, .inl rfl⟩
    · exact ⟨_, nofun, .inl rfl⟩

section

variable {α : Type} {wrap : α → Ctx} {f : Member α Unit} {g : Frame α} {object : α} {what : String}

theorem outcome_ok (h : f.run ⟨p, object, []⟩ = .ok () g) :
    outcome wrap f p object = ⟨none, g.inParallel, wrap g.object, g.calls⟩ := by
  rw [outcome, h]

theorem outcome_error (h : f.run ⟨p, object, []⟩ = .error what g) :
    outcome wrap f p object = ⟨some what, g.inParallel, wrap g.object, g.calls⟩ := by
  rw [outcome, h]

end

/-! ### Constructors -/

theorem Ctx.construct_ok {wrapper : RaiiWrapper} {reduces : List ReduceArea}
    {f : Frame ParCtxBase}
    (h : (doEnterParallel n id kernel enter).run ⟨p, .new reduces, []⟩ = .ok () f) :
    construct n id wrapper enter reduces kernel p =
      ⟨none, f.inParallel, raii wrapper f.object, f.calls⟩ := outcome_ok h

theorem Ctx.construct_error {wrapper : RaiiWrapper} {reduces : List ReduceArea}
    {f : Frame ParCtxBase} {what : String}
    (h : (doEnterParallel n id kernel enter).run ⟨p, .new reduces, []⟩ = .error what f) :
    construct n id wrapper enter reduces kernel p =
      ⟨some what, f.inParallel, raii wrapper f.object, f.calls⟩ := outcome_error h

/-! ### The Fortran binding -/

namespace ParCtxFortranBinding

variable {b : ParCtxFortranBinding} {f : Member ParCtxBase Unit} {g : Frame ParCtxBase}
  {what : String}

theorem outcome_onBase_ok (h : f.run ⟨p, b.toParCtxBase, []⟩ = .ok () g) :
    outcome .fortran (onBase f) p b =
      ⟨none, g.inParallel, .fortran { b with toParCtxBase := g.object }, g.calls⟩ := by
  simp only [outcome, onBase, EStateM.run] at h ⊢
  rw [h]

theorem outcome_onBase_error (h : f.run ⟨p, b.toParCtxBase, []⟩ = .error what g) :
    outcome .fortran (onBase f) p b =
      ⟨some what, g.inParallel, .fortran { b with toParCtxBase := g.object }, g.calls⟩ := by
  simp only [outcome, onBase, EStateM.run] at h ⊢
  rw [h]

/-- The binding has not begun a section before. -/
def Fresh (b : ParCtxFortranBinding) : Prop :=
  b.mInParallel = false ∧ b.mEverEnteredParallel = false

instance : Decidable b.Fresh := inferInstanceAs (Decidable (_ ∧ _))

theorem enterParallel_refused (h : ¬ b.Fresh) : ∃ what,
    outcome .fortran (enterParallel n id kernel enter) p b = ⟨some what, p, .fortran b, []⟩ := by
  simp only [outcome, enterParallel, EStateM.run_bind, EStateM.run_get]
  cases hin : b.mInParallel with
  | true => exact ⟨_, rfl⟩
  | false =>
    cases hever : b.mEverEnteredParallel with
    | true => exact ⟨_, rfl⟩
    | false => exact absurd ⟨hin, hever⟩ h

theorem enterParallel_fresh (h : b.Fresh) :
    outcome .fortran (enterParallel n id kernel enter) p b =
      outcome .fortran (onBase (doEnterParallel n id kernel enter)) p ⟨b.toParCtxBase, true, true⟩ := by
  simp [outcome, enterParallel, h.1, h.2]

theorem enterParallel_ok (h : b.Fresh)
    (hrun : (doEnterParallel n id kernel enter).run ⟨p, b.toParCtxBase, []⟩ = .ok () g) :
    outcome .fortran (enterParallel n id kernel enter) p b =
      ⟨none, g.inParallel, .fortran ⟨g.object, true, true⟩, g.calls⟩ :=
  (enterParallel_fresh h).trans (outcome_onBase_ok (b := ⟨b.toParCtxBase, true, true⟩) hrun)

theorem enterParallel_error (h : b.Fresh)
    (hrun : (doEnterParallel n id kernel enter).run ⟨p, b.toParCtxBase, []⟩ = .error what g) :
    outcome .fortran (enterParallel n id kernel enter) p b =
      ⟨some what, g.inParallel, .fortran ⟨g.object, true, true⟩, g.calls⟩ :=
  (enterParallel_fresh h).trans (outcome_onBase_error (b := ⟨b.toParCtxBase, true, true⟩) hrun)

theorem exitParallel_in (h : b.mInParallel = true) :
    outcome .fortran (exitParallel n id refused) p b =
      outcome .fortran (onBase (doExitParallel n id refused)) p { b with mInParallel := false } := by
  simp [outcome, exitParallel, h]

theorem exitParallel_out (h : b.mInParallel = false) :
    outcome .fortran (exitParallel n id refused) p b = ⟨none, p, .fortran b, []⟩ := by
  simp [outcome, exitParallel, h]

/-- The destructor exits. -/
theorem destroy_eq : outcome .fortran (destroy n id refused) p b =
    outcome .fortran (exitParallel n id refused) p b := by
  cases h : b.mInParallel with
  | true => simp [outcome, destroy, h]
  | false => simp [outcome, destroy, exitParallel, h]

end ParCtxFortranBinding

/-- An exit clears the flag if the context is active, and else makes no call. -/
structure Exits (c : Ctx) (refused : Option Nat) (inParallel : Bool) (o : Outcome) : Prop where
  inParallel : o.inParallel = (inParallel && !c.active)
  idle : c.active = false → o.thrown = none ∧ o.calls = []
  thrown : refused = none → o.thrown = none

theorem exits_base {base : ParCtxBase} {wrap : ParCtxBase → Ctx} {c : Ctx}
    (hc : c.active = base.enteredParallel) :
    Exits c refused p (outcome wrap (doExitParallel n id refused) p base) := by
  obtain ⟨calls, hidle, hrun | ⟨hentered, hrefused, hrun⟩⟩ :=
    doExitParallel_cases n id refused ⟨p, base, []⟩
  · rw [outcome_ok hrun]
    exact ⟨by simp [hc], fun h => ⟨rfl, hidle (hc ▸ h)⟩, fun _ => rfl⟩
  · rw [outcome_error hrun]
    refine ⟨by simp [hc], fun h => ?_, fun h => absurd h hrefused⟩
    rw [hc, hentered] at h
    cases h

namespace ParCtxFortranBinding

theorem exitParallel_exits {b : ParCtxFortranBinding} :
    Exits (.fortran b) refused p (outcome .fortran (exitParallel n id refused) p b) ∧
      (outcome .fortran (exitParallel n id refused) p b).ctx =
        .fortran { b with mInParallel := false } := by
  cases hin : b.mInParallel with
  | false =>
    have hactive : (Ctx.fortran b).active = false := by simp [Ctx.active, hin]
    rw [exitParallel_out hin]
    refine ⟨⟨by simp [hactive], fun _ => ⟨rfl, rfl⟩, fun _ => rfl⟩, ?_⟩
    cases b
    cases hin
    rfl
  | true =>
    have hactive : (Ctx.fortran b).active = b.enteredParallel := by simp [Ctx.active, hin]
    rw [exitParallel_in hin]
    obtain ⟨calls, hidle, hrun | ⟨hentered, hrefused, hrun⟩⟩ :=
      doExitParallel_cases n id refused ⟨p, b.toParCtxBase, []⟩
    · rw [outcome_onBase_ok (b := { b with mInParallel := false }) hrun]
      exact ⟨⟨by simp [hactive], fun h => ⟨rfl, hidle (hactive ▸ h)⟩, fun _ => rfl⟩, rfl⟩
    · rw [outcome_onBase_error (b := { b with mInParallel := false }) hrun]
      refine ⟨⟨by simp [hactive], fun h => ?_, fun h => absurd h hrefused⟩, rfl⟩
      rw [hactive, hentered] at h
      cases h

end ParCtxFortranBinding

theorem Ctx.destroy_exits (c : Ctx) : Exits c refused p (c.destroy n id refused p) := by
  cases c with
  | raii wrapper base => exact exits_base rfl
  | fortran b =>
    rw [Ctx.destroy, ParCtxFortranBinding.destroy_eq]
    exact ParCtxFortranBinding.exitParallel_exits.1

end

end SimpleParallel.Context
