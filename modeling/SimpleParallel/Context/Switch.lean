import Mathlib.Data.List.TakeWhile
import SimpleParallel.Sync.Scan
import SimpleParallel.Context.Program

/-!
# Failures on the second stack

`enter_parallel_impl` of `leader.cc` step by step, with the exceptions that its
steps raise. It runs on a stack of its own, where nobody catches them, so it
keeps them in `params`. `do_enter_parallel` looks at `params` after
`makecontext`, which only prepares the function, and not after `swapcontext`,
which runs it.

* `refines`: `do_enter_parallel` of `ParCtx.lean` is what remains of the call
  without its steps.
* `failuresRethrown_iff`: an exception of a step is rethrown exactly if there
  is none: the body starts whatever the steps raised.
* `failuresRethrown_not`: a page map that cannot be read.
-/

namespace SimpleParallel.Context

open LTS Reduce Sync

/-! ## The steps -/

/-- The steps of `enter_parallel_impl`. There is one `get_pte` for every
interval of `malloc_pages`. -/
inductive ImplStep
  | sendRpcTag | sendMemOps | sendStack
  | getPte (range : PteRange)
  | sendDirtyPage | sendZeroedPage
  | bcastParallelCtx
  | clearSoftDirty
  deriving DecidableEq

def implSteps (mallocPages : List PteRange) : List ImplStep :=
  [.sendRpcTag, .sendMemOps, .sendStack] ++ mallocPages.map .getPte ++
    [.sendDirtyPage, .sendZeroedPage, .bcastParallelCtx, .clearSoftDirty]

/-- The calls on `s_p_comm` that have been made when the step completes. The
heap counts when its second half has been sent. -/
def ImplStep.calls (id : Nat) : ImplStep → List Collective
  | sendRpcTag => [.rpcTag]
  | sendMemOps => [.memOps]
  | sendStack => [.stack]
  | sendZeroedPage => [.heap]
  | bcastParallelCtx => [.parallelCtx id]
  | getPte _ | sendDirtyPage | clearSoftDirty => []

/-- What the kernel, MPI and the allocator answer during one call of
`do_enter_parallel`, and the pages of the leader's blocks. -/
structure Answers where
  getcontext : Option String
  swapcontext : Option String
  mallocPages : List PteRange
  /-- The reason for which `/proc/self/pagemap` cannot be opened or read. -/
  openPagemap : Option String
  readPagemap : PteRange → Option String
  /-- The stream `clear_refs` is good. -/
  clearRefs : Bool
  /-- What MPI or the allocator throws in a step. -/
  other : ImplStep → Option String
  fortran : Option FortranStep

namespace Answers

/-- `pagemap::instance` and `pagemap::read`. -/
def readPte (a : Answers) (range : PteRange) : Option String :=
  match a.openPagemap with
  | some reason => some ("Failed to open /proc/self/pagemap, reason: " ++ reason)
  | none => (a.readPagemap range).map ("Failed to read /proc/self/pagemap, reason: " ++ ·)

/-- `clear_soft_dirty`. -/
def clearSoftDirty (a : Answers) : Option String :=
  if a.clearRefs then none else some "Failed to open /proc/self/clear_refs"

/-- The exception of a step. -/
def raises (a : Answers) (step : ImplStep) : Option String :=
  (a.other step).or <|
    match step with
    | .getPte range => a.readPte range
    | .clearSoftDirty => a.clearSoftDirty
    | _ => none

end Answers

/-! ## The call -/

/-- An exception: its text, and the step in which it was raised, if it was in one. -/
structure Raised where
  step : Option ImplStep
  what : String

/-- The member `exception` of `enter_parallel_impl_params`. The others are the
arguments of the functions below. -/
structure EnterParallelImplParams where
  exception : Option Raised

/-- The frame of the call, with what its steps did. -/
structure SyncFrame extends Frame ParCtxBase where
  completed : List ImplStep
  exceptions : List (ImplStep × String)

abbrev SyncMember := EStateM Raised SyncFrame

def performStep (id : Nat) (a : Answers) (step : ImplStep) : SyncMember Unit := do
  match a.raises step with
  | some what =>
    modify fun f => { f with exceptions := f.exceptions ++ [(step, what)] }
    throw ⟨step, what⟩
  | none =>
    modify fun f =>
      { f with completed := f.completed ++ [step], calls := f.calls ++ step.calls id }

/-- The function body of `enter_parallel_impl`. -/
def performSteps (id : Nat) (a : Answers) : SyncMember Unit :=
  (implSteps a.mallocPages).forM (performStep id a)

/-- `enter_parallel_impl`, with its function try block. -/
def enterParallelImplTry (id : Nat) (a : Answers) (params : EnterParallelImplParams) :
    SyncMember EnterParallelImplParams :=
  tryCatch (do performSteps id a; pure params) fun e =>
    pure { params with exception := some e }

/-- `do_enter_parallel`, with the second stack. -/
def doEnterParallelSync (worldSize id : Nat) (a : Answers) (enterParallel : Bool) :
    SyncMember Unit := do
  let f ← get
  if enterParallel = false ∨ f.object.comm.size worldSize = 1 then
    set { f with object := { f.object with comm := .self } }
  else if f.inParallel then
    throw ⟨none, "Error: nested parallel is not supported\n"⟩
  else
    set { f with inParallel := true, object := { f.object with enteredParallel := true } }
    match a.getcontext with
    | some reason => throw ⟨none, "Failed to getcontext, reason: " ++ reason⟩
    | none => pure ()
    let params : EnterParallelImplParams := ⟨none⟩
    -- `makecontext` does not run the function
    match params.exception with
    | some e => throw e
    | none => pure ()
    match verifyReducesNoOverlap f.object.reduces with
    | .error what => throw ⟨none, what⟩
    | .ok () => pure ()
    match a.swapcontext with
    | some reason => throw ⟨none, "Failed to swapcontext, reason: " ++ reason⟩
    | none => pure ()
    let _ ← enterParallelImplTry id a params
    match a.fortran.bind (·.throws 0) with
    | some what => throw ⟨none, what⟩
    | none => modify fun f => { f with calls := f.calls ++ [.fortranGlobalVariables] }

namespace Answers

/-- The first step that raises an exception. -/
def failure (a : Answers) : Option (ImplStep × String) :=
  (implSteps a.mallocPages).findSome? fun step => (a.raises step).map (step, ·)

/-- The steps before it. -/
def completed (a : Answers) : List ImplStep :=
  (implSteps a.mallocPages).takeWhile fun step => (a.raises step).isNone

/-- The answers as the model of the wrappers sees them. -/
def kernel (id : Nat) (a : Answers) : Kernel where
  getcontext := a.getcontext
  swapcontext := a.swapcontext
  impl := a.failure.map fun _ => (a.completed.flatMap (·.calls id)).length
  fortran := a.fortran

end Answers

/-! ## What the steps do -/

section

variable {n id : Nat} {a : Answers} {enter : Bool} {f : SyncFrame} {steps : List ImplStep}

/-- The frame after some more steps. -/
def SyncFrame.advance (id : Nat) (steps : List ImplStep) (f : SyncFrame) : SyncFrame :=
  { f with completed := f.completed ++ steps, calls := f.calls ++ steps.flatMap (·.calls id) }

/-- The loop over the steps stops at the first one that raises. -/
theorem forM_performStep (f : SyncFrame) :
    (steps.forM (performStep id a)).run f =
      match steps.findSome? fun step => (a.raises step).map (step, ·) with
      | none => .ok () (f.advance id steps)
      | some (step, what) =>
        let g := f.advance id (steps.takeWhile fun step => (a.raises step).isNone)
        .error ⟨step, what⟩ { g with exceptions := g.exceptions ++ [(step, what)] } := by
  induction steps generalizing f with
  | nil => simp [SyncFrame.advance, EStateM.run, pure, EStateM.pure]
  | cons step steps ih =>
    have hcons : (step :: steps).forM (performStep id a) =
        performStep id a step >>= fun _ => steps.forM (performStep id a) := rfl
    rw [hcons, EStateM.run_bind]
    cases hraises : a.raises step with
    | some what => simp [performStep, hraises, SyncFrame.advance, EStateM.run_bind]
    | none =>
      have hstep : (performStep id a step).run f = .ok () (f.advance id [step]) := by
        simp [performStep, hraises, SyncFrame.advance]
      rw [hstep]
      simp only [ih, List.findSome?_cons, hraises, Option.map_none, List.takeWhile_cons,
        Option.isNone_none, if_true]
      have hadvance : ∀ rest, (f.advance id [step]).advance id rest = f.advance id (step :: rest) :=
        fun rest => by simp [SyncFrame.advance, List.flatMap_cons]
      simp only [hadvance]

/-- The frame when the second stack is left. -/
def SyncFrame.synced (id : Nat) (a : Answers) (f : SyncFrame) : SyncFrame :=
  let g := f.advance id a.completed
  { g with exceptions := g.exceptions ++ a.failure.toList }

theorem completed_of_noFailure (h : a.failure = none) : a.completed = implSteps a.mallocPages := by
  rw [Answers.failure, List.findSome?_eq_none_iff] at h
  rw [Answers.completed, List.takeWhile_eq_self_iff]
  intro step hstep
  have := h step hstep
  rw [Option.map_eq_none_iff] at this
  rw [this]
  rfl

theorem noFailure_iff :
    a.failure = none ↔ ∀ step ∈ implSteps a.mallocPages, a.raises step = none := by
  simp only [Answers.failure, List.findSome?_eq_none_iff, Option.map_eq_none_iff]

/-- Whatever the steps raise, the second stack returns to `do_enter_parallel`. -/
theorem enterParallelImplTry_run (id : Nat) (a : Answers) (f : SyncFrame)
    (params : EnterParallelImplParams) : ∃ params',
    (enterParallelImplTry id a params).run f = .ok params' (f.synced id a) := by
  have hsteps : (performSteps id a).run f = _ := forM_performStep f
  rw [← Answers.failure, ← Answers.completed] at hsteps
  simp only [EStateM.run] at hsteps ⊢
  cases hfail : a.failure with
  | none =>
    rw [hfail, ← completed_of_noFailure hfail] at hsteps
    refine ⟨params, ?_⟩
    simp only [enterParallelImplTry, tryCatch, tryCatchThe, MonadExceptOf.tryCatch,
      EStateM.tryCatch, bind, EStateM.bind, hsteps]
    simp [SyncFrame.synced, hfail, pure, EStateM.pure]
  | some failed =>
    rw [hfail] at hsteps
    refine ⟨⟨some ⟨failed.1, failed.2⟩⟩, ?_⟩
    simp only [enterParallelImplTry, tryCatch, tryCatchThe, MonadExceptOf.tryCatch,
      EStateM.tryCatch, bind, EStateM.bind, hsteps]
    have hsynced : f.synced id a = { f.advance id a.completed with
        exceptions := (f.advance id a.completed).exceptions ++ [failed] } := by
      simp [SyncFrame.synced, hfail]
    rw [hsynced]
    rfl

/-- The calls of the steps that completed. -/
theorem enterParallelImpl_calls (id : Nat) (a : Answers) :
    enterParallelImpl id (a.kernel id) = a.completed.flatMap (·.calls id) := by
  have hall : (implSteps a.mallocPages).flatMap (·.calls id) =
      [.rpcTag, .memOps, .stack, .heap, .parallelCtx id] := by
    have hpte : (a.mallocPages.map ImplStep.getPte).flatMap (·.calls id) = [] := by
      simp [List.flatMap_map, ImplStep.calls]
    simp only [implSteps, List.flatMap_append, hpte]
    rfl
  have hprefix : a.completed.flatMap (·.calls id) <+:
      [.rpcTag, .memOps, .stack, .heap, .parallelCtx id] := by
    rw [← hall]
    obtain ⟨rest, hrest⟩ := List.takeWhile_prefix (l := implSteps a.mallocPages)
      fun step => (a.raises step).isNone
    rw [← hrest, List.flatMap_append]
    exact List.prefix_append _ _
  cases hfail : a.failure with
  | none =>
    rw [completed_of_noFailure hfail, hall]
    simp [enterParallelImpl, Answers.kernel, hfail]
  | some failed =>
    simp only [enterParallelImpl, Answers.kernel, hfail, Option.map_some]
    exact (List.prefix_iff_eq_take.mp hprefix).symm

/-! ## What the call does -/

/-- `do_enter_parallel` comes to `swapcontext`, and it succeeds. -/
def Switches (worldSize : Nat) (a : Answers) (enterParallel : Bool) (f : Frame ParCtxBase) : Prop :=
  ¬ Alone worldSize enterParallel f.object ∧ f.inParallel = false ∧ a.getcontext = none ∧
    verifyReducesNoOverlap f.object.reduces = .ok () ∧ a.swapcontext = none

/-- The frame once both flags are set, and after the second stack. -/
def SyncFrame.flagged (f : SyncFrame) : SyncFrame := { f with toFrame := f.toFrame.raised }

/-- How the call ends behind the switch: only the Fortran step may throw. -/
def SyncFrame.resumed (id : Nat) (a : Answers) (f : SyncFrame) :
    EStateM.Result Raised SyncFrame Unit :=
  let g := f.flagged.synced id a
  match a.fortran.bind (·.throws 0) with
  | some what => .error ⟨none, what⟩ g
  | none => .ok () { g with calls := g.calls ++ [.fortranGlobalVariables] }

/-- How a call of the two models ends that does not switch: in a context of one
process or with an exception, and without a step. -/
inductive EndsEarly (worldSize : Nat) (enterParallel : Bool) (f : SyncFrame) :
    EStateM.Result Raised SyncFrame Unit → EStateM.Result String (Frame ParCtxBase) Unit → Prop
  | alone (g : Frame ParCtxBase) : Alone worldSize enterParallel f.object →
      EndsEarly worldSize enterParallel f (.ok () { f with toFrame := g }) (.ok () g)
  | thrown (what : String) (g : Frame ParCtxBase) :
      EndsEarly worldSize enterParallel f (.error ⟨none, what⟩ { f with toFrame := g })
        (.error what g)

theorem endsEarly (f : SyncFrame) (h : ¬ Switches n a enter f.toFrame) :
    EndsEarly n enter f ((doEnterParallelSync n id a enter).run f)
      ((doEnterParallel n id (a.kernel id) enter).run f.toFrame) := by
  simp only [doEnterParallelSync, doEnterParallel, EStateM.run_bind, EStateM.run_get]
  by_cases halone : enter = false ∨ f.object.comm.size n = 1
  · rw [if_pos halone, if_pos halone]
    exact .alone _ halone
  rw [if_neg halone, if_neg halone]
  cases hp : f.inParallel with
  | true => exact .thrown _ f.toFrame
  | false =>
    simp only [Answers.kernel]
    cases hget : a.getcontext with
    | some reason => exact .thrown _ f.toFrame.raised
    | none =>
      cases hverify : verifyReducesNoOverlap f.object.reduces with
      | error what => exact .thrown what f.toFrame.raised
      | ok u =>
        cases hswap : a.swapcontext with
        | some reason => exact .thrown _ f.toFrame.raised
        | none => exact absurd ⟨halone, hp, hget, hverify, hswap⟩ h

/-- A call that switches goes on, whatever the steps raise. -/
theorem run_of_switches (f : SyncFrame) (h : Switches n a enter f.toFrame) :
    (doEnterParallelSync n id a enter).run f = f.resumed id a := by
  obtain ⟨halone, hp, hget, hverify, hswap⟩ := h
  obtain ⟨params', hrun⟩ := enterParallelImplTry_run id a f.flagged ⟨none⟩
  unfold Alone at halone
  simp only [doEnterParallelSync, EStateM.run_bind, EStateM.run_get, if_neg halone, hp, hget,
    hverify, hswap, Bool.false_eq_true, if_false, EStateM.run_set]
  change EStateM.run (do
    let _ ← enterParallelImplTry id a ⟨none⟩
    match a.fortran.bind (·.throws 0) with
    | some what => throw ⟨none, what⟩
    | none => modify fun f => { f with calls := f.calls ++ [.fortranGlobalVariables] })
      f.flagged = _
  rw [EStateM.run_bind, hrun, SyncFrame.resumed]
  cases a.fortran.bind (·.throws 0) <;> rfl

/-- The call without its steps is the call of `ParCtx.lean`. -/
def forgetSteps : EStateM.Result Raised SyncFrame Unit →
    EStateM.Result String (Frame ParCtxBase) Unit
  | .ok u g => .ok u g.toFrame
  | .error e g => .error e.what g.toFrame

theorem EndsEarly.forget {f : SyncFrame} {r r'} (h : EndsEarly n enter f r r') :
    forgetSteps r = r' := by
  cases h <;> rfl

theorem refines (f : SyncFrame) : forgetSteps ((doEnterParallelSync n id a enter).run f) =
    (doEnterParallel n id (a.kernel id) enter).run f.toFrame := by
  by_cases h : Switches n a enter f.toFrame
  · rw [run_of_switches f h]
    obtain ⟨halone, hp, hget, hverify, hswap⟩ := h
    unfold Alone at halone
    simp only [doEnterParallel, EStateM.run_bind, EStateM.run_get, if_neg halone, hp, hverify,
      Answers.kernel, hget, hswap, Bool.false_eq_true, if_false, EStateM.run_set,
      Kernel.fortranThrows]
    have hcalls := enterParallelImpl_calls id a
    simp only [Answers.kernel, hget, hswap] at hcalls
    rw [hcalls, SyncFrame.resumed]
    cases a.fortran.bind (·.throws 0) <;> rfl
  · exact (endsEarly f h).forget

end

/-! ## Failures in a run -/

/-- The call `e` of `do_enter_parallel`, with the answers to its steps. -/
def Entry.runSync (worldSize : Nat) (inParallel : Bool) (a : Answers) (e : Entry) :
    EStateM.Result Raised SyncFrame Unit :=
  (doEnterParallelSync worldSize e.id a e.enterParallel).run ⟨⟨inParallel, e.ctx, []⟩, [], []⟩

def lastFrame : EStateM.Result Raised SyncFrame Unit → SyncFrame
  | .ok _ f => f
  | .error _ f => f

/-- No failed synchronisation starts the body. -/
structure FailuresRethrown (worldSize : Nat) (a : Answers) (enterParallel : Bool)
    (r : EStateM.Result Raised SyncFrame Unit) : Prop where
  rethrown : ∀ step what, (step, what) ∈ (lastFrame r).exceptions →
    ∃ f, r = .error ⟨some step, what⟩ f
  completed : ∀ f, r = .ok () f → 1 < worldSize → enterParallel = true →
    f.completed = implSteps a.mallocPages

variable {n : Nat} {a : Answers} {enter : Bool} {e : Entry} {p : Bool}

theorem failuresRethrown_of_switches (h : Switches n a e.enterParallel ⟨p, e.ctx, []⟩) :
    FailuresRethrown n a e.enterParallel (e.runSync n p a) ↔ a.failure = none := by
  rw [Entry.runSync, run_of_switches ⟨⟨p, e.ctx, []⟩, [], []⟩ h]
  have hlast : (lastFrame (SyncFrame.resumed e.id a ⟨⟨p, e.ctx, []⟩, [], []⟩)).exceptions =
      a.failure.toList := by
    rw [SyncFrame.resumed]
    cases a.fortran.bind (·.throws 0) <;> rfl
  constructor
  · intro hrethrown
    cases hfail : a.failure with
    | none => rfl
    | some failed =>
      have hmem : failed ∈ a.failure.toList := by rw [hfail]; exact List.mem_singleton_self _
      obtain ⟨f, hf⟩ := hrethrown.rethrown failed.1 failed.2 (hlast ▸ hmem)
      -- what the Fortran step may throw is another exception
      rw [SyncFrame.resumed] at hf
      split at hf <;> cases hf
  · intro hfail
    refine ⟨fun step what hmem => ?_, fun f hf _ _ => ?_⟩
    · rw [hlast, hfail] at hmem
      cases hmem
    · rw [SyncFrame.resumed] at hf
      split at hf <;> cases hf
      exact completed_of_noFailure hfail

/-- A call that does not switch performs no step. -/
theorem EndsEarly.failuresRethrown {f : Frame ParCtxBase} {r r'}
    (h : EndsEarly n enter ⟨f, [], []⟩ r r') (hcomm : f.object.comm = .world) :
    FailuresRethrown n a enter r := by
  cases h with
  | alone g halone =>
    refine ⟨nofun, fun g _ hn henter => ?_⟩
    rcases halone with hempty | hone
    · rw [henter] at hempty
      cases hempty
    · rw [hcomm] at hone
      exact absurd hone (Nat.ne_of_gt hn)
  | thrown what g => exact ⟨nofun, nofun⟩

/-- In every run and for every call of `do_enter_parallel`: the exceptions of its
steps are rethrown exactly if the call does not switch or no step raises one. -/
theorem failuresRethrown_iff (n : Nat) : ∀ s t l e a, Reachable (sys n) s →
    s.step n l = some t → l.entry s = some e → e.kernel = a.kernel e.id →
    forgetSteps (e.runSync n s.inParallel a) = e.run n s.inParallel ∧
      (FailuresRethrown n a e.enterParallel (e.runSync n s.inParallel a) ↔
        (Switches n a e.enterParallel ⟨s.inParallel, e.ctx, []⟩ →
          ∀ step ∈ implSteps a.mallocPages, a.raises step = none)) := by
  intro s t l e a hs _ he hkernel
  refine ⟨?_, ?_⟩
  · rw [Entry.run, hkernel]
    exact refines _
  · by_cases hswitches : Switches n a e.enterParallel ⟨s.inParallel, e.ctx, []⟩
    · rw [failuresRethrown_of_switches hswitches, noFailure_iff]
      exact ⟨fun h _ => h, fun h => h hswitches⟩
    · have hearly : EndsEarly n e.enterParallel _ (e.runSync n s.inParallel a) _ :=
        endsEarly ⟨⟨s.inParallel, e.ctx, []⟩, [], []⟩ hswitches
      exact ⟨fun _ h => absurd h hswitches, fun _ => hearly.failuresRethrown (entry_comm hs he)⟩

/-- The answers when nothing fails, with one page in use. -/
def Answers.ok : Answers where
  getcontext := none
  swapcontext := none
  mallocPages := [⟨2 ^ 29, 1⟩]
  openPagemap := none
  readPagemap _ := none
  clearRefs := true
  other _ := none
  fortran := none

/-- A context that enters. -/
theorem failuresRethrown_ok : FailuresRethrown 2 .ok true
    ((Entry.mk 0 (.new []) true .ok).runSync 2 false .ok) :=
  ((failuresRethrown_iff 2 .start _ (.construct 0 .parCtx true [] .ok) ⟨0, .new [], true, .ok⟩ .ok
    (.init rfl) rfl rfl rfl).2).mpr fun _ => by decide

/-- The page map cannot be read when the first section begins. -/
def Answers.unreadable (fortran : Option FortranStep) : Answers :=
  { Answers.ok with readPagemap := fun _ => some "Input/output error", fortran }

/-- `do_enter_parallel` returns after three steps of eight, and the workers take
the next call of the leader for its heap. -/
def ReturnsUnsynced (a : Answers) : Prop := ∃ t f,
  State.start.step 2 (.construct 0 .parCtx true [] (a.kernel 0)) = some t ∧
  (Entry.mk 0 (.new []) true (a.kernel 0)).runSync 2 false a = .ok () f ∧
  f.completed = [.sendRpcTag, .sendMemOps, .sendStack] ∧
  f.exceptions = [(.getPte ⟨2 ^ 29, 1⟩,
    "Failed to read /proc/self/pagemap, reason: Input/output error")] ∧
  t.workers = none ∧
  ¬ FailuresRethrown 2 a true ((Entry.mk 0 (.new []) true (a.kernel 0)).runSync 2 false a)

/-- With the Fortran binding as without it. -/
theorem returnsUnsynced {fortran : Option FortranStep}
    (h : fortran.bind (·.throws 0) = none) : ReturnsUnsynced (.unreadable fortran) := by
  have hthrows : (Answers.unreadable fortran).fortran.bind (·.throws 0) = none := h
  have hswitches : Switches 2 (.unreadable fortran) true ⟨false, .new [], []⟩ :=
    ⟨by simp [Alone, Comm.size, ParCtxBase.new], rfl, rfl, rfl, rfl⟩
  have hrun : (doEnterParallelSync 2 0 (.unreadable fortran) true).run
      ⟨⟨false, .new [], []⟩, [], []⟩ = _ := run_of_switches _ hswitches
  rw [SyncFrame.resumed, hthrows] at hrun
  have hcoarse : forgetSteps _ = _ := congrArg forgetSteps hrun
  rw [refines] at hcoarse
  have hctor : Ctx.construct 2 0 .parCtx true [] ((Answers.unreadable fortran).kernel 0)
      State.start.inParallel = _ := Ctx.construct_ok hcoarse
  refine ⟨_, _, rfl, hrun, rfl, rfl, ?_, fun hrethrown => ?_⟩
  · rw [hctor]
    rfl
  · rw [Entry.runSync, hrun] at hrethrown
    obtain ⟨f, hf⟩ := hrethrown.rethrown _ _ List.mem_cons_self
    cases hf

theorem failuresRethrown_not :
    ReturnsUnsynced (.unreadable none) ∧
      ReturnsUnsynced (.unreadable (some ⟨fun _ => .ok [], fun _ => false⟩)) := by
  exact ⟨returnsUnsynced rfl, returnsUnsynced rfl⟩

end SimpleParallel.Context
