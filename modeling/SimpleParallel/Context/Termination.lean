import SimpleParallel.Context.Regular

/-!
# The end of the program

`fake_main` of `init.cc` on rank 0, from the call of the user's main to the end
of the process, and the loop of `worker` that waits for its tags. A finished
main has three ways to end. `exit` does not unwind the stack, so there a hook
takes over what the end of `fake_main` does.

* `workers_released`: `fake_main` broadcasts one `rpc_tag::exit` before it
  finalises MPI exactly if main did not throw.
* `workers_not_released`: a main that throws at once.
-/

namespace SimpleParallel.Context

open LTS

/-! ## Tags -/

/-- What rank 0 does on `s_p_comm`, and the end of MPI. -/
inductive Event
  | call (c : Collective)
  | tag (tag : RpcTag)
  | finalize
  deriving DecidableEq

/-- How far `worker` is: in its loop or in a section, returned, or thrown. It is
lost in a call that rank 0 does not make. -/
inductive WorkerStatus
  | running (w : WorkerState)
  | returned (status : Nat)
  | thrown (what : String)
  | lost
  deriving DecidableEq

namespace WorkerStatus

def ofState : Option WorkerState → WorkerStatus
  | some w => running w
  | none => lost

/-- The `switch` of `worker`. -/
def onTag : RpcTag → WorkerStatus
  | .exit => returned 0
  | .runFunctionWithoutContext => thrown "Not implemented."
  | .enterParallel => ofState (WorkerState.waiting.take .rpcTag)

def take : WorkerStatus → Event → WorkerStatus
  | running .waiting, .tag tag => onTag tag
  | running _, .tag _ => lost
  | running w, .call c => ofState (w.take c)
  | status, _ => status

end WorkerStatus

/-! ## The process -/

/-- How the user's main ends, outside a section. An exception that is not a
`std::exception` has no text. -/
inductive MainEnd
  | returns (ret : Int)
  | exits (status : Int)
  | throws (what : Option String)
  deriving DecidableEq

/-- What leaves a function otherwise than by its end. -/
inductive Ending
  | exception (what : Option String)
  | exit (status : Int)

/-- Rank 0: whether `mpi_env` has a value, the global `finished`, what was
printed and done so far, and the workers. -/
structure Process where
  mpiEnv : Bool
  finished : Bool
  cerr : List String
  events : List Event
  workers : WorkerStatus

abbrev Proc := EStateM Ending Process

namespace Proc

def emit (e : Event) : Proc Unit :=
  modify fun p => { p with events := p.events ++ [e], workers := p.workers.take e }

/-- A `try` block with `catch (...)`. It does not catch `exit`. -/
def catchAll {α : Type} (x : Proc α) (handle : Option String → Proc α) : Proc α := fun p =>
  match x.run p with
  | .error (.exception what) q => (handle what).run q
  | r => r

/-- The rest of a block that begins with `gsl::finally`. `exit` does not run it. -/
def thenFinally {α : Type} (x : Proc α) (cleanup : Proc Unit) : Proc α := fun p =>
  match x.run p with
  | .ok a q => (do cleanup; pure a : Proc α).run q
  | .error (.exception what) q => (do cleanup; throw (.exception what) : Proc α).run q
  | r => r

end Proc

open Proc

/-- `send_rpc_tag`. -/
def sendRpcTag (tag : RpcTag) : Proc Unit := emit (.tag tag)

/-- `mpi_env->reset()`. -/
def resetMpiEnv : Proc Unit := do
  let p ← get
  if p.mpiEnv then
    set { p with mpiEnv := false }
    emit .finalize

/-- The hook `exit_work`. -/
def exitWork : Proc Unit := do
  let p ← get
  if p.mpiEnv then
    set { p with finished := true }
    sendRpcTag .exit
    resetMpiEnv

/-- The members `ret` and `exception` of `main_wrap_params`; the exception may
be none that has a text. -/
structure MainWrapParams where
  ret : Int
  exception : Option (Option String)

/-- The user's main, whose calls and workers are those of the state `s` that it
ends in. -/
def realMain (s : State) (m : MainEnd) : Proc Int := do
  modify fun p => { p with
    events := p.events ++ s.calls.map .call
    workers := .ofState s.workers }
  match m with
  | .returns ret => pure ret
  | .exits status => throw (.exit status)
  | .throws what => throw (.exception what)

/-- `main_wrap`. -/
def mainWrap (s : State) (m : MainEnd) (params : MainWrapParams) : Proc MainWrapParams :=
  catchAll (do return { params with ret := ← realMain s m }) fun what =>
    pure { params with exception := some what, ret := 1 }

/-- `fake_main` from the call of main on. -/
def fakeMain (s : State) (m : MainEnd) : Proc Int :=
  thenFinally
    (catchAll
      (do
        let params ← thenFinally (mainWrap s m ⟨0, none⟩)
          (modify fun p => { p with finished := true })
        match params.exception with
        | some what => throw (.exception what)
        | none => pure ()
        sendRpcTag .exit
        return params.ret)
      fun what => do
        modify fun p => { p with cerr := p.cerr ++ [what.getD "Error: unknown exception"] }
        return 1)
    resetMpiEnv

/-- The process from main to its end. After `fake_main` the runtime calls `exit`,
which runs the hook. -/
def runProcess (s : State) (m : MainEnd) : Process :=
  match (fakeMain s m).run ⟨true, false, [], [], .running .waiting⟩ with
  | .ok _ p | .error (.exit _) p =>
    match exitWork.run p with
    | .ok _ q | .error _ q => q
  -- no exception leaves `fake_main`
  | .error (.exception _) p => p

/-! ## The workers are released -/

/-- One exit tag was broadcast, before MPI ended, and the workers returned. -/
structure Released (p : Process) : Prop where
  once : p.events.count (.tag .exit) = 1
  before : (p.events.takeWhile (· ≠ .finalize)).count (.tag .exit) = 1
  finalized : p.events.count .finalize = 1
  returned : p.workers = .returned 0

variable {n : Nat} {s : State} {m : MainEnd}

/-- A main that returns or calls `exit`. -/
theorem runProcess_released (hm : ∀ what, m ≠ .throws what) :
    (runProcess s m).events = s.calls.map .call ++ [.tag .exit] ++ [.finalize] ∧
      (runProcess s m).workers =
        ((WorkerStatus.ofState s.workers).take (.tag .exit)).take .finalize := by
  cases m with
  | returns ret => exact ⟨rfl, rfl⟩
  | exits status => exact ⟨rfl, rfl⟩
  | throws what => exact absurd rfl (hm what)

/-- A main that throws. -/
theorem runProcess_thrown {what : Option String} :
    (runProcess s (.throws what)).events = s.calls.map .call ++ [.finalize] := rfl

theorem count_calls {e : Event} (he : ∀ c, e ≠ .call c) (calls : List Collective) :
    (calls.map Event.call).count e = 0 := by
  rw [List.count_eq_zero]
  intro hmem
  obtain ⟨c, -, hc⟩ := List.mem_map.mp hmem
  exact he c hc.symm

/-- For every run of the program that ends outside a section: the workers are
released exactly if main returns or calls `exit`. -/
theorem workers_released (n : Nat) : ∀ s m, Reachable (regularSys n) s → s.inParallel = false →
    (Released (runProcess s m) ↔ ∀ what, m ≠ .throws what) := by
  intro s m hs hout
  have hwaiting := waiting_of_clear hs hout
  have hexit := count_calls (e := .tag .exit) nofun s.calls
  have hfinalize := count_calls (e := .finalize) nofun s.calls
  constructor
  · rintro h what rfl
    have hone := h.once
    rw [runProcess_thrown, List.count_append, hexit] at hone
    exact absurd hone (by decide)
  · intro hm
    obtain ⟨hevents, hworkers⟩ := runProcess_released (s := s) hm
    have hbefore : (s.calls.map Event.call ++ [Event.tag .exit] ++ [Event.finalize]).takeWhile
        (· ≠ Event.finalize) = s.calls.map Event.call ++ [Event.tag .exit] := by
      have hall : ∀ e ∈ s.calls.map Event.call ++ [Event.tag .exit],
          decide (e ≠ .finalize) = true := by
        intro e he
        rcases List.mem_append.mp he with he | he
        · obtain ⟨c, -, rfl⟩ := List.mem_map.mp he
          rfl
        · cases List.mem_singleton.mp he
          rfl
      rw [List.takeWhile_append_of_pos hall]
      exact List.append_nil _
    refine ⟨?_, ?_, ?_, ?_⟩
    · rw [hevents, List.count_append, List.count_append, hexit]
      rfl
    · rw [hevents, hbefore, List.count_append, hexit]
      rfl
    · rw [hevents, List.count_append, List.count_append, hfinalize]
      rfl
    · rw [hworkers, hwaiting]
      rfl

/-- In a section with one area. -/
def reducing : State where
  inParallel := true
  contexts := Function.update State.start.contexts 0
    (.live (.raii .parCtx ⟨.world, [⟨2 ^ 41, 1, .int, .sum⟩], true⟩))
  calls := [.rpcTag, .memOps, .stack, .heap, .parallelCtx 0, .fortranGlobalVariables]
  workers := some (.inSection 0)

theorem reachable_reducing : Reachable (regularSys 2) reducing := by
  have hstep : (sys 2).step .start (.construct 0 .parCtx true [⟨2 ^ 41, 1, .int, .sum⟩] .ok)
      reducing := rfl
  refine (Reachable.init rfl).restrict_step _ ⟨?_, ?_, ?_, rfl⟩ hstep
  · rintro ⟨e, what, f, hentry, hrun⟩
    cases hentry
    cases hrun
  all_goals
    rintro e hentry
    cases hentry
    exact nofun

/-- A main that returns, or calls `exit`, after a section with a reduction. -/
theorem workers_released_section : ∃ t, reducing.step 2 (.destroy 0 none) = some t ∧
    Reachable (regularSys 2) t ∧ Released (runProcess t (.returns 0)) ∧
    Released (runProcess t (.exits 1)) := by
  have hstep : reducing.step 2 (.destroy 0 none) = some _ := destroy_step rfl
  have hend := reachable_reducing.restrict_step _ (regular_of_exit rfl rfl) hstep
  have hexits : Exits (.raii .parCtx ⟨.world, [⟨2 ^ 41, 1, .int, .sum⟩], true⟩) none true
      (Ctx.destroy 2 0 none true _) := Ctx.destroy_exits _
  exact ⟨_, hstep, hend, (workers_released 2 _ (.returns 0) hend hexits.inParallel).mpr nofun,
    (workers_released 2 _ (.exits 1) hend hexits.inParallel).mpr nofun⟩

/-- MPI is finalised with the workers at the broadcast of a tag. -/
theorem workers_not_released : Reachable (regularSys 2) .start ∧
    (runProcess .start (.throws (some "failed"))).events = [.finalize] ∧
    (runProcess .start (.throws (some "failed"))).workers = .running .waiting ∧
    ¬ Released (runProcess .start (.throws (some "failed"))) := by
  refine ⟨.init rfl, rfl, rfl, fun h => ?_⟩
  have := h.once
  exact absurd this (by decide)

end SimpleParallel.Context
