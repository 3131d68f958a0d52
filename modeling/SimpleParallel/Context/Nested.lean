import SimpleParallel.Context.Atomicity
import SimpleParallel.Context.Regular

/-!
# Nested contexts

The flag `in_parallel` is a variable of each process, and the synchronisation
does not copy it. The leader sets it on its way into the section. A worker comes
to the middle of `do_enter_parallel`, behind the place where it is set, and only
clears it when it leaves. One that throws there does not come to the body.

* `nestedGuard`: on the leader the flag is set exactly in a section and refuses
  nested contexts. On a worker in a section it never does.
* `nestedGuard_not`: a worker enters a second context in a section.
-/

namespace SimpleParallel.Context

open LTS Reduce

/-! ## The processes -/

/-- What the worker `rank` with the memory `m` does in `do_enter_parallel`. It begins behind
`swapcontext`. -/
def resumeEnterParallel (rank : Nat) (m : Mem) (kernel : Kernel) : Member ParCtxBase Unit := do
  let f ← get
  match ReduceArea.initAll f.object.reduces m with
  | .error what => throw what
  | .ok _ => pure ()
  match kernel.fortranThrows rank with
  | some what => throw what
  | none => modify fun f => { f with calls := f.calls ++ [.fortranGlobalVariables] }

/-- The program on the leader, the flags of the workers, those that have thrown on their way
into a section, and their copy of the context they are in the section of. -/
structure Ranks where
  program : State
  workerFlags : Nat → Bool
  workerThrown : Nat → Bool
  workerCtx : ParCtxBase

namespace Ranks

def inParallel (s : Ranks) (rank : Nat) : Bool :=
  if rank = 0 then s.program.inParallel else s.workerFlags rank

/-- The rank executes the body of a section. -/
def InSection (s : Ranks) (rank : Nat) : Prop :=
  if rank = 0 then ∃ id, s.program.Holder id
  else (∃ id, s.program.workers = some (.inSection id)) ∧ s.workerThrown rank = false

/-- The workers with these memories after a step of the leader that leads to `t`, as far as it
lets them enter or leave a section. -/
def follow (worldSize : Nat) (memory : Nat → Mem) (s : Ranks) (l : Label) (t : State) : Ranks :=
  match s.program.workers, t.workers with
  | some .waiting, some (.inSection id) =>
    match t.contexts id, l.entry s.program with
    | .live c, some e =>
      let enter rank :=
        (resumeEnterParallel rank (memory rank) e.kernel).run ⟨s.workerFlags rank, c.base, []⟩
      { program := t
        workerFlags := fun rank => (resultFrame (enter rank)).inParallel
        workerThrown := fun rank => s.workerThrown rank || threw (enter rank)
        workerCtx := c.base }
    | _, _ => { s with program := t }
  | some (.inSection id), some .waiting =>
    let exit rank := (doExitParallel worldSize id none).run ⟨s.workerFlags rank, s.workerCtx, []⟩
    { s with program := t, workerFlags := fun rank => (resultFrame (exit rank)).inParallel }
  | _, _ => { s with program := t }
where
  threw : EStateM.Result String (Frame ParCtxBase) Unit → Bool
    | .ok _ _ => false
    | .error _ _ => true

end Ranks

/-- A step of the leader, or a worker in a section constructs a context. -/
inductive RankLabel
  | leader (l : Label)
  | worker (rank id : Nat) (wrapper : RaiiWrapper) (enterParallel : Bool)
      (reduces : List ReduceArea) (kernel : Kernel)

/-- A worker that enters a section joins the calls of `enter_parallel_impl`, which
no other process makes then. -/
inductive Ranks.Step (worldSize : Nat) (s : Ranks) : RankLabel → Ranks → Prop
  | leader {l : Label} {t : State} (memory : Nat → Mem) : s.program.step worldSize l = some t →
      Step worldSize s (.leader l) (s.follow worldSize memory l t)
  | worker {rank id outer : Nat} {wrapper : RaiiWrapper} {enter : Bool}
      {reduces : List ReduceArea} {kernel : Kernel} {o : Outcome} : 0 < rank → rank < worldSize →
      s.program.workers = some (.inSection outer) → s.workerThrown rank = false →
      o = Ctx.construct worldSize id wrapper enter reduces kernel (s.workerFlags rank) →
      Step worldSize s (.worker rank id wrapper enter reduces kernel)
        { s with
          program := if o.calls = [] then s.program else { s.program with workers := none }
          workerFlags := Function.update s.workerFlags rank o.inParallel }

def ranksSys (worldSize : Nat) : Sys Ranks RankLabel where
  init s := s = ⟨.start, fun _ => false, fun _ => false, .new []⟩
  step s l t := s.Step worldSize l t

/-! ## Nested contexts -/

def nestedError : String := "Error: nested parallel is not supported\n"

/-- With this flag a context that would enter is refused: its constructor or
`enter_parallel` throws, makes no call, and leaves the flag as it is. -/
structure NestedRefused (worldSize : Nat) (inParallel : Bool) : Prop where
  construct : ∀ id wrapper reduces kernel,
    Ctx.construct worldSize id wrapper true reduces kernel inParallel =
      ⟨some nestedError, inParallel, .raii wrapper (.new reduces), []⟩
  enterParallel : ∀ id (b : ParCtxFortranBinding) kernel, b.comm = .world → b.Fresh →
    outcome .fortran (ParCtxFortranBinding.enterParallel worldSize id kernel true) inParallel b =
      ⟨some nestedError, inParallel, .fortran ⟨b.toParCtxBase, true, true⟩, []⟩

/-- The flag of a rank does what it is for. -/
structure Ranks.Guarded (worldSize : Nat) (s : Ranks) (rank : Nat) : Prop where
  refused : s.InSection rank → NestedRefused worldSize (s.inParallel rank)
  exact : s.inParallel rank = true ↔ s.InSection rank

/-- Nobody fails to enter but because a section is in progress, and the workers
do not try. -/
def RankLabel.Plain (worldSize : Nat) (s : Ranks) : RankLabel → Prop
  | leader l => l.Throws worldSize s.program → s.program.inParallel = true
  | worker _ _ _ enterParallel _ _ => enterParallel = false

variable {n : Nat} {s t : Ranks} {l : RankLabel} {rank : Nat}

theorem run_nested {id : Nat} {kernel : Kernel} {ctx : ParCtxBase} (hn : n ≠ 1)
    (hcomm : ctx.comm = .world) : (doEnterParallel n id kernel true).run ⟨true, ctx, []⟩ =
      .error nestedError ⟨true, ctx, []⟩ := by
  simp [doEnterParallel, hcomm, Comm.size, hn, nestedError]

theorem nestedRefused (hn : n ≠ 1) : NestedRefused n true :=
  ⟨fun _ _ _ _ => Ctx.construct_error (run_nested hn rfl),
    fun _ _ _ hcomm hfresh => ParCtxFortranBinding.enterParallel_error hfresh (run_nested hn hcomm)⟩

/-- A clear flag does not refuse a correct context. -/
theorem not_nestedRefused : ¬ NestedRefused n false := by
  intro h
  have hok : ∃ f, (doEnterParallel n 0 .ok true).run ⟨false, .new [], []⟩ = .ok () f := by
    simp only [doEnterParallel, EStateM.run_bind, EStateM.run_get]
    split <;> exact ⟨_, rfl⟩
  obtain ⟨f, hf⟩ := hok
  have hthrown := congrArg Outcome.thrown (h.construct 0 .parCtx [] .ok)
  rw [Ctx.construct_ok hf] at hthrown
  cases hthrown

/-! ## The leader -/

/-- One process alone never sets the flag. -/
theorem flag_clear_one {s : State} (h : Reachable (sys 1) s) : s.inParallel = false := by
  have hrun : ∀ {id kernel enter} (f : Frame ParCtxBase), f.inParallel = false →
      ∃ g, (doEnterParallel 1 id kernel enter).run f = .ok () g ∧ g.inParallel = false := by
    intro id kernel enter f hf
    rcases doEnterParallel_cases 1 id kernel enter f with
      ⟨-, hrun⟩ | ⟨halone, -⟩ | ⟨halone, -⟩
    · exact ⟨_, hrun, hf⟩
    · exact absurd alone_one halone
    · exact absurd alone_one halone
  refine h.invariant (P := fun s => s.inParallel = false) ?_ ?_
  · rintro s rfl
    rfl
  · intro s l t _ hs hstep
    cases stepped hstep with
    | @construct id wrapper enter reduces kernel o _ ho =>
      obtain ⟨g, hg, hclear⟩ := hrun ⟨s.inParallel, .new reduces, []⟩ hs
      rw [Ctx.construct_ok hg] at ho
      exact (congrArg Outcome.inParallel ho).trans hclear
    | newCtx => exact hs
    | addReduceArea => exact hs
    | @enterParallel id enter kernel b o _ ho =>
      by_cases hfresh : b.Fresh
      · obtain ⟨g, hg, hclear⟩ := hrun ⟨s.inParallel, b.toParCtxBase, []⟩ hs
        rw [ParCtxFortranBinding.enterParallel_ok hfresh hg] at ho
        exact (congrArg Outcome.inParallel ho).trans hclear
      · obtain ⟨what, hrefused⟩ := ParCtxFortranBinding.enterParallel_refused hfresh
        rw [hrefused] at ho
        exact (congrArg Outcome.inParallel ho).trans hs
    | @exitParallel id refused b o _ ho =>
      have hexits : Exits (.fortran b) refused s.inParallel o := by
        rw [ho]
        exact ParCtxFortranBinding.exitParallel_exits.1
      split <;> exact hexits.inParallel.trans (by rw [hs, Bool.false_and])
    | @destroy id refused c o _ ho =>
      have hexits : Exits c refused s.inParallel o := by
        rw [ho]
        exact c.destroy_exits
      exact hexits.inParallel.trans (by rw [hs, Bool.false_and])

/-! ## The workers -/

variable {memory : Nat → Mem} {a : Label}

theorem follow_program (u : State) : (s.follow n memory a u).program = u := by
  unfold Ranks.follow
  split
  · split <;> rfl
  · rfl
  · rfl

theorem exit_flag {id : Nat} (f : Frame ParCtxBase) :
    (resultFrame ((doExitParallel n id none).run f)).inParallel =
      (f.inParallel && !f.object.enteredParallel) := by
  obtain ⟨calls, -, hrun | ⟨-, hrefused, -⟩⟩ := doExitParallel_cases n id none f
  · rw [hrun]
    rfl
  · exact absurd rfl hrefused

/-- The entry does not touch it, whether it throws or not. -/
theorem resume_flag {m : Mem} {kernel : Kernel} (f : Frame ParCtxBase) :
    (resultFrame ((resumeEnterParallel rank m kernel).run f)).inParallel = f.inParallel := by
  simp only [resumeEnterParallel, EStateM.run_bind, EStateM.run_get]
  cases ReduceArea.initAll f.object.reduces m with
  | error what => rfl
  | ok m' => cases kernel.fortranThrows rank <;> rfl

/-- Neither end of a section sets the flag of a worker. -/
theorem follow_flags (u : State) (h : ∀ rank, s.workerFlags rank = false) :
    ∀ rank, (s.follow n memory a u).workerFlags rank = false := by
  intro rank
  unfold Ranks.follow
  split
  · split
    · exact (resume_flag _).trans (h rank)
    · exact h rank
  · simp only [exit_flag, h rank, Bool.false_and]
  · exact h rank

/-- A context that does not enter leaves the flag of its process alone. -/
theorem construct_alone (n id : Nat) (wrapper : RaiiWrapper) (reduces : List ReduceArea)
    (kernel : Kernel) (p : Bool) : ∃ ctx,
    Ctx.construct n id wrapper false reduces kernel p = ⟨none, p, ctx, []⟩ := by
  have hrun : (doEnterParallel n id kernel false).run ⟨p, .new reduces, []⟩ =
      .ok () ⟨p, { ParCtxBase.new reduces with comm := .self }, []⟩ := rfl
  exact ⟨_, Ctx.construct_ok hrun⟩

/-- In plain runs the leader is as in a run of its own, and no worker's flag is set. -/
theorem plain_run (h : Reachable ((ranksSys n).restrict (RankLabel.Plain n)) s) :
    Reachable ((sys n).restrict fun s l => l.Throws n s → s.inParallel = true) s.program ∧
      ∀ rank, s.workerFlags rank = false := by
  refine h.invariant (P := fun s => Reachable ((sys n).restrict fun s l =>
    l.Throws n s → s.inParallel = true) s.program ∧ ∀ rank, s.workerFlags rank = false) ?_ ?_
  · rintro s rfl
    exact ⟨.init rfl, fun _ => rfl⟩
  · rintro s l t - ⟨hreach, hflags⟩ ⟨hplain, hstep⟩
    cases hstep with
    | @leader l u memory hstep =>
      refine ⟨?_, follow_flags u hflags⟩
      rw [follow_program]
      exact hreach.restrict_step l hplain hstep
    | @worker rank id outer wrapper enter reduces kernel o hpos hlt hin hthrown ho =>
      cases hplain
      obtain ⟨ctx, hctx⟩ := construct_alone n id wrapper reduces kernel (s.workerFlags rank)
      rw [hctx] at ho
      subst ho
      refine ⟨hreach, fun r => ?_⟩
      show Function.update s.workerFlags rank (s.workerFlags rank) r = false
      rw [Function.update_apply]
      split
      · exact hflags rank
      · exact hflags r

/-! ## The guard -/

theorem guarded_leader {s : Ranks}
    (h : Reachable ((sys n).restrict fun s l => l.Throws n s → s.inParallel = true) s.program) :
    s.Guarded n 0 := by
  have hinv := flagInv h.of_restrict
  have hexact : s.program.inParallel = true ↔ ∃ id, s.program.Holder id :=
    ⟨holder_of_flag h, fun ⟨id, hid⟩ => hinv.flag id hid⟩
  refine ⟨fun hin => ?_, hexact⟩
  have hflag : s.program.inParallel = true := hexact.mpr hin
  show NestedRefused n s.program.inParallel
  rw [hflag]
  refine nestedRefused ?_
  rintro rfl
  rw [flag_clear_one h.of_restrict] at hflag
  cases hflag

/-- In every plain run the flag does what it is for on the leader, and on the
workers as long as they are not in a section. -/
theorem nestedGuard (n : Nat) : ∀ s rank, Reachable ((ranksSys n).restrict (RankLabel.Plain n)) s →
    rank < n → (s.Guarded n rank ↔ rank = 0 ∨ ¬ s.InSection rank) := by
  intro s rank hs _
  obtain ⟨hprogram, hflags⟩ := plain_run hs
  by_cases hrank : rank = 0
  · subst hrank
    exact iff_of_true (guarded_leader hprogram) (.inl rfl)
  · have hclear : s.inParallel rank = false := by rw [Ranks.inParallel, if_neg hrank, hflags]
    constructor
    · intro h
      refine .inr fun hin => ?_
      have := h.exact.mpr hin
      rw [hclear] at this
      cases this
    · rintro (h | hout)
      · exact absurd h hrank
      · refine ⟨fun hin => absurd hin hout, fun h => ?_, fun hin => absurd hin hout⟩
        rw [hclear] at h
        cases h

/-! ## Two processes in a section -/

/-- The leader has entered a context without areas. -/
def entered : Ranks :=
  Ranks.follow 2 (fun _ _ => 0) ⟨.start, fun _ => false, fun _ => false, .new []⟩
    (.construct 0 .parCtx true [] .ok) (State.start.after 0 (.live (.raii .parCtx ⟨.world, [], true⟩))
      ⟨none, true, .raii .parCtx ⟨.world, [], true⟩,
        [.rpcTag, .memOps, .stack, .heap, .parallelCtx 0, .fortranGlobalVariables]⟩)

theorem reachable_entered : Reachable ((ranksSys 2).restrict (RankLabel.Plain 2)) entered := by
  refine (Reachable.init rfl).restrict_step (.leader (.construct 0 .parCtx true [] .ok)) ?_
    (.leader _ rfl)
  rintro ⟨e, what, f, hentry, hrun⟩
  cases hentry
  cases hrun

theorem nestedGuard_leader : entered.Guarded 2 0 :=
  (nestedGuard 2 entered 0 reachable_entered Nat.two_pos).mpr (.inl rfl)

/-- The worker's second context is not refused: it joins the broadcasts of an
entry that nobody else makes. -/
theorem nestedGuard_not : Reachable (ranksSys 2) entered ∧ entered.InSection 1 ∧
    entered.inParallel 1 = false ∧
    (∃ t, entered.Step 2 (.worker 1 1 .parCtx true [] .ok) t ∧ t.program.workers = none) ∧
    Ctx.construct 2 1 .parCtx true [] .ok false = ⟨none, true, .raii .parCtx ⟨.world, [], true⟩,
      [.rpcTag, .memOps, .stack, .heap, .parallelCtx 1, .fortranGlobalVariables]⟩ ∧
    ¬ entered.Guarded 2 1 := by
  refine ⟨reachable_entered.of_restrict, ⟨⟨0, rfl⟩, rfl⟩, rfl,
    ⟨_, .worker Nat.one_pos Nat.one_lt_two rfl rfl rfl, rfl⟩, rfl, fun h => ?_⟩
  have hflag : entered.inParallel 1 = true := h.exact.mpr ⟨⟨0, rfl⟩, rfl⟩
  cases hflag

end SimpleParallel.Context
