import SimpleParallel.Context.Unanimous

/-!
# The communicator of a context

The three ways to begin and end a context: a `par_ctx` object of C++,
`s_p_construct_par_ctx` of the C binding, and `parallel_begin.h` of the Fortran
binding. The first two always call `do_enter_parallel`, which exchanges the
communicator of a context that is not entered. `parallel_begin.h` skips the
call then.

* `communicator_ranks`: in the code of a context its communicator contains the
  processes that run the code, unless it is a Fortran context that several
  processes did not enter.
* `communicator_ranks_not`: such a context.
-/

namespace SimpleParallel.Context

open LTS Reduce

/-! ## Uses of contexts -/

inductive Binding
  | raii (wrapper : RaiiWrapper)
  | fortran
  deriving DecidableEq

/-- `get_comm` and `s_p_get_comm_from_ctx`; the C binding calls it when its
constructor has returned. -/
def Ctx.getComm (c : Ctx) : Comm := c.base.comm

/-- The processes of a communicator of the leader. -/
def Comm.Contains (worldSize : Nat) (rank : Nat) : Comm → Prop
  | world => rank < worldSize
  | self => rank = 0

/-- The program, the contexts whose code it runs, and the Fortran steps of their entries. -/
structure Uses where
  program : State
  running : Nat → Bool
  fortran : Nat → Option FortranStep

/-- The context `id` begins with the Fortran step `fortran`, or ends. -/
def Uses.next (s : Uses) (id : Nat) (t : State) (running : Bool)
    (fortran : Option FortranStep) : Uses :=
  ⟨t, Function.update s.running id running, Function.update s.fortran id fortran⟩

inductive UseLabel
  | begin (id : Nat) (binding : Binding) (enterParallel : Bool) (reduces : List ReduceArea)
      (kernel : Kernel)
  | finish (id : Nat)

/-- The calls `init` and `add_reduce` of `parallel_begin.h`. -/
def fortranInit (id : Nat) (reduces : List ReduceArea) : List Label :=
  .newCtx id :: reduces.map (.addReduceArea id)

def State.runAll (worldSize : Nat) (s : State) (labels : List Label) : Option State :=
  labels.foldlM (·.step worldSize ·) s

/-- An object of C++ and C exists once its constructor has returned. An exception
does not pass through Fortran code. -/
inductive Uses.Step (worldSize : Nat) (s : Uses) : UseLabel → Uses → Prop
  | construct {id : Nat} {wrapper : RaiiWrapper} {enter : Bool} {reduces : List ReduceArea}
      {kernel : Kernel} {t : State} :
      s.program.step worldSize (.construct id wrapper enter reduces kernel) = some t →
      Step worldSize s (.begin id (.raii wrapper) enter reduces kernel)
        (s.next id t (decide (t.contexts id ≠ .gone)) kernel.fortran)
  | parallelBegin {id : Nat} {reduces : List ReduceArea} {kernel : Kernel} {t u : State} :
      s.program.runAll worldSize (fortranInit id reduces) = some u →
      ¬ (Label.enterParallel id true kernel).Throws worldSize u →
      u.step worldSize (.enterParallel id true kernel) = some t →
      Step worldSize s (.begin id .fortran true reduces kernel) (s.next id t true kernel.fortran)
  | parallelBeginAlone {id : Nat} {reduces : List ReduceArea} {kernel : Kernel} {u : State} :
      s.program.runAll worldSize (fortranInit id reduces) = some u →
      Step worldSize s (.begin id .fortran false reduces kernel) (s.next id u true none)
  | destruct {id : Nat} {wrapper : RaiiWrapper} {base : ParCtxBase} {t : State} :
      s.running id = true → s.program.contexts id = .live (.raii wrapper base) →
      s.program.step worldSize (.destroy id none) = some t →
      Step worldSize s (.finish id) (s.next id t false none)
  | parallelEnd {id : Nat} {b : ParCtxFortranBinding} {t : State} :
      s.running id = true → s.program.contexts id = .live (.fortran b) →
      s.program.runAll worldSize [.exitParallel id none, .destroy id none] = some t →
      Step worldSize s (.finish id) (s.next id t false none)

def usesSys (worldSize : Nat) : Sys Uses UseLabel where
  init s := s = ⟨.start, fun _ => false, fun _ => none⟩
  step s l t := s.Step worldSize l t

/-! ## The processes that run the code -/

/-- A rank comes out of the step to which all ranks come. -/
def FortranStep.LeftBy (worldSize : Nat) (step : FortranStep) (rank : Nat) : Prop :=
  step.throws rank = none ∧ (step.Alike worldSize ∨ step.keeps rank = false)

/-- The process runs the code of the leader's context `id`. A worker that does
not support one of the areas or finds no Fortran variables has thrown before. -/
def Uses.Runs (worldSize : Nat) (s : Uses) (id : Nat) (c : Ctx) (rank : Nat) : Prop :=
  rank = 0 ∨ (s.program.workers = some (.inSection id) ∧ (∀ r ∈ c.base.reduces, r.Supported) ∧
    ∀ step, s.fortran id = some step → step.LeftBy worldSize rank)

/-- The communicator of the context contains exactly the processes that run its
code. -/
def Uses.CommAgrees (worldSize : Nat) (s : Uses) (id : Nat) : Prop :=
  ∃ c, s.program.contexts id = .live c ∧
    ∀ rank < worldSize, c.getComm.Contains worldSize rank ↔ s.Runs worldSize id c rank

/-- The call of `do_enter_parallel` when a context begins. -/
def beginEntry (id : Nat) (reduces : List ReduceArea) (kernel : Kernel) : Entry :=
  ⟨id, .new reduces, true, kernel⟩

/-- Not a Fortran context that several processes do not enter; and if the
leader enters, the workers do. -/
def UseLabel.Meets (worldSize : Nat) (s : Uses) : UseLabel → Prop
  | begin id binding enterParallel reduces kernel =>
    (binding = .fortran → enterParallel = true ∨ worldSize = 1) ∧
      (enterParallel = true → worldSize ≠ 1 →
        ¬ (beginEntry id reduces kernel).Refused s.program →
          kernel.SendsAll ∧ kernel.FortranAlike worldSize ∧ ∀ r ∈ reduces, r.Supported)
  | finish _ => True

/-! ## Calls of `do_enter_parallel` -/

variable {n id : Nat} {s t : State} {e : Entry} {f : Frame ParCtxBase} {enter p : Bool}
  {reduces : List ReduceArea} {kernel : Kernel}

/-- What a call leaves that returns. -/
inductive Returned (worldSize : Nat) (s : State) (e : Entry) (f : Frame ParCtxBase) : Prop
  | alone (hflag : f.inParallel = s.inParallel) (hcalls : f.calls = [])
      (hobject : f.object = { e.ctx with comm := .self })
  | entered (hsize : worldSize ≠ 1) (henter : e.enterParallel = true)
      (hclear : s.inParallel = false) (haccepted : ¬ e.Refused s) (hflag : f.inParallel = true)
      (hcalls : f.calls = enterParallelImpl e.id e.kernel ++ [.fortranGlobalVariables])
      (hobject : f.object = { e.ctx with enteredParallel := true })

theorem run_returned (hrun : e.run n s.inParallel = .ok () f) : Returned n s e f := by
  rcases e.run_cases n s.inParallel with
    ⟨-, h⟩ | ⟨-, -, h⟩ | ⟨halone, hflag, ⟨what, calls, h⟩ | h⟩ <;> rw [hrun] at h <;> cases h
  · exact .alone rfl rfl rfl
  · have haccepted : ¬ e.Refused s := fun hrefused => by
      obtain ⟨what, g, herror, -⟩ := run_refused halone hrefused
      rw [hrun] at herror
      cases herror
    refine .entered ?_ ?_ hflag haccepted rfl rfl rfl
    · rintro rfl
      exact halone alone_one
    · simpa using fun hfalse : e.enterParallel = false => halone (.inl hfalse)

/-- A call that throws has made no call, unless the leader's search throws. -/
theorem run_thrown {what : String} (hrun : e.run n s.inParallel = .error what f)
    (hfortran : e.enterParallel = true → n ≠ 1 → ¬ e.Refused s → e.kernel.fortranThrows 0 = none) :
    f.calls = [] := by
  rcases e.run_cases n s.inParallel with ⟨-, h⟩ | ⟨-, -, h⟩ | ⟨halone, -, -⟩
  · rw [hrun] at h
    cases h
  · rw [hrun] at h
    cases h
    rfl
  · by_cases hrefused : e.Refused s
    · obtain ⟨what', g, h, hcalls⟩ := run_refused halone hrefused
      rw [hrun] at h
      cases h
      exact hcalls
    · have hsize : n ≠ 1 := by
        rintro rfl
        exact halone alone_one
      have henter : e.enterParallel = true := by
        simpa using fun hfalse : e.enterParallel = false => halone (.inl hfalse)
      obtain ⟨tail, -, -, ⟨what', g, hthrows, -⟩ | ⟨g, -, h⟩⟩ := run_accepted halone hrefused
      · rw [hfortran henter hsize hrefused] at hthrows
        cases hthrows
      · rw [hrun] at h
        cases h

/-- A constructor leaves an object or throws. -/
theorem construct_step {wrapper : RaiiWrapper}
    (h : s.step n (.construct id wrapper enter reduces kernel) = some t) :
    s.contexts id = .unused ∧
    ((∃ f, (Entry.mk id (.new reduces) enter kernel).run n s.inParallel = .ok () f ∧
        t = s.after id (.live (.raii wrapper f.object))
          ⟨none, f.inParallel, .raii wrapper f.object, f.calls⟩) ∨
      ∃ what f, (Entry.mk id (.new reduces) enter kernel).run n s.inParallel = .error what f ∧
        t = s.after id .gone ⟨some what, f.inParallel, .raii wrapper f.object, f.calls⟩) := by
  cases stepped h with
  | construct hs ho =>
    refine ⟨hs, ?_⟩
    cases hrun : (Entry.mk id (.new reduces) enter kernel).run n s.inParallel with
    | ok u f =>
      rw [Ctx.construct_ok hrun] at ho
      subst ho
      exact .inl ⟨f, rfl, rfl⟩
    | error what f =>
      rw [Ctx.construct_error hrun] at ho
      subst ho
      exact .inr ⟨what, f, rfl, rfl⟩

/-- `enter_parallel` of a new Fortran context that does not throw. -/
theorem enterParallel_step {b : ParCtxFortranBinding} (hs : s.contexts id = .live (.fortran b))
    (hfresh : b.Fresh) (hthrows : ¬ (Label.enterParallel id enter kernel).Throws n s)
    (h : s.step n (.enterParallel id enter kernel) = some t) :
    ∃ f, (Entry.mk id b.toParCtxBase enter kernel).run n s.inParallel = .ok () f ∧
      t = s.after id (.live (.fortran ⟨f.object, true, true⟩))
        ⟨none, f.inParallel, .fortran ⟨f.object, true, true⟩, f.calls⟩ := by
  simp only [State.step, hs] at h
  cases hrun : (Entry.mk id b.toParCtxBase enter kernel).run n s.inParallel with
  | ok u f =>
    rw [ParCtxFortranBinding.enterParallel_ok hfresh hrun] at h
    cases h
    exact ⟨f, rfl, rfl⟩
  | error what f =>
    have hentry : (Label.enterParallel id enter kernel).entry s =
        some ⟨id, b.toParCtxBase, enter, kernel⟩ := by simp [Label.entry, hs, hfresh]
    exact absurd ⟨_, what, f, hentry, hrun⟩ hthrows

/-! ## What holds of the contexts -/

/-- The communicator fits a context whose code runs. -/
def Settled (worldSize : Nat) (c : Ctx) (fortran : Option FortranStep) : Prop :=
  (c.active = true ∧ c.getComm = .world ∧ (∀ r ∈ c.base.reduces, r.Supported) ∧
      ∀ step, fortran = some step → step.Alike worldSize) ∨
    (c.active = false ∧ (c.getComm = .self ∨ worldSize = 1))

structure CommInv (worldSize : Nat) (s : Uses) : Prop where
  reachable : Reachable (sys worldSize) s.program
  placed : Placed s.program
  running : ∀ id, s.running id = true →
    ∃ c, s.program.contexts id = .live c ∧ Settled worldSize c (s.fortran id)
  holder : ∀ id, s.program.Holder id → s.running id = true

/-- A step that is about one context. -/
theorem CommInv.update {s : Uses} {b : Bool} {fortran : Option FortranStep} (slot : Slot)
    (h : CommInv n s)
    (hreach : Reachable (sys n) t) (hplaced : Placed t)
    (hcontexts : t.contexts = Function.update s.program.contexts id slot)
    (hrunning : b = true → ∃ c, slot = .live c ∧ Settled n c fortran)
    (hactive : slot.active = true → b = true) : CommInv n (s.next id t b fortran) := by
  refine ⟨hreach, hplaced, fun j hj => ?_, fun j hj => ?_⟩
  · simp only [Uses.next, hcontexts, Function.update_apply] at hj ⊢
    split at hj
    · next heq => simpa [heq] using hrunning hj
    · next hne =>
      rw [if_neg hne, if_neg hne]
      exact h.running j hj
  · have hj := (holder_update hcontexts j).mp hj
    show Function.update s.running id b j = true
    rw [Function.update_apply]
    split at hj
    · next heq => rw [if_pos heq, hactive hj]
    · next hne =>
      rw [if_neg hne]
      exact h.holder j hj

/-- The property follows. -/
theorem CommInv.agrees {s : Uses} (h : CommInv n s) (hid : s.running id = true) :
    s.CommAgrees n id := by
  obtain ⟨c, hc, hsettled⟩ := h.running id hid
  have hholder : s.program.Holder id ↔ c.active = true := by rw [State.Holder, hc]; rfl
  refine ⟨c, hc, fun rank hrank => ?_⟩
  rcases hsettled with ⟨hactive, hcomm, hsupported, halike⟩ | ⟨hinactive, hcomm⟩
  · rw [hcomm]
    refine iff_of_true hrank (.inr ⟨h.placed.inside id (hholder.mpr hactive), hsupported, ?_⟩)
    intro step hstep
    obtain ⟨vars, -, hall⟩ := halike step hstep
    exact ⟨FortranStep.throws_of_collect (hall rank hrank), .inl (halike step hstep)⟩
  · have hout : s.program.workers ≠ some (.inSection id) :=
      h.placed.not_inSection fun hid => by simp [hholder.mp hid] at hinactive
    have hruns : s.Runs n id c rank ↔ rank = 0 := by simp [Uses.Runs, hout]
    rw [hruns]
    rcases hcomm with hcomm | rfl
    · rw [hcomm]
      rfl
    · have hzero : rank = 0 := by omega
      subst hzero
      refine iff_of_true ?_ rfl
      cases c.getComm
      · exact Nat.one_pos
      · rfl

/-! ## Begin and end -/

/-- The workers after an entry that returns. -/
theorem Returned.placed {slot : Slot} {o : Outcome} (h : Returned n s e f) (hinv : FlagInv s)
    (hplaced : Placed s) (hbefore : (s.contexts e.id).active = false)
    (hfresh : e.ctx.enteredParallel = false) (hslot : slot.active = f.object.enteredParallel)
    (hflag : o.inParallel = f.inParallel) (hcalls : o.calls = f.calls)
    (hsends : e.enterParallel = true → n ≠ 1 → ¬ e.Refused s → e.kernel.SendsAll) :
    Placed (s.after e.id slot o) := by
  cases h with
  | alone _ hnone hobject =>
    refine hplaced.same (holder_same rfl ?_) ?_
    · rw [hslot, hobject, hbefore]
      exact hfresh
    · show (s.workers.bind fun w => w.takeAll o.calls) = s.workers
      rw [hcalls, hnone, WorkerState.takeAll_nil]
  | entered hsize henter hclear haccepted hset hmade hobject =>
    have hactive : slot.active = true := by rw [hslot, hobject]
    have hturn : Turn n s (s.after e.id slot o) := by
      refine .enter e.id hsize hclear (hflag.trans hset) (fun j => ?_) ?_
      · rw [holder_update rfl]
        split
        · next heq => exact ⟨fun _ => heq, fun _ => hactive⟩
        · next hne =>
          exact ⟨fun hj => absurd hj (hinv.no_holder hclear j), fun heq => absurd heq hne⟩
      · show (s.workers.bind fun w => w.takeAll o.calls) = _
        rw [hcalls, hmade, enterParallelImpl_sendsAll (hsends henter hsize haccepted)]
        rfl
    exact hturn.placed hinv hplaced

/-- A constructor keeps the invariant. -/
theorem construct_commInv {s : Uses} {wrapper : RaiiWrapper} (h : CommInv n s)
    (hmeets : (UseLabel.begin id (.raii wrapper) enter reduces kernel).Meets n s)
    (hstep : s.program.step n (.construct id wrapper enter reduces kernel) = some t) :
    CommInv n (s.next id t (decide (t.contexts id ≠ .gone)) kernel.fortran) := by
  have hreach : Reachable (sys n) t := h.reachable.step hstep
  have hinv := flagInv h.reachable
  obtain ⟨hunused, ⟨f, hrun, ht⟩ | ⟨what, f, hrun, ht⟩⟩ := construct_step hstep
  · have hreturned := run_returned hrun
    have hbefore : (s.program.contexts id).active = false := by rw [hunused]; rfl
    have hkept : t.contexts id = .live (.raii wrapper f.object) := by
      rw [ht]
      exact Function.update_self ..
    have hplaced : Placed t := by
      rw [ht]
      refine hreturned.placed hinv h.placed hbefore rfl rfl rfl rfl fun henter hsize haccepted => ?_
      cases henter
      exact (hmeets.2 rfl hsize haccepted).1
    refine h.update _ hreach hplaced (by rw [ht]; rfl) (fun _ => ⟨_, rfl, ?_⟩) fun _ => ?_
    · cases hreturned with
      | alone hflag hcalls hobject => exact .inr ⟨by rw [hobject]; rfl, .inl (by rw [hobject]; rfl)⟩
      | entered hsize henter hclear haccepted hflag hcalls hobject =>
        cases henter
        obtain ⟨-, halike, hsupported⟩ := hmeets.2 rfl hsize haccepted
        refine .inl ⟨by rw [hobject]; rfl, by rw [hobject]; rfl, ?_, halike⟩
        rw [hobject]
        exact hsupported
    · simp [hkept]
  · have hgone : t.contexts id = .gone := by rw [ht]; exact Function.update_self ..
    refine h.update .gone hreach ?_ (by rw [ht]; rfl) (fun hrun => ?_) nofun
    · rw [ht]
      refine h.placed.same (holder_same rfl (by rw [hunused]; rfl)) ?_
      show (s.program.workers.bind fun w => w.takeAll f.calls) = _
      have hnone : f.calls = [] := run_thrown hrun fun henter hsize haccepted => by
        cases henter
        exact (hmeets.2 rfl hsize haccepted).2.1.leader
      rw [hnone, WorkerState.takeAll_nil]
    · simp [hgone] at hrun

/-- `init` and `add_reduce` leave a context with the areas. -/
theorem fortranInit_run {u : State} (h : s.runAll n (fortranInit id reduces) = some u) :
    s.contexts id = .unused ∧ u = s.withCtx id (.fortran ⟨.new reduces, false, false⟩) := by
  have hadds : ∀ (rest done : List ReduceArea),
      (s.withCtx id (.fortran ⟨.new done, false, false⟩)).runAll n (rest.map (.addReduceArea id)) =
        some (s.withCtx id (.fortran ⟨.new (done ++ rest), false, false⟩)) := by
    intro rest
    induction rest with
    | nil =>
      intro done
      rw [List.append_nil]
      rfl
    | cons r rest ih =>
      intro done
      have hstep :
          (s.withCtx id (.fortran ⟨.new done, false, false⟩)).step n (.addReduceArea id r) =
            some (s.withCtx id (.fortran ⟨.new (done ++ [r]), false, false⟩)) := by
        simp [State.step, State.withCtx, ParCtxFortranBinding.addReduceArea, ParCtxBase.new]
      rw [State.runAll, List.map_cons, List.foldlM_cons, hstep]
      show (s.withCtx id (.fortran ⟨.new (done ++ [r]), false, false⟩)).runAll n
        (rest.map (.addReduceArea id)) = _
      rw [ih, List.append_assoc]
      rfl
  cases hs : s.contexts id with
  | unused =>
    have hnew : s.step n (.newCtx id) = some (s.withCtx id (.fortran .new)) := by
      simp [State.step, hs]
    rw [State.runAll, fortranInit, List.foldlM_cons, hnew] at h
    have hall := hadds reduces []
    rw [List.nil_append] at hall
    exact ⟨rfl, (Option.some.inj (hall.symm.trans h)).symm⟩
  | _ => simp [State.runAll, fortranInit, State.step, hs] at h

theorem runAll_reachable {labels : List Label} (h : Reachable (sys n) s)
    (hrun : s.runAll n labels = some t) : Reachable (sys n) t := by
  induction labels generalizing s with
  | nil =>
    cases hrun
    exact h
  | cons l labels ih =>
    rw [State.runAll, List.foldlM_cons] at hrun
    obtain ⟨u, hstep, hrest⟩ := Option.bind_eq_some_iff.mp hrun
    exact ih (h.step hstep) hrest

/-- `parallel_begin.h` without the call. -/
theorem parallelBeginAlone_commInv {s : Uses} (h : CommInv n s)
    (hmeets : (UseLabel.begin id .fortran false reduces kernel).Meets n s)
    (hrun : s.program.runAll n (fortranInit id reduces) = some t) :
    CommInv n (s.next id t true none) := by
  obtain ⟨hunused, ht⟩ := fortranInit_run hrun
  have hone : n = 1 := (hmeets.1 rfl).resolve_left nofun
  refine h.update _ (runAll_reachable h.reachable hrun) ?_ (by rw [ht]; rfl)
    (fun _ => ⟨_, rfl, .inr ⟨rfl, .inr hone⟩⟩) fun _ => rfl
  rw [ht]
  exact h.placed.same (holder_same rfl (by rw [hunused]; rfl)) rfl

theorem parallelBegin_commInv {s : Uses} {u : State} (h : CommInv n s)
    (hmeets : (UseLabel.begin id .fortran true reduces kernel).Meets n s)
    (hrun : s.program.runAll n (fortranInit id reduces) = some u)
    (hthrows : ¬ (Label.enterParallel id true kernel).Throws n u)
    (hstep : u.step n (.enterParallel id true kernel) = some t) :
    CommInv n (s.next id t true kernel.fortran) := by
  obtain ⟨hunused, hu⟩ := fortranInit_run hrun
  have hreach := runAll_reachable h.reachable hrun
  have hctx : u.contexts id = .live (.fortran ⟨.new reduces, false, false⟩) := by
    rw [hu]
    exact Function.update_self ..
  have hplaced : Placed u := by
    rw [hu]
    exact h.placed.same (holder_same rfl (by rw [hunused]; rfl)) rfl
  have hbefore : (u.contexts id).active = false := by rw [hctx]; rfl
  obtain ⟨f, hcall, ht⟩ := enterParallel_step hctx ⟨rfl, rfl⟩ hthrows hstep
  have hreturned := run_returned hcall
  have hsends : n ≠ 1 → ¬ (beginEntry id reduces kernel).Refused u →
      kernel.SendsAll ∧ kernel.FortranAlike n ∧ ∀ r ∈ reduces, r.Supported := by
    rw [hu]
    exact hmeets.2 rfl
  refine h.update (.live (.fortran ⟨f.object, true, true⟩)) (hreach.step hstep) ?_ ?_
    (fun _ => ⟨_, rfl, ?_⟩) fun _ => rfl
  · rw [ht]
    exact hreturned.placed (flagInv hreach) hplaced hbefore rfl rfl rfl rfl
      fun _ hsize haccepted => (hsends hsize haccepted).1
  · rw [ht, hu]
    exact Function.update_idem ..
  · cases hreturned with
    | alone hflag hcalls hobject =>
      exact .inr ⟨by rw [hobject]; rfl, .inl (by rw [hobject]; rfl)⟩
    | entered hsize henter hclear haccepted hflag hcalls hobject =>
      obtain ⟨-, halike, hsupported⟩ := hsends hsize haccepted
      refine .inl ⟨by rw [hobject]; rfl, by rw [hobject]; rfl, ?_, halike⟩
      rw [hobject]
      exact hsupported

theorem destroy_contexts (h : s.step n (.destroy id none) = some t) :
    t.contexts = Function.update s.contexts id .gone := by
  cases stepped h with
  | destroy => rfl

theorem exitParallel_contexts (h : s.step n (.exitParallel id none) = some t) :
    ∃ slot, t.contexts = Function.update s.contexts id slot := by
  cases stepped h with
  | exitParallel => split <;> exact ⟨_, rfl⟩

/-- A destructor. -/
theorem destroy_commInv {s : Uses} (h : CommInv n s)
    (hstep : s.program.step n (.destroy id none) = some t) :
    CommInv n (s.next id t false none) := by
  have hinv := flagInv h.reachable
  have hturn := regular_turn hinv (regular_of_exit rfl rfl) hstep
  exact h.update .gone (h.reachable.step hstep) (hturn.placed hinv h.placed)
    (destroy_contexts hstep) nofun nofun

/-- `parallel_end.h` and the destructor. -/
theorem parallelEnd_commInv {s : Uses} (h : CommInv n s)
    (hrun : s.program.runAll n [.exitParallel id none, .destroy id none] = some t) :
    CommInv n (s.next id t false none) := by
  rw [State.runAll, List.foldlM_cons] at hrun
  obtain ⟨u, hexit, hrest⟩ := Option.bind_eq_some_iff.mp hrun
  rw [List.foldlM_cons] at hrest
  obtain ⟨v, hdestroy, hv⟩ := Option.bind_eq_some_iff.mp hrest
  cases hv
  have hinv := flagInv h.reachable
  have hreach : Reachable (sys n) u := h.reachable.step hexit
  have hplaced : Placed u :=
    (regular_turn hinv (regular_of_exit rfl rfl) hexit).placed hinv h.placed
  have hturn := regular_turn (flagInv hreach) (regular_of_exit rfl rfl) hdestroy
  obtain ⟨slot, hslot⟩ := exitParallel_contexts hexit
  refine h.update .gone (hreach.step hdestroy) (hturn.placed (flagInv hreach) hplaced) ?_
    nofun nofun
  rw [destroy_contexts hdestroy, hslot, Function.update_idem]

/-! ## Agreement -/

theorem commInv {s : Uses} (h : Reachable ((usesSys n).restrict (UseLabel.Meets n)) s) :
    CommInv n s := by
  refine h.invariant ?_ ?_
  · rintro s rfl
    exact ⟨.init rfl, ⟨fun _ => rfl, nofun⟩, nofun, nofun⟩
  · rintro s l t - hinv ⟨hmeets, hstep⟩
    cases hstep with
    | construct hstep => exact construct_commInv hinv hmeets hstep
    | parallelBegin hrun hthrows hstep => exact parallelBegin_commInv hinv hmeets hrun hthrows hstep
    | parallelBeginAlone hrun => exact parallelBeginAlone_commInv hinv hmeets hrun
    | destruct _ _ hstep => exact destroy_commInv hinv hstep
    | parallelEnd _ _ hrun => exact parallelEnd_commInv hinv hrun

/-- A Fortran context that is not entered has the communicator of all
processes. -/
theorem not_agrees {s t : Uses} (h : CommInv n s)
    (hstep : s.Step n (.begin id .fortran false reduces kernel) t) (hn : 1 < n) :
    t.running id = true ∧ ¬ t.CommAgrees n id := by
  cases hstep with
  | parallelBeginAlone hrun =>
    obtain ⟨hunused, rfl⟩ := fortranInit_run hrun
    refine ⟨Function.update_self .., ?_⟩
    rintro ⟨c, hc, hagrees⟩
    have hctx : c = .fortran ⟨.new reduces, false, false⟩ := by
      have hself : (s.program.withCtx id (.fortran ⟨.new reduces, false, false⟩)).contexts id = _ :=
        Function.update_self ..
      exact (Slot.live.inj (hself.symm.trans hc)).symm
    subst hctx
    rcases (hagrees 1 hn).mp hn with hzero | ⟨hin, -, -⟩
    · cases hzero
    · refine h.placed.not_inSection (fun hid => ?_) hin
      rw [State.Holder, hunused] at hid
      cases hid

/-- In every run whose contexts begin so, the communicator of every context whose
code runs contains exactly the processes that run it; and a Fortran context that
several processes do not enter has the wrong one. -/
theorem communicator_ranks (n : Nat) :
    (∀ s id, Reachable ((usesSys n).restrict (UseLabel.Meets n)) s → s.running id = true →
      s.CommAgrees n id) ∧
    ∀ s t id reduces kernel, Reachable ((usesSys n).restrict (UseLabel.Meets n)) s →
      s.Step n (.begin id .fortran false reduces kernel) t → 1 < n →
        t.running id = true ∧ ¬ t.CommAgrees n id :=
  ⟨fun _ _ hs hid => (commInv hs).agrees hid,
    fun _ _ _ _ _ hs hstep hn => not_agrees (commInv hs) hstep hn⟩

/-! ## Two processes -/

/-- No context yet. -/
def Uses.start : Uses := ⟨.start, fun _ => false, fun _ => none⟩

/-- A Fortran context without areas that is not entered. -/
def notEntered : Uses :=
  Uses.start.next 0 (State.start.withCtx 0 (.fortran ⟨.new [], false, false⟩)) true none

theorem step_notEntered : Uses.start.Step 2 (.begin 0 .fortran false [] .ok) notEntered :=
  .parallelBeginAlone rfl

/-- A `par_ctx` that is entered, and the Fortran context. -/
theorem communicator_ranks_two :
    (∃ t, Uses.start.Step 2 (.begin 0 (.raii .parCtx) true [] .ok) t ∧ t.running 0 = true ∧
      t.CommAgrees 2 0) ∧
    notEntered.running 0 = true ∧ ¬ notEntered.CommAgrees 2 0 := by
  have hstep : Uses.start.Step 2 (.begin 0 (.raii .parCtx) true [] .ok) _ := .construct rfl
  have hmeets : (UseLabel.begin 0 (.raii .parCtx) true [] .ok).Meets 2 .start :=
    ⟨nofun, fun _ _ _ => ⟨nofun, nofun, nofun⟩⟩
  have hreach : Reachable ((usesSys 2).restrict (UseLabel.Meets 2)) _ :=
    (Reachable.init rfl).restrict_step _ hmeets hstep
  exact ⟨⟨_, hstep, rfl, (communicator_ranks 2).1 _ 0 hreach rfl⟩,
    (communicator_ranks 2).2 .start notEntered 0 [] .ok (.init rfl) step_notEntered Nat.one_lt_two⟩

/-- The leader runs the code alone with the communicator of both processes, while
the worker waits for a tag. -/
theorem communicator_ranks_not : ∃ c, Reachable (usesSys 2) notEntered ∧
    notEntered.running 0 = true ∧ notEntered.program.contexts 0 = .live c ∧ c.getComm = .world ∧
    notEntered.program.workers = some .waiting ∧ ¬ notEntered.CommAgrees 2 0 := by
  refine ⟨.fortran ⟨.new [], false, false⟩, (Reachable.init rfl).step step_notEntered, rfl, rfl,
    rfl, rfl, ?_⟩
  rintro ⟨c, hc, hagrees⟩
  cases hc
  rcases (hagrees 1 Nat.one_lt_two).mp Nat.one_lt_two with hzero | ⟨hin, -⟩
  · cases hzero
  · cases hin

end SimpleParallel.Context
