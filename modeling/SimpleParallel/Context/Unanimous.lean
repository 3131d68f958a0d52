import SimpleParallel.Context.Regular

/-!
# Agreement on entering the body

A worker comes to the middle of `do_enter_parallel` with the pointer of the
leader's context. There it initialises the reduce areas, and
`init_reduce_area_on_worker` throws for those it does not support. The leader
checks overlaps before the synchronisation, and does not look at types and
operations at all. With the Fortran binding every rank then searches its global
variables, which throws on the ranks where it fails, and the others call together.

* `entry_unanimous`: when all ranks return from an entry or none does, and that
  the others are those with an unsupported area, in runs in which nothing else
  fails.
* `entry_not_unanimous`: the maximum of `double`s.
-/

namespace SimpleParallel.Context

open LTS Reduce Sync

/-! ## The ends of an entry -/

/-- How far a rank gets in `do_enter_parallel`. Before it comes there, in a call,
or behind a failed assertion it is blocked. -/
inductive EntryEnd
  | blocked
  | thrown (what : String)
  | returned
  deriving DecidableEq

/-- A worker takes part in the calls of an entry, up to its reduce areas. -/
def workerEntry (reduces : List ReduceArea) (m : Mem) :
    WorkerState → List Collective → EntryEnd
  | _, [] => .blocked
  | w, call :: calls =>
    match call, w.take call with
    | _, none => .blocked
    -- `swapcontext` into the context of the leader
    | .parallelCtx _, some _ =>
      match ReduceArea.initAll reduces m with
      | .error what => .thrown what
      | .ok _ => .returned
    | _, some w => workerEntry reduces m w calls

/-- A rank in the call `e`, with the memories of the workers, up to the calls over the
Fortran variables. -/
def Entry.upToCalls (worldSize : Nat) (s : State) (memory : Nat → Mem) (e : Entry) (rank : Nat) :
    EntryEnd :=
  if rank = 0 then
    match e.run worldSize s.inParallel with
    | .error what _ => .thrown what
    | .ok _ _ => .returned
  else
    match s.workers with
    | none => .blocked
    | some w =>
      match workerEntry e.ctx.reduces (memory rank) w
          (resultFrame (e.run worldSize s.inParallel)).calls with
      | .returned =>
        match e.kernel.fortranThrows rank with
        | some what => .thrown what
        | none => .returned
      | early => early

/-- All ranks come to the calls over the Fortran variables, and make the same. -/
def Entry.Meets (worldSize : Nat) (s : State) (memory : Nat → Mem) (e : Entry)
    (step : FortranStep) : Prop :=
  (∀ rank < worldSize, e.upToCalls worldSize s memory rank = .returned) ∧
    ∀ rank < worldSize, step.vars rank = step.vars 0

instance {worldSize : Nat} {s : State} {memory : Nat → Mem} {e : Entry} {step : FortranStep} :
    Decidable (e.Meets worldSize s memory step) := inferInstanceAs (Decidable (_ ∧ _))

/-- How the call `e` ends on a rank. -/
def Entry.ending (worldSize : Nat) (s : State) (memory : Nat → Mem) (e : Entry)
    (rank : Nat) : EntryEnd :=
  match e.upToCalls worldSize s memory rank, e.kernel.fortran with
  | .returned, some step =>
    if e.Meets worldSize s memory step ∨ step.keeps rank = false then .returned else .blocked
  | early, _ => early

/-- The ranks agree on an entry, for the memories of the workers. -/
structure Unanimous (worldSize : Nat) (s : State) (memory : Nat → Mem) (e : Entry) : Prop where
  allOrNone : e.enterParallel = true →
    (∀ rank < worldSize, e.ending worldSize s memory rank = .returned) ∨
      ∀ rank < worldSize, e.ending worldSize s memory rank ≠ .returned
  noneThrown : e.enterParallel = true → e.ending worldSize s memory 0 = .returned →
    ∀ rank < worldSize, ∀ what, e.ending worldSize s memory rank ≠ .thrown what

/-- The leader throws before the synchronisation. -/
def Entry.Refused (s : State) (e : Entry) : Prop :=
  s.inParallel = true ∨ e.kernel.getcontext ≠ none ∨
    verifyReducesNoOverlap e.ctx.reduces ≠ .ok () ∨ e.kernel.swapcontext ≠ none

/-- The workers come to the middle of the call, and support all areas. -/
def Entry.Reached (s : State) (e : Entry) : Prop :=
  s.workers = some .waiting ∧ e.kernel.SendsAll ∧ ∀ r ∈ e.ctx.reduces, r.Supported

/-- All ranks come out of the Fortran step if they all come to it. -/
def FortranStep.Passed (worldSize : Nat) (step : FortranStep) : Prop :=
  (∀ rank < worldSize, step.throws rank = none) ∧
    ((∀ rank < worldSize, step.vars rank = step.vars 0) ∨
      ∀ rank < worldSize, step.keeps rank = false)

/-- The condition for agreement. -/
def Entry.Agreeable (worldSize : Nat) (s : State) (e : Entry) : Prop :=
  e.enterParallel = false ∨ worldSize ≤ 1 ∨ e.Refused s ∨
    (e.Reached s ∧ ∀ step, e.kernel.fortran = some step → step.Passed worldSize) ∨
    -- the search fails, or the calls keep the rank, wherever it comes to the Fortran step
    ∃ step, e.kernel.fortran = some step ∧ ∀ rank < worldSize, rank = 0 ∨ e.Reached s →
      step.throws rank ≠ none ∨ step.keeps rank = true

variable {n : Nat} {s t : State} {l : Label} {e : Entry} {memory : Nat → Mem} {m : Mem}
  {reduces : List ReduceArea}

/-! ## The calls of an entry -/

/-- Once a tag has arrived, no other is awaited before the section begins. -/
def WorkerState.Tagged : WorkerState → Prop
  | receiving rest => .rpcTag ∉ rest
  | _ => True

theorem take_tagged {w w' : WorkerState} {c : Collective} (hw : w.Tagged) (h : w.take c = some w') :
    w'.Tagged := by
  unfold WorkerState.take at h
  split at h
  · cases h
    show Collective.rpcTag ∉ [.memOps, .stack, .heap]
    decide
  · split at h
    · cases h
      exact fun hmem => hw (List.mem_cons_of_mem _ hmem)
    · cases h
  · cases h
    trivial
  · cases h
    trivial
  · split at h
    · cases h
      trivial
    · cases h
  · cases h

theorem takeAll_tagged {w w' : WorkerState} {calls : List Collective} (hw : w.Tagged)
    (h : w.takeAll calls = some w') : w'.Tagged := by
  induction calls generalizing w with
  | nil =>
    cases h
    exact hw
  | cons c calls ih =>
    rw [WorkerState.takeAll, List.foldlM_cons] at h
    obtain ⟨u, hu, hrest⟩ := Option.bind_eq_some_iff.mp h
    exact ih (take_tagged hw hu) hrest

theorem leave_tagged {w : WorkerState} {id : Nat} (hw : w.Tagged) : (w.leave id).Tagged := by
  unfold WorkerState.leave
  split
  · trivial
  · exact hw

/-- A step makes some calls, and may end a section. -/
theorem step_workers (h : s.step n l = some t) : ∃ calls id,
    t.workers = s.workers.bind (·.takeAll calls) ∨
      t.workers = (s.workers.bind (·.takeAll calls)).map (.leave id) := by
  have hnone : s.workers = s.workers.bind (·.takeAll []) := (WorkerState.takeAll_nil _).symm
  cases stepped h with
  | @construct id => exact ⟨_, id, .inl rfl⟩
  | @newCtx id => exact ⟨[], id, .inl hnone⟩
  | @addReduceArea id => exact ⟨[], id, .inl hnone⟩
  | @enterParallel id => exact ⟨_, id, .inl rfl⟩
  | @exitParallel id =>
    split
    · exact ⟨_, id, .inr rfl⟩
    · exact ⟨_, id, .inl rfl⟩
  | @destroy id => exact ⟨_, id, .inr rfl⟩

theorem tagged (h : Reachable (sys n) s) : ∀ w, s.workers = some w → w.Tagged := by
  refine h.invariant (P := fun s => ∀ w, s.workers = some w → w.Tagged) ?_ ?_
  · rintro s rfl w hw
    cases hw
    trivial
  · intro s l t _ hs hstep w hw
    obtain ⟨calls, id, hworkers | hworkers⟩ := step_workers hstep
    · rw [hworkers] at hw
      obtain ⟨u, hu, htake⟩ := Option.bind_eq_some_iff.mp hw
      exact takeAll_tagged (hs u hu) htake
    · rw [hworkers] at hw
      obtain ⟨v, hv, rfl⟩ := Option.map_eq_some_iff.mp hw
      obtain ⟨u, hu, htake⟩ := Option.bind_eq_some_iff.mp hv
      exact leave_tagged (takeAll_tagged (hs u hu) htake)

/-- The first call of an entry is matched in the loop only. -/
theorem workerEntry_loop {w : WorkerState} {calls : List Collective} (hw : w ≠ .waiting)
    (htagged : w.Tagged) : workerEntry reduces m w (.rpcTag :: calls) = .blocked := by
  cases w with
  | waiting => exact absurd rfl hw
  | receiving rest =>
    cases rest with
    | nil => rfl
    | cons c rest =>
      have hne : c ≠ .rpcTag := fun heq => htagged (heq ▸ List.mem_cons_self)
      simp [workerEntry, WorkerState.take, hne]
  | inSection id => rfl

theorem workerEntry_elsewhere {w : WorkerState} {id : Nat} {kernel : Kernel}
    {tail : List Collective} (hw : w ≠ .waiting) (htagged : w.Tagged)
    (htail : tail = [] ∨ tail = [.fortranGlobalVariables]) :
    workerEntry reduces m w (enterParallelImpl id kernel ++ tail) ≠ .returned := by
  have hfirst : ∀ calls, workerEntry reduces m w (.rpcTag :: calls) ≠ .returned := fun calls => by
    rw [workerEntry_loop hw htagged]
    nofun
  rw [enterParallelImpl]
  cases himpl : kernel.impl with
  | none => exact hfirst _
  | some made =>
    cases made with
    | zero =>
      rcases htail with rfl | rfl
      · nofun
      · show workerEntry reduces m w [.fortranGlobalVariables] ≠ .returned
        simp only [workerEntry]
        cases w.take .fortranGlobalVariables <;> nofun
    | succ made => exact hfirst _

/-- The calls of an entry bring a worker to the areas if all are made. -/
theorem workerEntry_waiting {id : Nat} {kernel : Kernel} {tail : List Collective}
    (htail : tail = [] ∨ tail = [.fortranGlobalVariables]) :
    workerEntry reduces m .waiting (enterParallelImpl id kernel ++ tail) = .returned ↔
      kernel.SendsAll ∧ ∀ r ∈ reduces, r.Supported := by
  by_cases hall : kernel.SendsAll
  · rw [enterParallelImpl_sendsAll hall, ← ReduceArea.initAll_total (m := m)]
    simp only [List.cons_append, List.nil_append, workerEntry, WorkerState.take, if_true]
    cases hinit : ReduceArea.initAll reduces m with
    | ok m' => simp [hall]
    | error what => simp
  · refine iff_of_false ?_ fun h => hall h.1
    simp only [Kernel.SendsAll, not_forall, Nat.not_le] at hall
    obtain ⟨made, himpl, hlt⟩ := hall
    have hcalls : enterParallelImpl id kernel =
        [.rpcTag, .memOps, .stack, .heap, .parallelCtx id].take made := by
      rw [enterParallelImpl, himpl]
    have hmade : made = 0 ∨ made = 1 ∨ made = 2 ∨ made = 3 ∨ made = 4 := by omega
    rw [hcalls]
    intro hreturned
    rcases htail with rfl | rfl <;>
      rcases hmade with rfl | rfl | rfl | rfl | rfl <;> cases hreturned

/-! ## Agreement -/

/-- A refused entry makes no call. -/
theorem run_refused (hpar : ¬ Alone n e.enterParallel e.ctx) (h : e.Refused s) :
    ∃ what f, e.run n s.inParallel = .error what f ∧ f.calls = [] := by
  unfold Alone at hpar
  simp only [Entry.run, doEnterParallel, EStateM.run_bind, EStateM.run_get, if_neg hpar]
  unfold Entry.Refused at h
  cases hp : s.inParallel with
  | true => exact ⟨_, _, rfl, rfl⟩
  | false =>
    cases hget : e.kernel.getcontext with
    | some reason => exact ⟨_, _, rfl, rfl⟩
    | none =>
      cases hverify : verifyReducesNoOverlap e.ctx.reduces with
      | error what => exact ⟨_, _, rfl, rfl⟩
      | ok u =>
        cases hswap : e.kernel.swapcontext with
        | some reason => exact ⟨_, _, rfl, rfl⟩
        | none =>
          rw [hp, hget, hverify, hswap] at h
          simp at h

/-- The others come to the synchronisation, and return unless the leader's search throws. -/
theorem run_accepted (hpar : ¬ Alone n e.enterParallel e.ctx) (h : ¬ e.Refused s) :
    ∃ tail, (tail = [] ∨ tail = [.fortranGlobalVariables]) ∧
      (resultFrame (e.run n s.inParallel)).calls = enterParallelImpl e.id e.kernel ++ tail ∧
      ((∃ what f, e.kernel.fortranThrows 0 = some what ∧
          e.run n s.inParallel = .error what f) ∨
        ∃ f, e.kernel.fortranThrows 0 = none ∧ e.run n s.inParallel = .ok () f) := by
  unfold Alone at hpar
  simp only [Entry.Refused, not_or, not_not, Bool.not_eq_true] at h
  obtain ⟨hp, hget, hverify, hswap⟩ := h
  simp only [Entry.run, doEnterParallel, EStateM.run_bind, EStateM.run_get, if_neg hpar, hp, hget,
    hverify, hswap]
  cases hfortran : e.kernel.fortranThrows 0 with
  | some what => exact ⟨[], .inl rfl, (List.append_nil _).symm, .inl ⟨what, _, rfl, rfl⟩⟩
  | none => exact ⟨_, .inr rfl, rfl, .inr ⟨_, rfl, rfl⟩⟩

/-- Up to the calls over the Fortran variables comes a rank whose search succeeds: the
leader, and a worker that waits for the tag of an entry that is not refused, if all
calls are made and it supports all areas. -/
theorem upToCalls_iff (hs : Reachable (sys n) s) (hpar : ¬ Alone n e.enterParallel e.ctx)
    (h : ¬ e.Refused s) (rank : Nat) : e.upToCalls n s memory rank = .returned ↔
      (rank = 0 ∨ e.Reached s) ∧ e.kernel.fortranThrows rank = none := by
  obtain ⟨tail, htail, hcalls, hrun⟩ := run_accepted hpar h
  by_cases hrank : rank = 0
  · subst hrank
    rcases hrun with ⟨what, f, hthrows, hrun⟩ | ⟨f, hthrows, hrun⟩ <;>
      simp [Entry.upToCalls, hrun, hthrows]
  · have hreached : ∀ w, s.workers = some w →
        (workerEntry e.ctx.reduces (memory rank) w (enterParallelImpl e.id e.kernel ++ tail) =
          .returned ↔ e.Reached s) := by
      intro w hw
      by_cases hwait : w = .waiting
      · subst hwait
        simp [workerEntry_waiting htail, Entry.Reached, hw]
      · refine iff_of_false (workerEntry_elsewhere hwait (tagged hs w hw) htail) fun h => hwait ?_
        exact Option.some.inj (hw.symm.trans h.1)
    simp only [Entry.upToCalls, hrank, if_false, false_or, hcalls]
    cases hw : s.workers with
    | none =>
      refine iff_of_false nofun fun h => ?_
      rw [Entry.Reached, hw] at h
      cases h.1.1
    | some w =>
      rw [← hreached w hw]
      cases hentry : workerEntry e.ctx.reduces (memory rank) w
          (enterParallelImpl e.id e.kernel ++ tail) with
      | returned => cases hthrows : e.kernel.fortranThrows rank <;> simp [hentry]
      | blocked => simp [hentry]
      | thrown what => simp [hentry]

/-- It returns if it has nothing to wait for, or all come and find the same. -/
theorem ending_iff {rank : Nat} : e.ending n s memory rank = .returned ↔
    e.upToCalls n s memory rank = .returned ∧
      ∀ step, e.kernel.fortran = some step →
        e.Meets n s memory step ∨ step.keeps rank = false := by
  unfold Entry.ending
  cases hup : e.upToCalls n s memory rank with
  | blocked => simp
  | thrown what => simp
  | returned =>
    cases hstep : e.kernel.fortran with
    | none => simp
    | some step =>
      simp only [Option.some.injEq, forall_eq', true_and, ite_eq_left_iff, reduceCtorEq, imp_false,
        not_not]

theorem FortranStep.Alike.passed {step : FortranStep} (h : step.Alike n) : step.Passed n := by
  obtain ⟨vars, hleader, hall⟩ := h
  refine ⟨fun rank hrank => throws_of_collect (hall rank hrank), .inl fun rank hrank => ?_⟩
  rw [vars_of_collect (hall rank hrank), vars_of_collect hleader]

theorem Unanimous.of_all (h : ∀ rank < n, e.ending n s memory rank = .returned) :
    Unanimous n s memory e := by
  refine ⟨fun _ => .inl h, fun _ _ rank hrank what => ?_⟩
  rw [h rank hrank]
  nofun

theorem Unanimous.of_none (hn : 0 < n) (h : ∀ rank < n, e.ending n s memory rank ≠ .returned) :
    Unanimous n s memory e :=
  ⟨fun _ => .inr h, fun _ hzero => absurd hzero (h 0 hn)⟩

/-- A process without workers agrees with itself. -/
theorem unanimous_few (hn : n ≤ 1) : Unanimous n s memory e := by
  have hzero : ∀ rank < n, rank = 0 := fun rank hrank => by omega
  refine ⟨fun _ => ?_, fun _ hreturned rank hrank what => ?_⟩
  · rcases Classical.em (e.ending n s memory 0 = .returned) with h | h
    · exact .inl fun rank hrank => hzero rank hrank ▸ h
    · exact .inr fun rank hrank => hzero rank hrank ▸ h
  · rw [hzero rank hrank, hreturned]
    nofun

theorem unanimous_of_refused (hn : 0 < n) (hpar : ¬ Alone n e.enterParallel e.ctx)
    (h : e.Refused s) : Unanimous n s memory e := by
  obtain ⟨what, f, hrun, hcalls⟩ := run_refused hpar h
  refine .of_none hn fun rank _ hreturned => ?_
  have hup := (ending_iff.mp hreturned).1
  simp only [Entry.upToCalls, hrun, resultFrame, hcalls] at hup
  split at hup
  · cases hup
  · cases hw : s.workers <;> rw [hw] at hup <;> cases hup

/-- The ranks agree on an entry exactly if it is agreeable. -/
theorem unanimous_iff (hs : Reachable (sys n) s) (he : l.entry s = some e) :
    Unanimous n s memory e ↔ e.Agreeable n s := by
  by_cases henter : e.enterParallel = false
  · have hvacuous : Unanimous n s memory e :=
      ⟨fun h => by simp [henter] at h, fun h => by simp [henter] at h⟩
    exact iff_of_true hvacuous (.inl henter)
  by_cases hn : n ≤ 1
  · exact iff_of_true (unanimous_few hn) (.inr (.inl hn))
  have hpos : 0 < n := by omega
  have hpar : ¬ Alone n e.enterParallel e.ctx := by
    rw [Alone, entry_comm hs he, not_or]
    exact ⟨henter, by simp only [Comm.size]; omega⟩
  by_cases hrefused : e.Refused s
  · exact iff_of_true (unanimous_of_refused hpos hpar hrefused) (.inr (.inr (.inl hrefused)))
  have hup : ∀ rank, e.upToCalls n s memory rank = .returned ↔ _ := upToCalls_iff hs hpar hrefused
  have hthrows : ∀ {step}, e.kernel.fortran = some step → ∀ rank,
      e.kernel.fortranThrows rank = step.throws rank := fun hstep rank => by
    rw [Kernel.fortranThrows, hstep]
    rfl
  constructor
  · intro h
    rcases h.allOrNone (by simpa using henter) with hall | hnone
    · have hreached : e.Reached s :=
        (((hup 1).mp (ending_iff.mp (hall 1 (by omega))).1).1).resolve_left Nat.one_ne_zero
      refine .inr (.inr (.inr (.inl ⟨hreached, fun step hstep => ⟨fun rank hrank => ?_, ?_⟩⟩)))
      · rw [← hthrows hstep]
        exact ((hup rank).mp (ending_iff.mp (hall rank hrank)).1).2
      · by_cases hmeets : e.Meets n s memory step
        · exact .inl hmeets.2
        · exact .inr fun rank hrank =>
            ((ending_iff.mp (hall rank hrank)).2 step hstep).resolve_left hmeets
    · cases hstep : e.kernel.fortran with
      | none =>
        refine absurd (ending_iff.mpr ⟨(hup 0).mpr ⟨.inl rfl, ?_⟩, fun step h => ?_⟩) (hnone 0 hpos)
        · rw [Kernel.fortranThrows, hstep]
          rfl
        · rw [hstep] at h
          cases h
      | some step =>
        refine .inr (.inr (.inr (.inr ⟨step, hstep, fun rank hrank hcomes => ?_⟩)))
        by_contra hpass
        rw [not_or, not_not, Bool.not_eq_true] at hpass
        refine hnone rank hrank (ending_iff.mpr ⟨(hup rank).mpr ⟨hcomes, ?_⟩, fun step' h => ?_⟩)
        · rw [hthrows hstep]
          exact hpass.1
        · cases hstep.symm.trans h
          exact .inr hpass.2
  · rintro (h | h | h | ⟨hreached, hpassed⟩ | ⟨step, hstep, hkept⟩)
    · exact absurd h henter
    · exact absurd h hn
    · exact absurd h hrefused
    · have hcome : ∀ rank < n, e.upToCalls n s memory rank = .returned := fun rank hrank => by
        refine (hup rank).mpr ⟨.inr hreached, ?_⟩
        cases hstep : e.kernel.fortran with
        | none => rw [Kernel.fortranThrows, hstep]; rfl
        | some step => rw [hthrows hstep]; exact (hpassed step hstep).1 rank hrank
      refine .of_all fun rank hrank => ending_iff.mpr ⟨hcome rank hrank, fun step hstep => ?_⟩
      exact (hpassed step hstep).2.imp (fun halike => ⟨hcome, halike⟩) fun h => h rank hrank
    · rcases Classical.em (e.Meets n s memory step) with hmeets | hmeets
      · refine .of_all fun rank hrank => ending_iff.mpr ⟨hmeets.1 rank hrank, fun step' h => ?_⟩
        cases hstep.symm.trans h
        exact .inl hmeets
      · refine .of_none hpos fun rank hrank hreturned => ?_
        obtain ⟨hcalls, hpass⟩ := ending_iff.mp hreturned
        obtain ⟨hcomes, hfound⟩ := (hup rank).mp hcalls
        rw [hthrows hstep] at hfound
        have hfree := (hpass step hstep).resolve_left hmeets
        rcases hkept rank hrank hcomes with hthrown | hkept
        · exact hthrown hfound
        · rw [hfree] at hkept
          cases hkept

/-- In every run and for every entry, the ranks agree exactly if the entry is
agreeable. Where nothing else fails, it is if all areas are supported. -/
theorem entry_unanimous (n : Nat) :
    (∀ s t l e memory, Reachable (sys n) s → s.step n l = some t → l.entry s = some e →
      (Unanimous n s memory e ↔ e.Agreeable n s)) ∧
    ∀ s t l e memory, Reachable (regularSys n) s → l.Regular n s → s.step n l = some t →
      l.entry s = some e → (∀ r ∈ e.ctx.reduces, r.Supported) → Unanimous n s memory e := by
  refine ⟨fun s t l e memory hs _ he => unanimous_iff hs he, ?_⟩
  intro s t l e memory hs hregular _ he hsupported
  rw [unanimous_iff hs.of_restrict he]
  cases hp : s.inParallel with
  | true => exact .inr (.inr (.inl (.inl hp)))
  | false =>
    have hwaiting := waiting_of_clear hs hp
    refine .inr (.inr (.inr (.inl ⟨⟨hwaiting, hregular.sendsAll e he, hsupported⟩, ?_⟩)))
    intro step hstep
    exact (hregular.fortran e he step hstep).passed

/-- The Fortran step of two ranks that find no variable, and one whose worker cannot open
its program. -/
def noVariables : FortranStep := ⟨fun _ => .ok [], fun _ => false⟩

def unopened : FortranStep where
  collect rank := if rank = 0 then .ok [] else .error "Failed to open /proc/self/exe"
  keeps _ := false

/-- A sum of `int`s; a conjunction of truth values in a regular run, also with the Fortran
binding; and an entry of the release build with a search that fails. -/
theorem entry_unanimous_start :
    Unanimous 2 .start (fun _ _ => 0) ⟨0, .new [⟨2 ^ 41, 1, .int, .sum⟩], true, .ok⟩ ∧
    Unanimous 2 .start (fun _ _ => 0) ⟨0, .new [⟨2 ^ 41, 1, .cBool, .land⟩], true,
      { Kernel.ok with fortran := some noVariables }⟩ ∧
    ¬ Unanimous 2 .start (fun _ _ => 0) ⟨0, .new [], true,
      { Kernel.ok with fortran := some unopened }⟩ := by
  have hregular : (Label.construct 0 .parCtx true [⟨2 ^ 41, 1, .cBool, .land⟩]
      { Kernel.ok with fortran := some noVariables }).Regular 2 .start := by
    refine ⟨?_, ?_, ?_, rfl⟩
    · rintro ⟨e, what, f, hentry, hrun⟩
      cases hentry
      cases hrun
    · intro e hentry
      cases hentry
      exact nofun
    · rintro e hentry step hstep
      cases hentry
      cases hstep
      exact ⟨[], rfl, fun _ _ => rfl⟩
  refine ⟨((entry_unanimous 2).1 .start _ (.construct 0 .parCtx true [⟨2 ^ 41, 1, .int, .sum⟩] .ok)
      _ _ (.init rfl) rfl rfl).mpr (.inr (.inr (.inr (.inl ⟨⟨rfl, nofun, by decide⟩, nofun⟩)))),
    (entry_unanimous 2).2 .start _ _ _ _ (.init rfl) hregular rfl rfl (by decide), fun h => ?_⟩
  rcases ((entry_unanimous 2).1 .start _ (.construct 0 .parCtx true [] _) _ _ (.init rfl) rfl
    rfl).mp h with h | h | h | ⟨-, h⟩ | ⟨step, hstep, h⟩
  · cases h
  · exact absurd h (by decide)
  · rcases h with h | h | h | h
    · cases h
    · exact h rfl
    · exact h rfl
    · exact h rfl
  · cases (h unopened rfl).1 1 Nat.one_lt_two
  · cases hstep
    rcases h 0 Nat.two_pos (.inl rfl) with h | h
    · exact h rfl
    · cases h

/-- The maximum of one `double`. -/
def oneMax : ReduceArea := ⟨2 ^ 41, 1, .double, .max⟩

/-- The leader returns with the section open, and will reduce when it leaves. The
worker throws. -/
theorem entry_not_unanimous : ∃ t ctx,
    State.start.step 2 (.construct 0 .parCtx true [oneMax] .ok) = some t ∧
    t.contexts 0 = .live ctx ∧ ctx.active = true ∧
    (ctx.destroy 2 0 none t.inParallel).calls = [.reduce 0 (2 ^ 41) 1 .double .max] ∧
    (Entry.mk 0 (.new [oneMax]) true .ok).ending 2 .start (fun _ _ => 0) 0 = .returned ∧
    (Entry.mk 0 (.new [oneMax]) true .ok).ending 2 .start (fun _ _ => 0) 1 = .thrown
      ("Error: Reduce " ++ "MPI_DOUBLE" ++ " with MPI Operation " ++ "MPI_MAX" ++
        " is not supported by simple_parallel. You can manually call " ++
        "`MPI_Reduce` to reduce your array/value.\n") ∧
    ¬ Unanimous 2 .start (fun _ _ => 0) ⟨0, .new [oneMax], true, .ok⟩ := by
  have hworker : (Entry.mk 0 (.new [oneMax]) true .ok).ending 2 .start (fun _ _ => 0) 1 = .thrown
      ("Error: Reduce " ++ "MPI_DOUBLE" ++ " with MPI Operation " ++ "MPI_MAX" ++
        " is not supported by simple_parallel. You can manually call " ++
        "`MPI_Reduce` to reduce your array/value.\n") := rfl
  have hcalls : reduceCalls 0 oneMax = [.reduce 0 (2 ^ 41) 1 .double .max] := by
    rw [reduceCalls, oneMax, Loops.chunks, Loops.chunksFrom_cons (by decide) (by decide),
      Loops.chunksFrom_nil (by decide)]
    rfl
  refine ⟨_, _, rfl, rfl, rfl, ?_, rfl, hworker, fun h => ?_⟩
  · have hrun : (doExitParallel 2 0 none).run ⟨true, ⟨.world, [oneMax], true⟩, []⟩ =
        .ok () ⟨false, ⟨.world, [oneMax], true⟩, [oneMax].flatMap (reduceCalls 0)⟩ := rfl
    exact (congrArg Outcome.calls (outcome_ok hrun)).trans
      (by rw [List.flatMap_cons, hcalls]; rfl)
  · exact h.noneThrown rfl rfl 1 Nat.one_lt_two _ hworker

end SimpleParallel.Context
