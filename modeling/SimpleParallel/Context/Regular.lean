import SimpleParallel.Context.Program

/-!
# Runs in which nothing fails

Where the workers are in a run whose entries and exits succeed, calls apart
that find another section in progress.

* `step_entry`: what a step does that calls `do_enter_parallel`.
* `regular_turn`: a step of such a run leaves the flag and the workers alone,
  enters a context, or leaves the active one.
* `placed`: the workers are in the section of the active context, and else in
  their loop.
-/

namespace SimpleParallel.Context

open LTS Reduce

variable {n id : Nat} {s t : State} {l : Label} {e : Entry}

/-! ## Entries -/

/-- The frame that a call leaves. -/
def resultFrame : EStateM.Result String (Frame ParCtxBase) Unit → Frame ParCtxBase
  | .ok _ f => f
  | .error _ f => f

/-- What a step does that calls `do_enter_parallel`. -/
structure EntryStep (worldSize : Nat) (s t : State) (e : Entry) (slot : Slot) : Prop where
  contexts : t.contexts = Function.update s.contexts e.id slot
  inParallel : t.inParallel = (resultFrame (e.run worldSize s.inParallel)).inParallel
  workers : t.workers =
    s.workers.bind fun w => w.takeAll (resultFrame (e.run worldSize s.inParallel)).calls
  fresh : e.ctx.enteredParallel = false
  before : (s.contexts e.id).active = false
  returned : ∀ f, e.run worldSize s.inParallel = .ok () f → slot.active = f.object.enteredParallel
  thrown : ∀ what f, e.run worldSize s.inParallel = .error what f → slot.active = true →
    f.object.enteredParallel = true

theorem construct_entry {wrapper : RaiiWrapper} {enter : Bool} {reduces : List ReduceArea}
    {kernel : Kernel} {o : Outcome} (hs : s.contexts id = .unused)
    (ho : o = Ctx.construct n id wrapper enter reduces kernel s.inParallel) :
    ∃ slot, EntryStep n s (s.after id (if o.thrown = none then .live o.ctx else .gone) o)
      ⟨id, .new reduces, enter, kernel⟩ slot := by
  have hbefore : (s.contexts id).active = false := by rw [hs]; rfl
  cases hrun : (Entry.mk id (.new reduces) enter kernel).run n s.inParallel with
  | ok u f =>
    rw [Ctx.construct_ok hrun] at ho
    subst ho
    refine ⟨.live (.raii wrapper f.object), rfl, ?_, ?_, rfl, hbefore, ?_, ?_⟩
    · rw [hrun]; rfl
    · rw [hrun]; rfl
    · intro g hg
      rw [hrun] at hg
      cases hg
      rfl
    · intro what g hg
      rw [hrun] at hg
      cases hg
  | error what f =>
    rw [Ctx.construct_error hrun] at ho
    subst ho
    refine ⟨.gone, rfl, ?_, ?_, rfl, hbefore, ?_, ?_⟩
    · rw [hrun]; rfl
    · rw [hrun]; rfl
    · intro g hg
      rw [hrun] at hg
      cases hg
    · intro what' g _ hactive
      cases hactive

theorem enterParallel_entry {b : ParCtxFortranBinding} {enter : Bool} {kernel : Kernel}
    {o : Outcome} (hinv : FlagInv s) (hs : s.contexts id = .live (.fortran b)) (hfresh : b.Fresh)
    (ho : o = outcome .fortran (ParCtxFortranBinding.enterParallel n id kernel enter)
      s.inParallel b) :
    ∃ slot, EntryStep n s (s.after id (.live o.ctx) o)
      ⟨id, b.toParCtxBase, enter, kernel⟩ slot := by
  have hentered : b.enteredParallel = false := not_entered (hs ▸ hinv.ok id) hfresh
  have hbefore : (s.contexts id).active = false := by
    simp [hs, Slot.active, Ctx.active, hentered]
  cases hrun : (Entry.mk id b.toParCtxBase enter kernel).run n s.inParallel with
  | ok u f =>
    rw [ParCtxFortranBinding.enterParallel_ok hfresh hrun] at ho
    subst ho
    refine ⟨_, rfl, ?_, ?_, hentered, hbefore, ?_, ?_⟩
    · rw [hrun]; rfl
    · rw [hrun]; rfl
    · intro g hg
      rw [hrun] at hg
      cases hg
      rfl
    · intro what g hg
      rw [hrun] at hg
      cases hg
  | error what f =>
    rw [ParCtxFortranBinding.enterParallel_error hfresh hrun] at ho
    subst ho
    refine ⟨_, rfl, ?_, ?_, hentered, hbefore, ?_, ?_⟩
    · rw [hrun]; rfl
    · rw [hrun]; rfl
    · intro g hg
      rw [hrun] at hg
      cases hg
    · intro what' g hg hactive
      rw [hrun] at hg
      cases hg
      exact hactive

theorem step_entry (hinv : FlagInv s) (hstep : s.step n l = some t) (hentry : l.entry s = some e) :
    ∃ slot, EntryStep n s t e slot := by
  cases stepped hstep with
  | construct hs ho =>
    cases hentry
    exact construct_entry hs ho
  | enterParallel hs ho =>
    obtain ⟨hfresh, rfl⟩ := entry_fresh hs hentry
    exact enterParallel_entry hinv hs hfresh ho
  | _ => cases hentry

/-! ## Turns -/

/-- No step of the synchronisation fails before the context's pointer is sent. -/
def Kernel.SendsAll (kernel : Kernel) : Prop := ∀ made, kernel.impl = some made → 5 ≤ made

theorem enterParallelImpl_sendsAll {kernel : Kernel} (h : kernel.SendsAll) :
    enterParallelImpl id kernel = [.rpcTag, .memOps, .stack, .heap, .parallelCtx id] := by
  unfold enterParallelImpl
  cases himpl : kernel.impl with
  | none => rfl
  | some made => exact List.take_of_length_le (h made himpl)

/-- The call with this number fails. -/
def Label.refused : Label → Option Nat
  | .exitParallel _ refused | .destroy _ refused => refused
  | _ => none

/-- The step fails at most because a section is in progress. -/
structure Label.Regular (worldSize : Nat) (s : State) (l : Label) : Prop where
  throws : l.Throws worldSize s → s.inParallel = true
  sendsAll : ∀ e, l.entry s = some e → e.kernel.SendsAll
  fortran : ∀ e, l.entry s = some e → e.kernel.FortranAlike worldSize
  refused : l.refused = none

/-- A step that enters nothing, and no call of which fails. -/
theorem regular_of_exit (hentry : l.entry s = none) (hrefused : l.refused = none) :
    l.Regular n s := by
  refine ⟨?_, fun e he => ?_, fun e he => ?_, hrefused⟩
  · rintro ⟨e, what, f, he, -⟩
    rw [hentry] at he
    cases he
  all_goals
    rw [hentry] at he
    cases he

/-- A reduction at the end of the section of `id`. -/
def Collective.ReducesFor (id : Nat) (c : Collective) : Prop :=
  ∃ addr count type op, c = .reduce id addr count type op

/-- What a regular step does to the flag, the active context and the workers. -/
inductive Turn (worldSize : Nat) (s t : State) : Prop
  | stay (hflag : t.inParallel = s.inParallel) (hholder : ∀ j, t.Holder j ↔ s.Holder j)
      (hworkers : t.workers = s.workers ∨
        ∃ id, ¬ s.Holder id ∧ t.workers = s.workers.map (.leave id))
  | enter (id : Nat) (hsize : worldSize ≠ 1) (hbefore : s.inParallel = false)
      (hafter : t.inParallel = true) (hholder : ∀ j, t.Holder j ↔ j = id)
      (hworkers : t.workers = s.workers.bind fun w => w.takeAll
        [.rpcTag, .memOps, .stack, .heap, .parallelCtx id, .fortranGlobalVariables])
  | leave (id : Nat) (calls : List Collective) (hbefore : s.Holder id)
      (hafter : t.inParallel = false) (hholder : ∀ j, ¬ t.Holder j)
      (hcalls : ∀ c ∈ calls, c.ReducesFor id)
      (hworkers : t.workers = (s.workers.bind fun w => w.takeAll calls).map (.leave id))

theorem holder_update {slot : Slot} (h : t.contexts = Function.update s.contexts id slot)
    (j : Nat) : t.Holder j ↔ if j = id then slot.active = true else s.Holder j := by
  unfold State.Holder
  rw [h, Function.update_apply]
  split <;> rfl

/-- A slot whose activity does not change. -/
theorem holder_same {slot : Slot} (h : t.contexts = Function.update s.contexts id slot)
    (hslot : slot.active = (s.contexts id).active) (j : Nat) : t.Holder j ↔ s.Holder j := by
  rw [holder_update h]
  split
  · next heq => rw [State.Holder, heq, hslot]
  · rfl

/-- An entry of a regular step. -/
theorem turn_entry (hinv : FlagInv s) (hregular : l.Regular n s) (hstep : s.step n l = some t)
    (hentry : l.entry s = some e) : Turn n s t := by
  obtain ⟨slot, h⟩ := step_entry hinv hstep hentry
  have hthrows : ∀ what f, e.run n s.inParallel = .error what f → s.inParallel = true :=
    fun what f hrun => hregular.throws ⟨e, what, f, hentry, hrun⟩
  rcases e.run_cases n s.inParallel with
    ⟨-, hrun⟩ | ⟨-, hflag, hrun⟩ | ⟨halone, hflag, ⟨what, calls, hrun⟩ | hrun⟩
  · have hslot := h.returned _ hrun
    have hflag := h.inParallel
    have hworkers := h.workers
    rw [hrun] at hflag hworkers
    refine .stay hflag (holder_same h.contexts ?_) (.inl ?_)
    · rw [hslot, h.before]
      exact h.fresh
    · rw [hworkers]
      exact WorkerState.takeAll_nil _
  · have hslot := h.thrown _ _ hrun
    have hflag := h.inParallel
    have hworkers := h.workers
    rw [hrun] at hflag hworkers
    refine .stay hflag (holder_same h.contexts ?_) (.inl ?_)
    · rw [h.before, Bool.eq_false_iff]
      intro hactive
      have := hslot hactive
      rw [h.fresh] at this
      cases this
    · rw [hworkers]
      exact WorkerState.takeAll_nil _
  · rw [hthrows _ _ hrun] at hflag
    cases hflag
  · have hslot := h.returned _ hrun
    have hafter := h.inParallel
    have hworkers := h.workers
    rw [hrun] at hafter hworkers
    refine .enter e.id ?_ hflag hafter (fun j => ?_) ?_
    · rintro rfl
      exact halone alone_one
    · rw [holder_update h.contexts]
      split
      · next heq => exact ⟨fun _ => heq, fun _ => hslot⟩
      · next hne =>
        refine ⟨fun hj => ?_, fun heq => absurd heq hne⟩
        have := hinv.flag j hj
        rw [show s.inParallel = false from hflag] at this
        cases this
    · rw [hworkers]
      simp only [resultFrame, enterParallelImpl_sendsAll (hregular.sendsAll e hentry)]
      rfl

theorem reduceCalls_reducesFor {r : ReduceArea} {c : Collective} (h : c ∈ reduceCalls id r) :
    c.ReducesFor id := by
  obtain ⟨chunk, -, rfl⟩ := List.mem_map.mp h
  exact ⟨_, _, _, _, rfl⟩

/-- An exit that MPI does not refuse. -/
theorem doExitParallel_ok (n id : Nat) (f : Frame ParCtxBase) :
    ∃ g, (doExitParallel n id none).run f = .ok () g ∧
      ∃ calls, g.calls = f.calls ++ calls ∧ ∀ c ∈ calls, c.ReducesFor id := by
  simp only [doExitParallel, EStateM.run_bind, EStateM.run_get]
  cases hentered : f.object.enteredParallel with
  | false => exact ⟨f, rfl, [], (List.append_nil _).symm, fun c hc => absurd hc List.not_mem_nil⟩
  | true =>
    by_cases hsize : 1 < f.object.comm.size n
    · let calls := f.object.reduces.flatMap (reduceCalls id)
      refine ⟨{ f with inParallel := false, calls := f.calls ++ calls }, by simp [hsize, calls],
        calls, rfl, fun c hc => ?_⟩
      obtain ⟨r, -, hr⟩ := List.mem_flatMap.mp hc
      exact reduceCalls_reducesFor hr
    · exact ⟨{ f with inParallel := false }, by simp [hsize], [], (List.append_nil _).symm,
        fun c hc => absurd hc List.not_mem_nil⟩

theorem exitParallel_calls {b : ParCtxFortranBinding} {p : Bool} {c : Collective}
    (h : c ∈ (outcome .fortran (ParCtxFortranBinding.exitParallel n id none) p b).calls) :
    c.ReducesFor id := by
  cases hin : b.mInParallel with
  | false =>
    rw [ParCtxFortranBinding.exitParallel_out hin] at h
    cases h
  | true =>
    obtain ⟨g, hrun, calls, hcalls, hreduces⟩ := doExitParallel_ok n id ⟨p, b.toParCtxBase, []⟩
    rw [ParCtxFortranBinding.exitParallel_in hin,
      ParCtxFortranBinding.outcome_onBase_ok (b := { b with mInParallel := false }) hrun] at h
    change c ∈ g.calls at h
    rw [hcalls] at h
    exact hreduces c h

theorem destroy_calls {ctx : Ctx} {p : Bool} {c : Collective}
    (h : c ∈ (ctx.destroy n id none p).calls) : c.ReducesFor id := by
  cases ctx with
  | raii wrapper base =>
    obtain ⟨g, hrun, calls, hcalls, hreduces⟩ := doExitParallel_ok n id ⟨p, base, []⟩
    rw [Ctx.destroy, outcome_ok hrun] at h
    change c ∈ g.calls at h
    rw [hcalls] at h
    exact hreduces c h
  | fortran b =>
    rw [Ctx.destroy, ParCtxFortranBinding.destroy_eq] at h
    exact exitParallel_calls h

/-- Leaving a context. -/
theorem turn_exit {ctx : Ctx} {o : Outcome} {slot : Slot} (hinv : FlagInv s)
    (hs : s.contexts id = .live ctx) (ho : Exits ctx none s.inParallel o)
    (hcalls : ∀ c ∈ o.calls, c.ReducesFor id) (hslot : slot.active = false) :
    Turn n s ((s.after id slot o).left id) := by
  have hactive : (s.contexts id).active = ctx.active := by rw [hs]; rfl
  cases hctx : ctx.active with
  | false =>
    have hflag : o.inParallel = s.inParallel := by simp [ho.inParallel, hctx]
    refine .stay hflag (holder_same rfl (by rw [hslot, hactive, hctx])) (.inr ⟨id, ?_, ?_⟩)
    · rw [State.Holder, hactive, hctx]
      nofun
    · simp only [State.left, State.after, (ho.idle hctx).2, WorkerState.takeAll_nil]
  | true =>
    have hid : s.Holder id := hactive.trans hctx
    refine .leave id o.calls hid ?_ (fun j hj => ?_) hcalls rfl
    · show o.inParallel = false
      simp [ho.inParallel, hctx]
    · rw [holder_update rfl] at hj
      split at hj
      · rw [hslot] at hj
        cases hj
      · next hne => exact hne (hinv.unique j id hj hid)

theorem turn_other (hinv : FlagInv s) (hregular : l.Regular n s) (hstep : s.step n l = some t)
    (hentry : l.entry s = none) : Turn n s t := by
  cases stepped hstep with
  | construct => cases hentry
  | @newCtx id hs =>
    have hid : (s.contexts id).active = false := by rw [hs]; rfl
    exact .stay rfl (holder_same rfl (by rw [hid]; rfl)) (.inl rfl)
  | addReduceArea hs => exact .stay rfl (holder_same rfl (by rw [hs]; rfl)) (.inl rfl)
  | @enterParallel id enter kernel b o hs ho =>
    have hfresh : ¬ b.Fresh := fun h => by simp [Label.entry, hs, h] at hentry
    obtain ⟨what, hrefused⟩ := ParCtxFortranBinding.enterParallel_refused hfresh
    rw [hrefused] at ho
    subst ho
    exact .stay rfl (holder_same rfl (by rw [hs])) (.inl (WorkerState.takeAll_nil _))
  | @exitParallel id refused b o hs ho =>
    cases hregular.refused
    obtain ⟨hexits, hctx⟩ : Exits (.fortran b) none s.inParallel o ∧
        o.ctx = .fortran { b with mInParallel := false } := by
      rw [ho]
      exact ParCtxFortranBinding.exitParallel_exits
    rw [if_pos (hexits.thrown rfl)]
    refine turn_exit hinv hs hexits (fun c hc => ?_) (by rw [hctx]; rfl)
    rw [ho] at hc
    exact exitParallel_calls hc
  | @destroy id refused c o hs ho =>
    cases hregular.refused
    have hexits : Exits c none s.inParallel o := by
      rw [ho]
      exact c.destroy_exits
    refine turn_exit hinv hs hexits (fun c hc => ?_) rfl
    rw [ho] at hc
    exact destroy_calls hc

/-- Every regular step is one of these. -/
theorem regular_turn (hinv : FlagInv s) (hregular : l.Regular n s) (hstep : s.step n l = some t) :
    Turn n s t := by
  cases hentry : l.entry s with
  | none => exact turn_other hinv hregular hstep hentry
  | some e => exact turn_entry hinv hregular hstep hentry

/-! ## Where the workers are -/

/-- The workers are in the section of the active context, and else in their loop. -/
structure Placed (s : State) : Prop where
  outside : (∀ id, ¬ s.Holder id) → s.workers = some .waiting
  inside : ∀ id, s.Holder id → s.workers = some (.inSection id)

/-- The end of another section does not concern them. -/
theorem Placed.leave_other (h : Placed s) (hid : ¬ s.Holder id) :
    s.workers.map (.leave id) = s.workers := by
  by_cases hholder : ∃ j, s.Holder j
  · obtain ⟨j, hj⟩ := hholder
    have hne : j ≠ id := fun heq => hid (heq ▸ hj)
    rw [h.inside j hj]
    simp [WorkerState.leave, hne]
  · rw [h.outside fun j hj => hholder ⟨j, hj⟩]
    rfl

theorem Placed.not_inSection (h : Placed s) (hid : ¬ s.Holder id) :
    s.workers ≠ some (.inSection id) := by
  by_cases hholder : ∃ j, s.Holder j
  · obtain ⟨j, hj⟩ := hholder
    rw [h.inside j hj]
    rintro heq
    cases heq
    exact hid hj
  · rw [h.outside fun j hj => hholder ⟨j, hj⟩]
    nofun

theorem takeAll_reduces {calls : List Collective} (h : ∀ c ∈ calls, c.ReducesFor id) :
    (WorkerState.inSection id).takeAll calls = some (.inSection id) := by
  induction calls with
  | nil => rfl
  | cons c calls ih =>
    obtain ⟨addr, count, type, op, rfl⟩ := h c List.mem_cons_self
    have hrest := ih fun c hc => h c (List.mem_cons_of_mem _ hc)
    simp only [WorkerState.takeAll, List.foldlM_cons, WorkerState.take, if_true] at hrest ⊢
    exact hrest

/-- No context is active while the flag is clear. -/
theorem FlagInv.no_holder (h : FlagInv s) (hclear : s.inParallel = false) : ∀ id, ¬ s.Holder id := by
  intro id hid
  rw [h.flag id hid] at hclear
  cases hclear

theorem Placed.same (h : Placed s) (hholder : ∀ j, t.Holder j ↔ s.Holder j)
    (hworkers : t.workers = s.workers) : Placed t :=
  ⟨fun hnone => hworkers.trans (h.outside fun j hj => hnone j ((hholder j).mpr hj)),
    fun j hj => hworkers.trans (h.inside j ((hholder j).mp hj))⟩

theorem Turn.placed (hinv : FlagInv s) (h : Placed s) (hturn : Turn n s t) : Placed t := by
  cases hturn with
  | stay hflag hholder hworkers =>
    have hsame : t.workers = s.workers := by
      rcases hworkers with hworkers | ⟨id, hid, hworkers⟩
      · exact hworkers
      · exact hworkers.trans (h.leave_other hid)
    exact h.same hholder hsame
  | enter id hsize hbefore hafter hholder hworkers =>
    rw [h.outside (hinv.no_holder hbefore)] at hworkers
    refine ⟨fun hnone => absurd ((hholder id).mpr rfl) (hnone id), fun j hj => ?_⟩
    cases (hholder j).mp hj
    rw [hworkers]
    simp [WorkerState.takeAll, WorkerState.take]
  | leave id calls hbefore hafter hholder hcalls hworkers =>
    rw [h.inside id hbefore, Option.bind_some, takeAll_reduces hcalls] at hworkers
    refine ⟨fun _ => ?_, fun j hj => absurd hj (hholder j)⟩
    rw [hworkers]
    simp [WorkerState.leave]

/-- The runs of regular steps. -/
def regularSys (worldSize : Nat) : Sys State Label :=
  (sys worldSize).restrict fun s l => l.Regular worldSize s

theorem placed (h : Reachable (regularSys n) s) : Placed s := by
  refine h.invariant ?_ ?_
  · rintro s rfl
    exact ⟨fun _ => rfl, nofun⟩
  · rintro s l t hs hplaced ⟨hregular, hstep⟩
    have hinv := flagInv hs.of_restrict
    exact (regular_turn hinv hregular hstep).placed hinv hplaced

theorem waiting_of_clear (h : Reachable (regularSys n) s) (hclear : s.inParallel = false) :
    s.workers = some .waiting :=
  (placed h).outside ((flagInv h.of_restrict).no_holder hclear)

end SimpleParallel.Context
