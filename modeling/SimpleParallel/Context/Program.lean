import SimpleParallel.Lib.LTS
import SimpleParallel.Context.ParCtx

/-!
# Programs with parallel contexts

A program on the leader creates, enters, exits and destroys any number of
contexts in any order. The workers wait for the tag of an entry in the loop of
`worker`, receive the entry, and run the section of its context along with the
leader, up to the end of its `do_exit_parallel`.

* `step_effect`: what a step does to the flag and to the context it is about.
* `entry_comm`: the communicator from which a context enters.
-/

namespace SimpleParallel.Context

open LTS Reduce

/-! ## The workers -/

/-- Where the workers are: at the broadcast of a tag, at the calls they still
take part in before the context's pointer arrives, or in a section. -/
inductive WorkerState
  | waiting
  | receiving (rest : List Collective)
  | inSection (id : Nat)
  deriving DecidableEq

namespace WorkerState

/-- The workers take part in a call of the leader; `none` when they do not
match it. -/
def take : WorkerState → Collective → Option WorkerState
  | waiting, .rpcTag => some (receiving [.memOps, .stack, .heap])
  | receiving (c :: rest), call => if c = call then some (receiving rest) else none
  | receiving [], .parallelCtx id => some (inSection id)
  | inSection id, .fortranGlobalVariables => some (inSection id)
  | inSection id, .reduce id' .. => if id = id' then some (inSection id) else none
  | _, _ => none

def takeAll (w : WorkerState) (calls : List Collective) : Option WorkerState := calls.foldlM take w

theorem takeAll_nil (w : Option WorkerState) : (w.bind fun w => w.takeAll []) = w := by
  cases w <;> rfl

/-- `setcontext(&worker_ctx)` at the end of the section of `id`. -/
def leave (id : Nat) (w : WorkerState) : WorkerState := if w = inSection id then waiting else w

end WorkerState

/-! ## Runs -/

/-- A context that a program names: not constructed yet, alive, or destroyed. A
constructor that throws leaves no object, and no destructor runs. -/
inductive Slot
  | unused
  | live (c : Ctx)
  | gone
  deriving DecidableEq

structure State where
  inParallel : Bool
  contexts : Nat → Slot
  /-- What the leader has called so far. -/
  calls : List Collective
  /-- `none` once the workers did not match a call. -/
  workers : Option WorkerState

inductive Label
  | construct (id : Nat) (wrapper : RaiiWrapper) (enterParallel : Bool) (reduces : List ReduceArea)
      (kernel : Kernel)
  | newCtx (id : Nat)
  | addReduceArea (id : Nat) (r : ReduceArea)
  | enterParallel (id : Nat) (enterParallel : Bool) (kernel : Kernel)
  | exitParallel (id : Nat) (refused : Option Nat)
  | destroy (id : Nat) (refused : Option Nat)

namespace State

/-- A call on the context `id` has ended. -/
def after (id : Nat) (slot : Slot) (o : Outcome) (s : State) : State where
  inParallel := o.inParallel
  contexts := Function.update s.contexts id slot
  calls := s.calls ++ o.calls
  workers := s.workers.bind fun w => w.takeAll o.calls

def withCtx (id : Nat) (c : Ctx) (s : State) : State :=
  { s with contexts := Function.update s.contexts id (.live c) }

/-- The workers are at the end of the section of `id` too. -/
def left (id : Nat) (s : State) : State := { s with workers := s.workers.map (.leave id) }

/-- One step of the program; `none` when it cannot be taken. An exception in a
destructor terminates the program. -/
def step (worldSize : Nat) (s : State) : Label → Option State
  | .construct id wrapper enterParallel reduces kernel =>
    match s.contexts id with
    | .unused =>
      let o := Ctx.construct worldSize id wrapper enterParallel reduces kernel s.inParallel
      some (s.after id (if o.thrown = none then .live o.ctx else .gone) o)
    | _ => none
  | .newCtx id =>
    match s.contexts id with
    | .unused => some (s.withCtx id (.fortran .new))
    | _ => none
  | .addReduceArea id r =>
    match s.contexts id with
    | .live (.fortran b) => some (s.withCtx id (.fortran (b.addReduceArea r)))
    | _ => none
  | .enterParallel id enterParallel kernel =>
    match s.contexts id with
    | .live (.fortran b) =>
      let o := outcome .fortran
        (ParCtxFortranBinding.enterParallel worldSize id kernel enterParallel) s.inParallel b
      some (s.after id (.live o.ctx) o)
    | _ => none
  | .exitParallel id refused =>
    match s.contexts id with
    | .live (.fortran b) =>
      let o := outcome .fortran (ParCtxFortranBinding.exitParallel worldSize id refused)
        s.inParallel b
      let t := s.after id (.live o.ctx) o
      some (if o.thrown = none then t.left id else t)
    | _ => none
  | .destroy id refused =>
    match s.contexts id with
    | .live c =>
      let o := c.destroy worldSize id refused s.inParallel
      if o.thrown = none then some ((s.after id .gone o).left id) else none
    | _ => none

end State

/-- The start of the program, with the workers in their loop. -/
def State.start : State := ⟨false, fun _ => .unused, [], some .waiting⟩

def sys (worldSize : Nat) : Sys State Label where
  init s := s = .start
  step s l t := s.step worldSize l = some t

/-- What each label does when its step can be taken. -/
inductive Stepped (worldSize : Nat) (s : State) : Label → State → Prop
  | construct {id : Nat} {wrapper : RaiiWrapper} {enter : Bool} {reduces : List ReduceArea}
      {kernel : Kernel} {o : Outcome} : s.contexts id = .unused →
      o = Ctx.construct worldSize id wrapper enter reduces kernel s.inParallel →
      Stepped worldSize s (.construct id wrapper enter reduces kernel)
        (s.after id (if o.thrown = none then .live o.ctx else .gone) o)
  | newCtx {id : Nat} : s.contexts id = .unused →
      Stepped worldSize s (.newCtx id) (s.withCtx id (.fortran .new))
  | addReduceArea {id : Nat} {r : ReduceArea} {b : ParCtxFortranBinding} :
      s.contexts id = .live (.fortran b) →
      Stepped worldSize s (.addReduceArea id r) (s.withCtx id (.fortran (b.addReduceArea r)))
  | enterParallel {id : Nat} {enter : Bool} {kernel : Kernel} {b : ParCtxFortranBinding}
      {o : Outcome} : s.contexts id = .live (.fortran b) →
      o = outcome .fortran (ParCtxFortranBinding.enterParallel worldSize id kernel enter)
        s.inParallel b →
      Stepped worldSize s (.enterParallel id enter kernel) (s.after id (.live o.ctx) o)
  | exitParallel {id : Nat} {refused : Option Nat} {b : ParCtxFortranBinding} {o : Outcome} :
      s.contexts id = .live (.fortran b) →
      o = outcome .fortran (ParCtxFortranBinding.exitParallel worldSize id refused)
        s.inParallel b →
      Stepped worldSize s (.exitParallel id refused)
        (if o.thrown = none then (s.after id (.live o.ctx) o).left id
          else s.after id (.live o.ctx) o)
  | destroy {id : Nat} {refused : Option Nat} {c : Ctx} {o : Outcome} :
      s.contexts id = .live c → o = c.destroy worldSize id refused s.inParallel →
      o.thrown = none →
      Stepped worldSize s (.destroy id refused) ((s.after id .gone o).left id)

theorem stepped {n : Nat} {s t : State} {l : Label} (h : s.step n l = some t) :
    Stepped n s l t := by
  cases l with
  | construct id wrapper enter reduces kernel =>
    simp only [State.step] at h
    split at h
    · next hs =>
      cases h
      exact .construct hs rfl
    · cases h
  | newCtx id =>
    simp only [State.step] at h
    split at h
    · next hs =>
      cases h
      exact .newCtx hs
    · cases h
  | addReduceArea id r =>
    simp only [State.step] at h
    split at h
    · next b hs =>
      cases h
      exact .addReduceArea hs
    · cases h
  | enterParallel id enter kernel =>
    simp only [State.step] at h
    split at h
    · next b hs =>
      cases h
      exact .enterParallel hs rfl
    · cases h
  | exitParallel id refused =>
    simp only [State.step] at h
    split at h
    · next b hs =>
      cases h
      exact .exitParallel hs rfl
    · cases h
  | destroy id refused =>
    simp only [State.step] at h
    split at h
    · next c hs =>
      split at h
      · next hthrown =>
        cases h
        exact .destroy hs rfl hthrown
      · cases h
    · cases h

/-- A destructor that MPI does not refuse. -/
theorem destroy_step {n id : Nat} {s : State} {c : Ctx} (h : s.contexts id = .live c) :
    s.step n (.destroy id none) =
      some ((s.after id .gone (c.destroy n id none s.inParallel)).left id) := by
  have hexits : Exits c none s.inParallel (c.destroy n id none s.inParallel) := c.destroy_exits
  simp only [State.step, h, hexits.thrown rfl, if_true]

/-! ## Calls of `do_enter_parallel` -/

/-- A call of `do_enter_parallel`. -/
structure Entry where
  id : Nat
  ctx : ParCtxBase
  enterParallel : Bool
  kernel : Kernel

def Entry.run (worldSize : Nat) (inParallel : Bool) (e : Entry) :
    EStateM.Result String (Frame ParCtxBase) Unit :=
  (doEnterParallel worldSize e.id e.kernel e.enterParallel).run ⟨inParallel, e.ctx, []⟩

theorem Entry.run_cases (n : Nat) (p : Bool) (e : Entry) :
    (Alone n e.enterParallel e.ctx ∧
      e.run n p = .ok () ⟨p, { e.ctx with comm := .self }, []⟩) ∨
    (¬ Alone n e.enterParallel e.ctx ∧ p = true ∧
      e.run n p = .error "Error: nested parallel is not supported\n" ⟨p, e.ctx, []⟩) ∨
    (¬ Alone n e.enterParallel e.ctx ∧ p = false ∧
      ((∃ what calls, e.run n p =
          .error what ⟨true, { e.ctx with enteredParallel := true }, calls⟩) ∨
        e.run n p = .ok () ⟨true, { e.ctx with enteredParallel := true },
          enterParallelImpl e.id e.kernel ++ [.fortranGlobalVariables]⟩)) :=
  doEnterParallel_cases n e.id e.kernel e.enterParallel ⟨p, e.ctx, []⟩

theorem alone_one {enter : Bool} {ctx : ParCtxBase} : Alone 1 enter ctx :=
  .inr (by cases ctx.comm <;> rfl)

/-- The call that a step makes, if the wrapper comes to it. -/
def Label.entry (s : State) : Label → Option Entry
  | .construct id _ enter reduces kernel => some ⟨id, .new reduces, enter, kernel⟩
  | .enterParallel id enter kernel =>
    match s.contexts id with
    | .live (.fortran b) =>
      if b.Fresh then some ⟨id, b.toParCtxBase, enter, kernel⟩ else none
    | _ => none
  | _ => none

/-- The call that the step makes throws. -/
def Label.Throws (worldSize : Nat) (s : State) (l : Label) : Prop :=
  ∃ e what f, l.entry s = some e ∧ e.run worldSize s.inParallel = .error what f

/-! ## What a step changes -/

namespace Slot

def active : Slot → Bool
  | live c => c.active
  | _ => false

/-- The wrapper of an entered Fortran context has called `do_enter_parallel`. -/
def Ok : Slot → Prop
  | live (.fortran b) =>
    b.mInParallel = true ∨ b.enteredParallel = true → b.mEverEnteredParallel = true
  | _ => True

/-- The context does not enter any more, and it was never entered if it is
still alive. -/
def Spent : Slot → Prop
  | gone => True
  | live (.fortran b) => b.mEverEnteredParallel = true ∧ b.enteredParallel = false
  | _ => False

end Slot

/-- What a step does to the flag: nothing, to set it for a context that it
makes active or whose entry throws, or to clear it for an active context. -/
inductive FlagEffect (worldSize : Nat) (s t : State) (l : Label) (id : Nat) (slot : Slot) : Prop
  | keep (hflag : t.inParallel = s.inParallel) (hslot : slot.active = (s.contexts id).active)
  | enter (hbefore : s.inParallel = false) (hafter : t.inParallel = true)
      (hslot : slot.active = true ∨ l.Throws worldSize s)
  | exit (hbefore : (s.contexts id).active = true) (hafter : t.inParallel = false)
      (hslot : slot.active = false)

structure Effect (worldSize : Nat) (s t : State) (l : Label) (id : Nat) (slot : Slot) : Prop where
  contexts : t.contexts = Function.update s.contexts id slot
  ok : slot.Ok
  spent : (s.contexts id).Spent → slot.Spent
  flag : FlagEffect worldSize s t l id slot

section

variable {n id : Nat} {s t : State} {l : Label} {o : Outcome} {slot : Slot}

/-- Leaving a context. -/
theorem exit_effect {c : Ctx} {refused : Option Nat} (hc : s.contexts id = .live c)
    (ho : Exits c refused s.inParallel o) (hflag : t.inParallel = o.inParallel)
    (hslot : slot.active = false) : FlagEffect n s t l id slot := by
  have hinactive : (s.contexts id).active = c.active := by rw [hc]; rfl
  have hafter := hflag.trans ho.inParallel
  cases hactive : c.active with
  | false =>
    rw [hactive, Bool.not_false, Bool.and_true] at hafter
    exact .keep hafter (by rw [hslot, hinactive, hactive])
  | true =>
    rw [hactive, Bool.not_true, Bool.and_false] at hafter
    exact .exit (by rw [hinactive, hactive]) hafter hslot

theorem construct_effect {wrapper : RaiiWrapper} {enter : Bool} {reduces : List ReduceArea}
    {kernel : Kernel} (hs : s.contexts id = .unused)
    (ho : o = Ctx.construct n id wrapper enter reduces kernel s.inParallel) :
    ∃ slot, Effect n s (s.after id (if o.thrown = none then .live o.ctx else .gone) o)
      (.construct id wrapper enter reduces kernel) id slot := by
  have hinactive : (s.contexts id).active = false := by rw [hs]; rfl
  have hspent : ∀ slot : Slot, (s.contexts id).Spent → slot.Spent := fun slot h => by
    rw [hs] at h
    exact h.elim
  rcases doEnterParallel_cases n id kernel enter ⟨s.inParallel, .new reduces, []⟩ with
    ⟨-, hrun⟩ | ⟨-, -, hrun⟩ | ⟨-, hflag, ⟨what, calls, hrun⟩ | hrun⟩
  · rw [Ctx.construct_ok hrun] at ho
    subst ho
    exact ⟨_, rfl, trivial, hspent _, .keep rfl hinactive.symm⟩
  · rw [Ctx.construct_error hrun] at ho
    subst ho
    exact ⟨_, rfl, trivial, hspent _, .keep rfl hinactive.symm⟩
  · rw [Ctx.construct_error hrun] at ho
    subst ho
    exact ⟨_, rfl, trivial, hspent _, .enter hflag rfl (.inr ⟨_, what, _, rfl, hrun⟩)⟩
  · rw [Ctx.construct_ok hrun] at ho
    subst ho
    exact ⟨_, rfl, trivial, hspent _, .enter hflag rfl (.inl rfl)⟩

/-- A fresh binding was not entered. -/
theorem not_entered {b : ParCtxFortranBinding} (hok : (Slot.live (.fortran b)).Ok)
    (hfresh : b.Fresh) : b.enteredParallel = false := by
  cases h : b.enteredParallel with
  | false => rfl
  | true =>
    have hever := hok (.inr h)
    rw [hfresh.2] at hever
    cases hever

theorem enterParallel_effect {b : ParCtxFortranBinding} {enter : Bool} {kernel : Kernel}
    (hs : s.contexts id = .live (.fortran b)) (hok : (s.contexts id).Ok)
    (ho : o = outcome .fortran (ParCtxFortranBinding.enterParallel n id kernel enter)
      s.inParallel b) :
    ∃ slot, Effect n s (s.after id (.live o.ctx) o) (.enterParallel id enter kernel) id slot := by
  rw [hs] at hok
  by_cases hfresh : b.Fresh
  · have hentered := not_entered hok hfresh
    have hkeep : ∀ base : ParCtxBase, base.enteredParallel = b.enteredParallel →
        (Slot.live (.fortran ⟨base, true, true⟩)).active = (s.contexts id).active := by
      intro base hbase
      simp [hs, Slot.active, Ctx.active, hbase, hentered]
    have hspent : ∀ slot : Slot, (s.contexts id).Spent → slot.Spent := fun slot h => by
      rw [hs] at h
      exact absurd h.1 (by simp [hfresh.2])
    have hentry : (Label.enterParallel id enter kernel).entry s =
        some ⟨id, b.toParCtxBase, enter, kernel⟩ := by simp [Label.entry, hs, hfresh]
    rcases doEnterParallel_cases n id kernel enter ⟨s.inParallel, b.toParCtxBase, []⟩ with
      ⟨-, hrun⟩ | ⟨-, -, hrun⟩ | ⟨-, hflag, ⟨what, calls, hrun⟩ | hrun⟩
    · rw [ParCtxFortranBinding.enterParallel_ok hfresh hrun] at ho
      subst ho
      exact ⟨_, rfl, fun _ => rfl, hspent _, .keep rfl (hkeep _ rfl)⟩
    · rw [ParCtxFortranBinding.enterParallel_error hfresh hrun] at ho
      subst ho
      exact ⟨_, rfl, fun _ => rfl, hspent _, .keep rfl (hkeep _ rfl)⟩
    · rw [ParCtxFortranBinding.enterParallel_error hfresh hrun] at ho
      subst ho
      exact ⟨_, rfl, fun _ => rfl, hspent _, .enter hflag rfl (.inl rfl)⟩
    · rw [ParCtxFortranBinding.enterParallel_ok hfresh hrun] at ho
      subst ho
      exact ⟨_, rfl, fun _ => rfl, hspent _, .enter hflag rfl (.inl rfl)⟩
  · obtain ⟨what, hrefused⟩ := ParCtxFortranBinding.enterParallel_refused hfresh
    rw [hrefused] at ho
    subst ho
    exact ⟨_, rfl, hok, fun h => hs ▸ h, .keep rfl (by rw [hs])⟩

/-- What `exit_parallel` of the Fortran binding changes. -/
theorem exitParallel_effect {b : ParCtxFortranBinding} {refused : Option Nat}
    (hs : s.contexts id = .live (.fortran b)) (hok : (s.contexts id).Ok)
    (ho : o = outcome .fortran (ParCtxFortranBinding.exitParallel n id refused) s.inParallel b)
    (hcontexts : t.contexts = Function.update s.contexts id (.live o.ctx))
    (hflag : t.inParallel = o.inParallel) :
    ∃ slot, Effect n s t (.exitParallel id refused) id slot := by
  obtain ⟨hexits, hctx⟩ : Exits (.fortran b) refused s.inParallel o ∧
      o.ctx = .fortran { b with mInParallel := false } := by
    rw [ho]
    exact ParCtxFortranBinding.exitParallel_exits
  rw [hs] at hok
  rw [hctx] at hcontexts
  refine ⟨_, hcontexts, fun hb => ?_, fun hspent => ?_, exit_effect hs hexits hflag rfl⟩
  · exact hok (hb.imp nofun fun hentered => hentered)
  · rw [hs] at hspent
    exact hspent

/-- Every step does one of these to its context. -/
theorem step_effect (hok : ∀ id, (s.contexts id).Ok) (h : s.step n l = some t) :
    ∃ id slot, Effect n s t l id slot := by
  cases stepped h with
  | construct hs ho => exact ⟨_, construct_effect hs ho⟩
  | @newCtx id hs =>
    refine ⟨id, _, rfl, fun hb => ?_, fun hspent => ?_, .keep rfl (by rw [hs]; rfl)⟩
    · cases hb <;> contradiction
    · rw [hs] at hspent
      exact hspent.elim
  | @addReduceArea id r b hs =>
    have hb := hok id
    rw [hs] at hb
    exact ⟨id, _, rfl, hb, fun hspent => by rw [hs] at hspent; exact hspent,
      .keep rfl (by rw [hs]; rfl)⟩
  | enterParallel hs ho => exact ⟨_, enterParallel_effect hs (hok _) ho⟩
  | exitParallel hs ho =>
    exact ⟨_, exitParallel_effect hs (hok _) ho (by split <;> rfl) (by split <;> rfl)⟩
  | @destroy id refused c o hs ho =>
    have hexits : Exits c refused s.inParallel o := by
      rw [ho]
      exact c.destroy_exits
    exact ⟨id, .gone, rfl, trivial, fun _ => trivial, exit_effect hs hexits rfl rfl⟩

/-! ## The flag and the active context -/

/-- The context `id` is alive and leaving it clears the flag. -/
def State.Holder (s : State) (id : Nat) : Prop := (s.contexts id).active = true

/-- At most one context is active, and the flag is set while one is. -/
structure FlagInv (s : State) : Prop where
  ok : ∀ id, (s.contexts id).Ok
  flag : ∀ id, s.Holder id → s.inParallel = true
  unique : ∀ i j, s.Holder i → s.Holder j → i = j

theorem Effect.holder_iff (h : Effect n s t l id slot) (j : Nat) :
    t.Holder j ↔ if j = id then slot.active = true else s.Holder j := by
  unfold State.Holder
  rw [h.contexts, Function.update_apply]
  split <;> rfl

theorem Effect.flagInv (h : Effect n s t l id slot) (hs : FlagInv s) : FlagInv t := by
  have hother : ∀ j, t.Holder j → j ≠ id → s.Holder j := fun j hj hne =>
    by rwa [h.holder_iff, if_neg hne] at hj
  have hself : t.Holder id → slot.active = true := fun hj => by
    rwa [h.holder_iff, if_pos rfl] at hj
  have hok : ∀ j, (t.contexts j).Ok := fun j => by
    rw [h.contexts, Function.update_apply]
    split
    · exact h.ok
    · exact hs.ok j
  cases h.flag with
  | keep hflag hslot =>
    have hback : ∀ j, t.Holder j → s.Holder j := fun j hj => by
      by_cases hne : j = id
      · subst hne
        exact hslot.symm.trans (hself hj)
      · exact hother j hj hne
    exact ⟨hok, fun j hj => hflag.trans (hs.flag j (hback j hj)),
      fun i j hi hj => hs.unique i j (hback i hi) (hback j hj)⟩
  | enter hbefore hafter hslot =>
    -- no other context is active, since the flag was clear
    have hid : ∀ j, t.Holder j → j = id := fun j hj => by
      by_contra hne
      have := hs.flag j (hother j hj hne)
      rw [hbefore] at this
      cases this
    exact ⟨hok, fun _ _ => hafter, fun i j hi hj => (hid i hi).trans (hid j hj).symm⟩
  | exit hbefore hafter hslot =>
    have hnone : ∀ j, ¬ t.Holder j := fun j hj => by
      by_cases hne : j = id
      · subst hne
        have := hself hj
        rw [hslot] at this
        cases this
      · exact hne (hs.unique j id (hother j hj hne) hbefore)
    exact ⟨hok, fun j hj => absurd hj (hnone j), fun i _ hi => absurd hi (hnone i)⟩

theorem flagInv (h : Reachable (sys n) s) : FlagInv s := by
  refine h.invariant ?_ ?_
  · rintro s rfl
    exact ⟨fun _ => trivial, nofun, nofun⟩
  · intro s l t _ hs hstep
    obtain ⟨id, slot, h⟩ := step_effect hs.ok hstep
    exact h.flagInv hs

/-! ## The communicator of a new context -/

/-- A Fortran context has the communicator of all processes until it begins. -/
def Slot.OnWorld : Slot → Prop
  | live (.fortran b) => b.mEverEnteredParallel = false → b.comm = .world
  | _ => True

theorem construct_onWorld {wrapper : RaiiWrapper} {enter p : Bool} {reduces : List ReduceArea}
    {kernel : Kernel} :
    (Slot.live (Ctx.construct n id wrapper enter reduces kernel p).ctx).OnWorld := by
  cases hrun : (doEnterParallel n id kernel enter).run ⟨p, .new reduces, []⟩ with
  | ok u f => rw [Ctx.construct_ok hrun]; trivial
  | error what f => rw [Ctx.construct_error hrun]; trivial

theorem enterParallel_onWorld {b : ParCtxFortranBinding} {enter p : Bool} {kernel : Kernel}
    (hb : (Slot.live (.fortran b)).OnWorld) :
    (Slot.live (outcome .fortran
      (ParCtxFortranBinding.enterParallel n id kernel enter) p b).ctx).OnWorld := by
  by_cases hfresh : b.Fresh
  · cases hrun : (doEnterParallel n id kernel enter).run ⟨p, b.toParCtxBase, []⟩ with
    | ok u f => rw [ParCtxFortranBinding.enterParallel_ok hfresh hrun]; exact nofun
    | error what f => rw [ParCtxFortranBinding.enterParallel_error hfresh hrun]; exact nofun
  · obtain ⟨what, ho⟩ :=
      ParCtxFortranBinding.enterParallel_refused (n := n) (p := p) hfresh
    rw [ho]
    exact hb

theorem step_onWorld (hs : ∀ id, (s.contexts id).OnWorld) (h : s.step n l = some t) :
    ∀ id, (t.contexts id).OnWorld := by
  have hupdate : ∀ id slot, t.contexts = Function.update s.contexts id slot →
      slot.OnWorld → ∀ j, (t.contexts j).OnWorld := by
    intro id slot ht hslot j
    rw [ht, Function.update_apply]
    split
    · exact hslot
    · exact hs j
  cases stepped h with
  | construct _ ho =>
    refine hupdate _ _ rfl ?_
    split
    · rw [ho]
      exact construct_onWorld
    · trivial
  | newCtx => exact hupdate _ _ rfl fun _ => rfl
  | @addReduceArea id r b hb =>
    have hid := hs id
    rw [hb] at hid
    exact hupdate id _ rfl hid
  | @enterParallel id enter kernel b o hb ho =>
    have hid := hs id
    rw [hb] at hid
    have hslot : (Slot.live o.ctx).OnWorld := by
      rw [ho]
      exact enterParallel_onWorld hid
    exact hupdate id _ rfl hslot
  | @exitParallel id refused b o hb ho =>
    have hid := hs id
    rw [hb] at hid
    have hctx : o.ctx = .fortran { b with mInParallel := false } := by
      rw [ho]
      exact ParCtxFortranBinding.exitParallel_exits.2
    refine hupdate id (.live (.fortran { b with mInParallel := false })) ?_ hid
    rw [← hctx]
    split <;> rfl
  | destroy => exact hupdate _ _ rfl trivial

theorem onWorld (h : Reachable (sys n) s) : ∀ id, (s.contexts id).OnWorld := by
  refine h.invariant (P := fun s => ∀ id, (s.contexts id).OnWorld) ?_ ?_
  · rintro s rfl id
    trivial
  · intro s l t _ hs hstep
    exact step_onWorld hs hstep

/-- `enter_parallel` of the binding comes to `do_enter_parallel` the first time. -/
theorem entry_fresh {b : ParCtxFortranBinding} {enter : Bool} {kernel : Kernel} {e : Entry}
    (hs : s.contexts id = .live (.fortran b))
    (he : (Label.enterParallel id enter kernel).entry s = some e) :
    b.Fresh ∧ e = ⟨id, b.toParCtxBase, enter, kernel⟩ := by
  simp only [Label.entry, hs] at he
  split at he
  · next hfresh => exact ⟨hfresh, (Option.some.inj he).symm⟩
  · cases he

/-- Every call of `do_enter_parallel` starts from the communicator of all
processes. -/
theorem entry_comm {e : Entry} (h : Reachable (sys n) s) (he : l.entry s = some e) :
    e.ctx.comm = .world := by
  cases l with
  | construct id wrapper enter reduces kernel =>
    cases he
    rfl
  | enterParallel id enter kernel =>
    simp only [Label.entry] at he
    split at he
    · next b hb =>
      split at he
      · next hfresh =>
        cases he
        have hid := onWorld h id
        rw [hb] at hid
        exact hid hfresh.2
      · cases he
    · cases he
  | _ => cases he

end

end SimpleParallel.Context
