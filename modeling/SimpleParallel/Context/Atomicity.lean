import SimpleParallel.Context.Program

/-!
# Failed entries

A call of `do_enter_parallel` that throws should leave no trace: both flags as
they were, nothing sent, a later context still able to enter, and nothing to do
for an exit or a destructor. `do_enter_parallel` sets both flags before the
steps that can fail, and no failure resets them. So the call leaves no trace
exactly if it threw because the flag was set already.

* `failedEntry_atomic`: the failed calls that are atomic, in every run; and the
  runs all of whose failed calls are can always go on to enter a context.
* `failedEntry_not_atomic`: two overlapping reduce areas.
-/

namespace SimpleParallel.Context

open Loops LTS Reduce

variable {n : Nat} {s t : State} {l : Label} {e : Entry} {id : Nat}

/-! ## Atomic calls -/

/-- A context with correct arguments can be entered. -/
def CanEnter (worldSize : Nat) (s : State) : Prop :=
  ∀ id reduces, verifyReducesNoOverlap reduces = .ok () →
    ∃ f, (Entry.mk id (.new reduces) true .ok).run worldSize s.inParallel = .ok () f

/-- So it can now or later. -/
def CanStillEnter (worldSize : Nat) (s : State) : Prop :=
  ∃ t, Reachable ((sys worldSize).startingAt s) t ∧ CanEnter worldSize t

/-- The workers take part in all the calls. -/
def Matched (s : State) (calls : List Collective) : Prop :=
  ∀ w, s.workers = some w → w.takeAll calls ≠ none

/-- The call `e`, taken in `s`, threw and left `f`, and the program went on
from `t`. -/
structure Atomic (worldSize : Nat) (s t : State) (e : Entry) (f : Frame ParCtxBase) : Prop where
  inParallel : f.inParallel = s.inParallel
  enteredParallel : f.object.enteredParallel = e.ctx.enteredParallel
  silent : f.calls = []
  enterable : CanStillEnter worldSize s → CanStillEnter worldSize t
  destroy : ∀ u c refused, Reachable ((sys worldSize).startingAt t) u →
    u.contexts e.id = .live c → Matched u (c.destroy worldSize e.id refused u.inParallel).calls
  exit : ∀ u b refused, Reachable ((sys worldSize).startingAt t) u →
    u.contexts e.id = .live (.fortran b) →
      Matched u (outcome .fortran (ParCtxFortranBinding.exitParallel worldSize e.id refused)
        u.inParallel b).calls

/-! ## Later contexts -/

theorem canEnter_of_clear (h : s.inParallel = false) : CanEnter n s := by
  intro id reduces hverify
  have hverify : verifyReducesNoOverlap (ParCtxBase.new reduces).reduces = .ok () := hverify
  simp only [Entry.run, doEnterParallel, EStateM.run_bind, EStateM.run_get, h]
  split
  · exact ⟨_, rfl⟩
  · simp [hverify, Kernel.ok, Kernel.fortranThrows]

/-- With more than one process, a context can only be entered while the flag is
clear. -/
theorem not_canEnter (hn : n ≠ 1) (h : s.inParallel = true) : ¬ CanEnter n s := by
  intro hcan
  obtain ⟨f, hf⟩ := hcan 0 [] rfl
  simp [Entry.run, doEnterParallel, h, hn, Comm.size, ParCtxBase.new] at hf

/-- The active context can be destroyed, and then the flag is clear. -/
theorem canStillEnter_of_holder (h : s.Holder id) : CanStillEnter n s := by
  cases hs : s.contexts id with
  | live c =>
    have hactive : c.active = true := by
      rw [State.Holder, hs] at h
      exact h
    have hexits : Exits c none s.inParallel (c.destroy n id none s.inParallel) := c.destroy_exits
    refine ⟨_, (Reachable.init rfl).step (destroy_step hs), canEnter_of_clear ?_⟩
    exact hexits.inParallel.trans (by rw [hactive, Bool.not_true, Bool.and_false])
  | _ =>
    rw [State.Holder, hs] at h
    cases h

/-- A flag that no active context holds stays set. -/
theorem stuck (hinv : FlagInv s) (hflag : s.inParallel = true) (hnone : ∀ i, ¬ s.Holder i)
    (h : Reachable ((sys n).startingAt s) t) : t.inParallel = true := by
  refine (h.invariant (P := fun t => FlagInv t ∧ t.inParallel = true ∧ ∀ i, ¬ t.Holder i)
    ?_ ?_).2.1
  · rintro _ rfl
    exact ⟨hinv, hflag, hnone⟩
  · rintro u l v - ⟨hu, huflag, hunone⟩ hstep
    obtain ⟨id, slot, heffect⟩ := step_effect hu.ok hstep
    have hv := heffect.flagInv hu
    cases heffect.flag with
    | keep hkept hslot =>
      refine ⟨hv, hkept.trans huflag, fun i hi => ?_⟩
      rw [heffect.holder_iff] at hi
      split at hi
      · exact hunone id (hslot.symm.trans hi)
      · exact hunone i hi
    | enter hbefore _ _ =>
      rw [huflag] at hbefore
      cases hbefore
    | exit hbefore _ _ => exact absurd hbefore (hunone id)

/-- While no call fails for another reason than the flag, the flag belongs to an
active context. -/
theorem holder_of_flag
    (h : Reachable ((sys n).restrict fun s l => l.Throws n s → s.inParallel = true) s)
    (hflag : s.inParallel = true) : ∃ i, s.Holder i := by
  refine h.invariant (P := fun s => s.inParallel = true → ∃ i, s.Holder i) ?_ ?_ hflag
  · rintro _ rfl
    nofun
  · rintro s l t hs ih ⟨hok, hstep⟩ hflag
    obtain ⟨id, slot, heffect⟩ := step_effect (flagInv hs.of_restrict).ok hstep
    cases heffect.flag with
    | keep hkept hslot =>
      obtain ⟨i, hi⟩ := ih (hkept.symm.trans hflag)
      refine ⟨i, (heffect.holder_iff i).mpr ?_⟩
      split
      · next heq =>
        subst heq
        exact hslot.trans hi
      · exact hi
    | enter hbefore _ hslot =>
      rcases hslot with hslot | hthrows
      · exact ⟨id, (heffect.holder_iff id).mpr (by rwa [if_pos rfl])⟩
      · have := hok hthrows
        rw [hbefore] at this
        cases this
    | exit _ hafter _ =>
      rw [hafter] at hflag
      cases hflag

/-- A spent context stays spent, so it makes no call any more. -/
theorem spent_kept (hinv : FlagInv s) (hspent : (s.contexts id).Spent)
    (h : Reachable ((sys n).startingAt s) t) : (t.contexts id).Spent := by
  refine (h.invariant (P := fun t => FlagInv t ∧ (t.contexts id).Spent) ?_ ?_).2
  · rintro _ rfl
    exact ⟨hinv, hspent⟩
  · rintro u l v - ⟨hu, huspent⟩ hstep
    obtain ⟨j, slot, heffect⟩ := step_effect hu.ok hstep
    refine ⟨heffect.flagInv hu, ?_⟩
    rw [heffect.contexts, Function.update_apply]
    split
    · next heq =>
      subst heq
      exact heffect.spent huspent
    · exact huspent

theorem Slot.Spent.inactive {slot : Slot} (h : slot.Spent) : slot.active = false := by
  cases slot with
  | live c =>
    cases c with
    | raii wrapper base => exact h.elim
    | fortran b => simp [Slot.active, Ctx.active, h.2]
  | _ => rfl

theorem spent_calls {c : Ctx} {refused : Option Nat} (hspent : (s.contexts id).Spent)
    (hc : s.contexts id = .live c) {o : Outcome} (ho : Exits c refused s.inParallel o) :
    Matched s o.calls := by
  have hinactive := hspent.inactive
  rw [hc] at hinactive
  rw [(ho.idle hinactive).2]
  exact fun w _ => nofun

/-! ## A call that throws -/

/-- What a step leaves whose call threw. -/
structure Failed (s t : State) (e : Entry) (f : Frame ParCtxBase) (slot : Slot) : Prop where
  contexts : t.contexts = Function.update s.contexts e.id slot
  inParallel : t.inParallel = f.inParallel
  fresh : e.ctx.enteredParallel = false
  inactive : (s.contexts e.id).active = false
  spent : f.object.enteredParallel = false → slot.Spent

theorem step_failed {what : String} {f : Frame ParCtxBase} (hinv : FlagInv s)
    (hstep : s.step n l = some t) (hentry : l.entry s = some e)
    (hrun : e.run n s.inParallel = .error what f) : ∃ slot, Failed s t e f slot := by
  cases stepped hstep with
  | construct hs ho =>
    cases hentry
    rw [Ctx.construct_error hrun] at ho
    subst ho
    exact ⟨.gone, rfl, rfl, rfl, by rw [hs]; rfl, fun _ => trivial⟩
  | @enterParallel id enter kernel b o hs ho =>
    obtain ⟨hfresh, rfl⟩ := entry_fresh hs hentry
    have hentered : b.enteredParallel = false := not_entered (hs ▸ hinv.ok id) hfresh
    rw [ParCtxFortranBinding.enterParallel_error hfresh hrun] at ho
    subst ho
    exact ⟨_, rfl, rfl, hentered, by simp [hs, Slot.active, Ctx.active, hentered],
      fun h => ⟨rfl, h⟩⟩
  | _ => cases hentry

/-- A call that throws found the flag set and changed nothing, or it found it
clear and set both flags. -/
theorem run_error {what : String} {f : Frame ParCtxBase} {p : Bool}
    (hrun : e.run n p = .error what f) :
    n ≠ 1 ∧ ((p = true ∧ f = ⟨p, e.ctx, []⟩) ∨ (p = false ∧ f.inParallel = true)) := by
  have hsize : ¬ Alone n e.enterParallel e.ctx → n ≠ 1 := by
    rintro hpar rfl
    exact hpar alone_one
  rcases e.run_cases n p with
    ⟨-, h⟩ | ⟨hpar, hflag, h⟩ | ⟨hpar, hflag, ⟨what', calls, h⟩ | h⟩
  · rw [h] at hrun
    cases hrun
  · rw [h] at hrun
    cases hrun
    exact ⟨hsize hpar, .inl ⟨hflag, rfl⟩⟩
  · rw [h] at hrun
    cases hrun
    exact ⟨hsize hpar, .inr ⟨hflag, rfl⟩⟩
  · rw [h] at hrun
    cases hrun

/-- A call that found the flag set is atomic. -/
theorem atomic_of_nested {what : String} {f : Frame ParCtxBase} (hs : Reachable (sys n) s)
    (hstep : s.step n l = some t) (hentry : l.entry s = some e)
    (hrun : e.run n s.inParallel = .error what f) (hflag : s.inParallel = true) :
    Atomic n s t e f := by
  have hinv := flagInv hs
  have ht := flagInv (hs.step hstep)
  obtain ⟨slot, hfailed⟩ := step_failed hinv hstep hentry hrun
  obtain ⟨hn, ⟨-, rfl⟩ | ⟨hclear, -⟩⟩ := run_error hrun
  · have hspent : (t.contexts e.id).Spent := by
      rw [hfailed.contexts, Function.update_self]
      exact hfailed.spent hfailed.fresh
    refine ⟨rfl, rfl, rfl, ?_, fun u c refused hu hc => ?_, fun u b refused hu hb => ?_⟩
    · rintro ⟨u, hu, hcan⟩
      by_cases hholder : ∃ i, s.Holder i
      · obtain ⟨i, hi⟩ := hholder
        have hne : i ≠ e.id := by
          rintro rfl
          have := hfailed.inactive
          rw [hi] at this
          cases this
        have hti : t.Holder i := by
          unfold State.Holder
          rw [hfailed.contexts, Function.update_of_ne hne]
          exact hi
        exact canStillEnter_of_holder hti
      · have hnone : ∀ i, ¬ s.Holder i := fun i hi => hholder ⟨i, hi⟩
        exact absurd hcan (not_canEnter hn (stuck hinv hflag hnone hu))
    · exact spent_calls (spent_kept ht hspent hu) hc c.destroy_exits
    · exact spent_calls (spent_kept ht hspent hu) hb
        ParCtxFortranBinding.exitParallel_exits.1
  · rw [hflag] at hclear
    cases hclear

/-- In every run, a call that throws is atomic exactly if it found the flag set.
Runs all of whose throwing calls did can go on to enter a context. -/
theorem failedEntry_atomic (n : Nat) :
    (∀ s t l e what f, Reachable (sys n) s → s.step n l = some t → l.entry s = some e →
      e.run n s.inParallel = .error what f → (Atomic n s t e f ↔ s.inParallel = true)) ∧
    ∀ s, Reachable ((sys n).restrict fun s l => l.Throws n s → s.inParallel = true) s →
      CanStillEnter n s := by
  constructor
  · intro s t l e what f hs hstep hentry hrun
    refine ⟨fun hatomic => ?_, atomic_of_nested hs hstep hentry hrun⟩
    obtain ⟨-, ⟨hflag, -⟩ | ⟨hclear, hraised⟩⟩ := run_error hrun
    · exact hflag
    · rw [← hatomic.inParallel, hraised]
  · intro s hs
    cases hflag : s.inParallel with
    | false => exact ⟨s, .init rfl, canEnter_of_clear hflag⟩
    | true =>
      obtain ⟨i, hi⟩ := holder_of_flag hs hflag
      exact canStillEnter_of_holder hi

/-- A context inside the section of another one. -/
theorem failedEntry_atomic_nested :
    ∃ s t, Atomic 2 s t ⟨1, .new [], true, .ok⟩ ⟨true, .new [], []⟩ ∧ CanStillEnter 2 s := by
  have hstep : (sys 2).step .start (.construct 0 .parCtx true [] .ok) _ := rfl
  have hok : (Label.construct 0 .parCtx true [] .ok).Throws 2 .start →
      State.start.inParallel = true := by
    rintro ⟨e, what, f, hentry, hrun⟩
    cases hentry
    cases hrun
  have hreach : Reachable ((sys 2).restrict fun s l => l.Throws 2 s → s.inParallel = true) _ :=
    (Reachable.init rfl).restrict_step _ hok hstep
  exact ⟨_, _, ((failedEntry_atomic 2).1 _ _ (.construct 1 .parCtx true [] .ok) _ _ _
    hreach.of_restrict rfl rfl rfl).mpr rfl, (failedEntry_atomic 2).2 _ hreach⟩

/-! ## Overlapping areas -/

/-- One `int`. -/
def oneInt : ReduceArea := ⟨2 ^ 41, 1, .int, .sum⟩

/-- A Fortran context with the same area twice, before and after it fails to
enter. -/
def overlapping : State :=
  { State.start with
    contexts := Function.update
      (Function.update (Function.update State.start.contexts 0 (.live (.fortran .new))) 0
        (.live (.fortran (.addReduceArea oneInt .new)))) 0
      (.live (.fortran (.addReduceArea oneInt (.addReduceArea oneInt .new)))) }

def overlappingFailed : State :=
  { overlapping with
    inParallel := true
    contexts := Function.update overlapping.contexts 0
      (.live (.fortran ⟨⟨.world, [oneInt, oneInt], true⟩, true, true⟩)) }

theorem reachable_overlapping : Reachable (sys 2) overlapping := by
  let s₁ := State.start.withCtx 0 (.fortran .new)
  let s₂ := s₁.withCtx 0 (.fortran (.addReduceArea oneInt .new))
  have hnew : (sys 2).step .start (.newCtx 0) s₁ := rfl
  have hone : (sys 2).step s₁ (.addReduceArea 0 oneInt) s₂ := rfl
  have htwo : (sys 2).step s₂ (.addReduceArea 0 oneInt) overlapping := rfl
  exact (((Reachable.init rfl).step hnew).step hone).step htwo

/-- The entry throws with both flags set. No context can be entered then, and the
destructor reduces while the workers wait for a tag. -/
theorem failedEntry_not_atomic : Reachable (sys 2) overlapping ∧
    overlapping.step 2 (.enterParallel 0 true .ok) = some overlappingFailed ∧
    ∃ e f, (Label.enterParallel 0 true .ok).entry overlapping = some e ∧
      e.run 2 overlapping.inParallel = .error (overlapError 0 1) f ∧
      overlapping.inParallel = false ∧ f.inParallel = true ∧
      e.ctx.enteredParallel = false ∧ f.object.enteredParallel = true ∧
      ¬ CanEnter 2 overlappingFailed ∧
      ¬ Matched overlappingFailed
        (Ctx.destroy 2 0 none true (.fortran ⟨⟨.world, [oneInt, oneInt], true⟩, true, true⟩)).calls ∧
      ¬ Atomic 2 overlapping overlappingFailed e f := by
  refine ⟨reachable_overlapping, rfl, _, _, rfl, rfl, rfl, rfl, rfl, rfl,
    not_canEnter (by decide) rfl, fun h => ?_, fun h => ?_⟩
  · have hcalls : reduceCalls 0 oneInt = [.reduce 0 (2 ^ 41) 1 .int .sum] := by
      rw [reduceCalls, oneInt, chunks, chunksFrom_cons (by decide) (by decide),
        chunksFrom_nil (by decide)]
      rfl
    refine h .waiting rfl ?_
    simp only [Ctx.destroy, ParCtxFortranBinding.destroy_eq]
    rw [ParCtxFortranBinding.exitParallel_in rfl]
    have hrun : (doExitParallel 2 0 none).run ⟨true, ⟨.world, [oneInt, oneInt], true⟩, []⟩ =
        .ok () ⟨false, ⟨.world, [oneInt, oneInt], true⟩,
          [oneInt, oneInt].flatMap (reduceCalls 0)⟩ := rfl
    rw [ParCtxFortranBinding.outcome_onBase_ok hrun, List.flatMap_cons, hcalls]
    rfl
  · have := h.inParallel
    cases this

end SimpleParallel.Context
