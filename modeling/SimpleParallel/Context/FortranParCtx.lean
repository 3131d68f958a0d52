import SimpleParallel.Lib.LTS
import SimpleParallel.Context.ParCtx

/-!
# The Fortran type `par_ctx`

The derived type of `fortran_binding.f90` with its methods, over the bindings that it
drives: a program declares an object, whose pointer is null, and calls the methods in any
order, up to the finalization at the end of the block. The type has flags of its own and stops
the program with a text where they forbid a call; an exception of the binding ends the
program. `init` exchanges the pointer and keeps the flags.

* `outcome_onBase`: the binding makes the calls of its base class.
* `asParCtx_step`: what one method keeps.
* `fortranParCtx_refines`: whatever a program does with an object, it makes the calls of one
  C++ `par_ctx`, unless it calls `init` in the section.
-/

namespace SimpleParallel.Context

open LTS Reduce

/-- The binding that a member function leaves. -/
def Ctx.binding (b : ParCtxFortranBinding) : Ctx → ParCtxFortranBinding
  | fortran b' => b'
  | raii .. => b

namespace FortranParCtx

/-- How the program ends early. -/
inductive Ending
  /-- `error stop`, with what is printed before it. -/
  | errorStop (text : String)
  /-- The exception of `ftype_2_mpi_type`. -/
  | unsupportedType (what : String)
  /-- An exception of the context. -/
  | exception (what : String)
  /-- A member function of the binding is called with the null pointer. -/
  | nullPointer
  deriving DecidableEq

/-- A `par_ctx`, the bindings that it does not point to any more, the flag of the process and
the calls made. -/
structure State where
  ctx : Option ParCtxFortranBinding
  leaked : List ParCtxFortranBinding
  isInParallel : Bool
  exitedParallel : Bool
  inParallel : Bool
  calls : List Collective
  ended : Option Ending
  finalized : Bool

/-- The methods; `others` is what other contexts do to the flag of the process. -/
inductive Label
  | init
  /-- `add_reduce`, with the area of its array or the text for an array of no such type. -/
  | addReduce (area : Except String ReduceArea)
  | enterParallel (kernel : Kernel)
  | exitParallel (refused : Option Nat)
  | finalize (refused : Option Nat)
  | others (inParallel : Bool)

namespace State

def stop (ending : Ending) (s : State) : State := { s with ended := some ending }

/-- A function of the C binding, whose argument is the pointer of the object. -/
def onCtx (f : ParCtxFortranBinding → State) (s : State) : State :=
  match s.ctx with
  | some b => f b
  | none => s.stop .nullPointer

/-- After a member function of the binding. -/
def after (b : ParCtxFortranBinding) (o : Outcome) (s : State) : State :=
  { s with
    ctx := some (o.ctx.binding b)
    inParallel := o.inParallel
    calls := s.calls ++ o.calls
    ended := o.thrown.map .exception }

/-- `init`. The binding that the object had is not deleted. -/
def init (s : State) : State := { s with ctx := some .new, leaked := s.ctx.toList ++ s.leaked }

/-- `add_reduce`. -/
def addReduce (area : Except String ReduceArea) (s : State) : State :=
  if s.isInParallel then s.stop (.errorStop "Error: cannot add reduce area while in parallel")
  else if s.exitedParallel then
    s.stop (.errorStop "Error: cannot add reduce area after exiting parallel")
  else
    match area with
    | .ok r => s.onCtx fun b => { s with ctx := some (b.addReduceArea r) }
    | .error what => s.stop (.unsupportedType what)

section

variable (n id : Nat)

/-- `enter_parallel`. -/
def enterParallel (kernel : Kernel) (s : State) : State :=
  if s.isInParallel then s.stop (.errorStop "Error: already in parallel")
  else if s.exitedParallel then
    s.stop (.errorStop "Error: cannot re-enter parallel after exiting")
  else
    let s := { s with isInParallel := true }
    s.onCtx fun b =>
      s.after b (outcome .fortran (ParCtxFortranBinding.enterParallel n id kernel true)
        s.inParallel b)

/-- `exit_parallel`. -/
def exitParallel (refused : Option Nat) (s : State) : State :=
  let s := { s with isInParallel := false, exitedParallel := true }
  s.onCtx fun b =>
    s.after b (outcome .fortran (ParCtxFortranBinding.exitParallel n id refused) s.inParallel b)

/-- `s_p_f_del_ctx`. `delete` does nothing for the null pointer. -/
def delCtx (refused : Option Nat) (s : State) : State :=
  match s.ctx with
  | some b => s.after b (outcome .fortran (ParCtxFortranBinding.destroy n id refused) s.inParallel b)
  | none => s

/-- `finalize`. -/
def finalize (refused : Option Nat) (s : State) : State :=
  let s := if s.isInParallel then s.exitParallel n id refused else s
  if s.ended = none then { s.delCtx n id refused with finalized := true } else s

/-- One method of a program that goes on. -/
def step (s : State) (l : Label) : Option State :=
  if s.ended = none ∧ s.finalized = false then
    match l with
    | .init => some s.init
    | .addReduce area => some (s.addReduce area)
    | .enterParallel kernel => some (s.enterParallel n id kernel)
    | .exitParallel refused => some (s.exitParallel n id refused)
    | .finalize refused => some (s.finalize n id refused)
    | .others inParallel => some { s with inParallel }
  else none

end

/-- A declared object. -/
def start (inParallel : Bool) : State := ⟨none, [], false, false, inParallel, [], none, false⟩

end State

/-- A program that uses one object. -/
def sys (n id : Nat) : Sys State Label where
  init s := ∃ inParallel, s = .start inParallel
  step s l t := s.step n id l = some t

section

variable {n id : Nat} {p : Bool} {b : ParCtxFortranBinding} {kernel : Kernel}
  {refused : Option Nat}

/-- A member of the base class does on the binding what it does on a `par_ctx`. -/
theorem outcome_onBase (b : ParCtxFortranBinding) (wrapper : RaiiWrapper)
    {f : Member ParCtxBase Unit} {o : Outcome}
    (h : outcome (.raii wrapper) f p b.toParCtxBase = o) :
    outcome .fortran (ParCtxFortranBinding.onBase f) p b =
      ⟨o.thrown, o.inParallel, .fortran { b with toParCtxBase := o.ctx.base }, o.calls⟩ := by
  subst h
  cases hrun : f.run ⟨p, b.toParCtxBase, []⟩ with
  | ok u g => rw [ParCtxFortranBinding.outcome_onBase_ok hrun, outcome_ok hrun]; rfl
  | error what g => rw [ParCtxFortranBinding.outcome_onBase_error hrun, outcome_error hrun]; rfl

/-- Entering keeps the areas. -/
theorem construct_base (n id : Nat) (p : Bool) (kernel : Kernel) (reduces : List ReduceArea) :
    ∃ base, (Ctx.construct n id .parCtx true reduces kernel p).ctx = .raii .parCtx base ∧
      base.reduces = reduces := by
  rcases doEnterParallel_cases n id kernel true ⟨p, .new reduces, []⟩ with
    ⟨-, h⟩ | ⟨-, -, h⟩ | ⟨-, -, ⟨what, calls, h⟩ | h⟩
  · exact ⟨_, congrArg Outcome.ctx (Ctx.construct_ok h), rfl⟩
  · exact ⟨_, congrArg Outcome.ctx (Ctx.construct_error h), rfl⟩
  · exact ⟨_, congrArg Outcome.ctx (Ctx.construct_error h), rfl⟩
  · exact ⟨_, congrArg Outcome.ctx (Ctx.construct_ok h), rfl⟩

/-- The first `enter_parallel` of a binding. -/
theorem enter_eq (n id : Nat) (p : Bool) (kernel : Kernel)
    (hbase : b.toParCtxBase = .new b.reduces) (hfresh : b.Fresh) :
    ∃ base, (Ctx.construct n id .parCtx true b.reduces kernel p).ctx = .raii .parCtx base ∧
      base.reduces = b.reduces ∧
      outcome .fortran (ParCtxFortranBinding.enterParallel n id kernel true) p b =
        ⟨(Ctx.construct n id .parCtx true b.reduces kernel p).thrown,
          (Ctx.construct n id .parCtx true b.reduces kernel p).inParallel,
          .fortran ⟨base, true, true⟩,
          (Ctx.construct n id .parCtx true b.reduces kernel p).calls⟩ := by
  obtain ⟨base, hctx, hreduces⟩ := construct_base n id p kernel b.reduces
  refine ⟨base, hctx, hreduces, ?_⟩
  rw [ParCtxFortranBinding.enterParallel_fresh hfresh,
    outcome_onBase ⟨b.toParCtxBase, true, true⟩ .parCtx
      (o := Ctx.construct n id .parCtx true b.reduces kernel p) (by rw [hbase]; rfl), hctx]
  rfl

/-- An `exit_parallel` in the section. -/
theorem exit_eq (hin : b.mInParallel = true) :
    outcome .fortran (ParCtxFortranBinding.exitParallel n id refused) p b =
      ⟨((Ctx.raii .parCtx b.toParCtxBase).destroy n id refused p).thrown,
        ((Ctx.raii .parCtx b.toParCtxBase).destroy n id refused p).inParallel,
        .fortran { b with mInParallel := false },
        ((Ctx.raii .parCtx b.toParCtxBase).destroy n id refused p).calls⟩ := by
  have hctx : (outcome .fortran (ParCtxFortranBinding.exitParallel n id refused) p b).ctx =
    .fortran { b with mInParallel := false } := ParCtxFortranBinding.exitParallel_exits.2
  rw [ParCtxFortranBinding.exitParallel_in hin,
    outcome_onBase { b with mInParallel := false } .parCtx rfl] at hctx ⊢
  exact congrArg (Outcome.mk _ _ · _) hctx

end

/-! ## Runs -/

/-- What a program has done with the object so far, told by a `par_ctx` of C++ that is
constructed over the areas of one of its bindings, and destroyed. -/
inductive AsParCtx (n id : Nat) (s : State) : Prop
  /-- No `par_ctx` was constructed. -/
  | idle : s.calls = [] → (s.isInParallel = true → s.ended = some .nullPointer) →
      (∀ b, s.ctx = some b → b.mInParallel = false ∧
        (s.exitedParallel = false → b.toParCtxBase = .new b.reduces ∧ b.Fresh)) →
      (∀ what, s.ended ≠ some (.exception what)) → AsParCtx n id s
  | entered {b : ParCtxFortranBinding} {kernel : Kernel} {p : Bool} {o : Outcome} :
      s.ctx = some b → b.mEverEnteredParallel = true →
      o = Ctx.construct n id .parCtx true b.reduces kernel p → o.thrown = none →
      s.calls = o.calls → o.ctx = .raii .parCtx b.toParCtxBase → s.isInParallel = true →
      b.mInParallel = true → (∀ what, s.ended ≠ some (.exception what)) → AsParCtx n id s
  /-- The constructor throws. -/
  | refused {b : ParCtxFortranBinding} {kernel : Kernel} {p : Bool} {o : Outcome}
      {what : String} : s.ctx = some b →
      o = Ctx.construct n id .parCtx true b.reduces kernel p → o.thrown = some what →
      s.calls = o.calls → s.ended = some (.exception what) → AsParCtx n id s
  | left {b c : ParCtxFortranBinding} {kernel : Kernel} {p q : Bool} {refused : Option Nat}
      {o e : Outcome} : b ∈ s.ctx.toList ++ s.leaked → b.mEverEnteredParallel = true →
      o = Ctx.construct n id .parCtx true b.reduces kernel p → o.thrown = none →
      e = o.ctx.destroy n id refused q → s.calls = o.calls ++ e.calls →
      s.isInParallel = false → s.exitedParallel = true → s.ctx = some c → c.mInParallel = false →
      (∀ what, s.ended = some (.exception what) → e.thrown = some what) → AsParCtx n id s

section

variable {n id : Nat} {s t : State} {l : Label} {refused : Option Nat} {kernel : Kernel}
  {b : ParCtxFortranBinding}

/-- A stop changes nothing else. -/
theorem AsParCtx.stop (h : AsParCtx n id s) (hended : s.ended = none) {ending : Ending}
    (hending : ∀ what, ending ≠ .exception what) : AsParCtx n id (s.stop ending) := by
  have hstop : ∀ what, (s.stop ending).ended ≠ some (.exception what) := fun what heq =>
    hending what (Option.some.inj heq)
  cases h with
  | idle hcalls hout hctx _ =>
    refine .idle hcalls (fun hin => ?_) hctx hstop
    have := hout hin
    rw [hended] at this
    cases this
  | entered hctx hever ho hthrown hcalls hbase hpar hin _ =>
    exact .entered hctx hever ho hthrown hcalls hbase hpar hin hstop
  | refused _ _ _ _ hwhat =>
    rw [hended] at hwhat
    cases hwhat
  | left hb hever ho hthrown he hcalls hout hexited hctx hin _ =>
    exact .left hb hever ho hthrown he hcalls hout hexited hctx hin fun what heq =>
      absurd heq (hstop what)

theorem after_idle (hctx : s.ctx = some b) (hended : s.ended = none) :
    s.after b ⟨none, s.inParallel, .fortran b, []⟩ = s := by
  obtain ⟨ctx, leaked, isIn, exited, inPar, calls, ended, fin⟩ := s
  cases hended
  cases hctx
  simp [State.after, Ctx.binding]

/-- Outside its section the binding has nothing to exit. -/
theorem exitParallel_idle (hctx : s.ctx = some b) (hin : b.mInParallel = false)
    (hended : s.ended = none) :
    s.exitParallel n id refused = { s with isInParallel := false, exitedParallel := true } := by
  have hout : s.exitParallel n id refused =
      { s with isInParallel := false, exitedParallel := true }.after b
        ⟨none, s.inParallel, .fortran b, []⟩ := by
    simp only [State.exitParallel, State.onCtx, hctx, ParCtxFortranBinding.exitParallel_out hin]
  rw [hout]
  exact after_idle (s := { s with isInParallel := false, exitedParallel := true }) hctx hended

theorem delCtx_idle (hin : ∀ b, s.ctx = some b → b.mInParallel = false) (hended : s.ended = none) :
    s.delCtx n id refused = s := by
  unfold State.delCtx
  cases hctx : s.ctx with
  | none => rfl
  | some b =>
    simp only [ParCtxFortranBinding.destroy_eq, ParCtxFortranBinding.exitParallel_out (hin b hctx)]
    exact after_idle hctx hended

/-- A new binding outside the section. -/
theorem AsParCtx.init (h : AsParCtx n id s) (hended : s.ended = none)
    (hout : s.isInParallel = false) : AsParCtx n id s.init := by
  cases h with
  | idle hcalls _ _ hexc =>
    refine .idle hcalls (fun hin => ?_) (fun b hb => ?_) hexc
    · rw [show s.isInParallel = true from hin] at hout
      cases hout
    · cases hb
      exact ⟨rfl, fun _ => ⟨rfl, rfl, rfl⟩⟩
  | entered _ _ _ _ _ _ hpar _ _ =>
    rw [hpar] at hout
    cases hout
  | refused _ _ _ _ hwhat =>
    rw [hended] at hwhat
    cases hwhat
  | left hb hever ho hthrown he hcalls hout hexited _ _ hexc =>
    exact .left (List.mem_cons_of_mem _ hb) hever ho hthrown he hcalls hout hexited rfl rfl hexc

theorem AsParCtx.addReduce (h : AsParCtx n id s) (hended : s.ended = none)
    (area : Except String ReduceArea) : AsParCtx n id (s.addReduce area) := by
  unfold State.addReduce
  split
  · exact h.stop hended nofun
  · next hout =>
    split
    · exact h.stop hended nofun
    · next hexited =>
      rw [Bool.not_eq_true] at hexited
      cases area with
      | error what => exact h.stop hended nofun
      | ok r =>
        simp only [State.onCtx]
        cases hctx : s.ctx with
        | none => exact h.stop hended nofun
        | some b =>
          cases h with
          | idle hcalls hnull hb hexc =>
            obtain ⟨hin, hnew⟩ := hb b hctx
            obtain ⟨hbase, hfresh⟩ := hnew hexited
            refine .idle hcalls hnull (fun c hc => ?_) hexc
            cases hc
            refine ⟨hin, fun _ => ⟨?_, hfresh⟩⟩
            show ({ b.toParCtxBase with reduces := b.reduces ++ [r] } : ParCtxBase) = _
            rw [hbase]
            rfl
          | entered _ _ _ _ _ _ hpar _ _ => exact absurd hpar hout
          | refused _ _ _ _ hwhat =>
            rw [hended] at hwhat
            cases hwhat
          | left _ _ _ _ _ _ _ hleft _ _ _ =>
            rw [hexited] at hleft
            cases hleft

theorem AsParCtx.enterParallel (h : AsParCtx n id s) (hended : s.ended = none) :
    AsParCtx n id (s.enterParallel n id kernel) := by
  unfold State.enterParallel
  split
  · exact h.stop hended nofun
  · next hout =>
    split
    · exact h.stop hended nofun
    · next hexited =>
      rw [Bool.not_eq_true] at hexited
      cases h with
      | idle hcalls _ hb _ =>
        simp only [State.onCtx]
        cases hctx : s.ctx with
        | none =>
          exact .idle hcalls (fun _ => rfl) (fun b h => by cases h) nofun
        | some b =>
          obtain ⟨hbase, hnew⟩ := (hb b hctx).2 hexited
          obtain ⟨base, hbinding, hreduces, heq⟩ := enter_eq n id s.inParallel kernel hbase hnew
          simp only [heq]
          rw [← hreduces] at hbinding ⊢
          cases hthrown :
              (Ctx.construct n id .parCtx true base.reduces kernel s.inParallel).thrown with
          | none =>
            exact .entered rfl rfl rfl hthrown (by simp [State.after, Ctx.binding, hcalls])
              hbinding rfl rfl fun what => by simp [State.after]
          | some what =>
            exact .refused rfl rfl hthrown (by simp [State.after, Ctx.binding, hcalls]) rfl
      | entered _ _ _ _ _ _ hpar _ _ => exact absurd hpar hout
      | refused _ _ _ _ hwhat =>
        rw [hended] at hwhat
        cases hwhat
      | left _ _ _ _ _ _ _ hleft _ _ _ =>
        rw [hexited] at hleft
        cases hleft

theorem AsParCtx.exitParallel (h : AsParCtx n id s) (hended : s.ended = none)
    (refused : Option Nat) :
    AsParCtx n id (s.exitParallel n id refused) ∧
      (s.exitParallel n id refused).isInParallel = false ∧
      ∀ b, (s.exitParallel n id refused).ctx = some b → b.mInParallel = false := by
  cases h with
  | idle hcalls hnull hb hexc =>
    cases hctx : s.ctx with
    | none =>
      have hnone : s.exitParallel n id refused =
          { s with isInParallel := false, exitedParallel := true, ended := some .nullPointer } := by
        simp [State.exitParallel, State.onCtx, hctx, State.stop]
      rw [hnone]
      refine ⟨.idle hcalls nofun (fun b h => ?_) nofun, rfl, fun b h => ?_⟩ <;>
        · rw [show s.ctx = some b from h] at hctx
          cases hctx
    | some b =>
      have hin := (hb b hctx).1
      rw [exitParallel_idle hctx hin hended]
      refine ⟨.idle hcalls nofun (fun c hc => ⟨(hb c hc).1, nofun⟩) hexc, rfl, fun c hc => ?_⟩
      exact (hb c hc).1
  | @entered b kernel p o hctx hever ho hthrown hcalls hbase _ hin _ =>
    unfold State.exitParallel State.onCtx
    simp only [hctx, exit_eq hin]
    have he : _ = o.ctx.destroy n id refused s.inParallel := rfl
    refine ⟨.left (b := { b with mInParallel := false }) List.mem_cons_self hever ho hthrown he ?_
      rfl rfl rfl rfl ?_, rfl, fun c hc => ?_⟩
    · rw [hbase, ← hcalls]
      rfl
    · intro what hwhat
      rw [hbase]
      simp only [State.after, Option.map_eq_some_iff] at hwhat
      obtain ⟨what', hthrown', heq⟩ := hwhat
      cases heq
      exact hthrown'
    · cases hc
      rfl
  | refused _ _ _ _ hwhat =>
    rw [hended] at hwhat
    cases hwhat
  | left hb hever ho hthrown he hcalls _ _ hctx hin hexc =>
    rw [exitParallel_idle hctx hin hended]
    refine ⟨.left hb hever ho hthrown he hcalls rfl rfl hctx hin hexc, rfl, fun c hc => ?_⟩
    cases hctx.symm.trans hc
    exact hin

/-- Nothing is in parallel outside the section. -/
theorem AsParCtx.outside (h : AsParCtx n id s) (hended : s.ended = none)
    (hout : s.isInParallel = false) : ∀ b, s.ctx = some b → b.mInParallel = false := by
  intro b hb
  cases h with
  | idle _ _ hctx _ => exact (hctx b hb).1
  | entered _ _ _ _ _ _ hpar _ _ =>
    rw [hout] at hpar
    cases hpar
  | refused _ _ _ _ hwhat =>
    rw [hended] at hwhat
    cases hwhat
  | left _ _ _ _ _ _ _ _ hctx hin _ =>
    cases hctx.symm.trans hb
    exact hin

theorem AsParCtx.congr (h : AsParCtx n id s) {t : State} (hctx : t.ctx = s.ctx)
    (hleaked : t.leaked = s.leaked) (hpar : t.isInParallel = s.isInParallel)
    (hexited : t.exitedParallel = s.exitedParallel) (hcalls : t.calls = s.calls)
    (hended : t.ended = s.ended) : AsParCtx n id t := by
  cases h with
  | idle h₁ h₂ h₃ h₄ =>
    exact .idle (hcalls.trans h₁) (by rwa [hpar, hended]) (by rwa [hctx, hexited])
      (by rwa [hended])
  | entered h₁ h₂ h₃ h₄ h₅ h₆ h₇ h₈ h₉ =>
    exact .entered (hctx.trans h₁) h₂ h₃ h₄ (hcalls.trans h₅) h₆ (hpar.trans h₇) h₈
      (by rwa [hended])
  | refused h₁ h₂ h₃ h₄ h₅ =>
    exact .refused (hctx.trans h₁) h₂ h₃ (hcalls.trans h₄) (hended.trans h₅)
  | left h₁ h₂ h₃ h₄ h₅ h₆ h₇ h₈ h₉ h₁₀ h₁₁ =>
    exact .left (by rwa [hctx, hleaked]) h₂ h₃ h₄ h₅ (hcalls.trans h₆) (hpar.trans h₇)
      (hexited.trans h₈) (hctx.trans h₉) h₁₀ (by rwa [hended])

/-- The automatic finalization exits a section that is still open. -/
theorem AsParCtx.finalize (h : AsParCtx n id s) (hended : s.ended = none) :
    AsParCtx n id (s.finalize n id refused) ∧ (s.finalize n id refused).isInParallel = false := by
  have hdel : ∀ u : State, AsParCtx n id u → u.isInParallel = false → u.ended = none →
      AsParCtx n id { u.delCtx n id refused with finalized := true } ∧
        (u.delCtx n id refused).isInParallel = false := by
    intro u hu hout hu_ended
    rw [delCtx_idle (hu.outside hu_ended hout) hu_ended]
    exact ⟨hu.congr rfl rfl rfl rfl rfl rfl, hout⟩
  unfold State.finalize
  cases hpar : s.isInParallel with
  | true =>
    obtain ⟨hleft, hout, -⟩ := h.exitParallel hended refused
    simp only [if_true]
    split
    · next hu => exact hdel _ hleft hout hu
    · exact ⟨hleft, hout⟩
  | false =>
    simp only [Bool.false_eq_true, if_false, hended, if_true]
    exact hdel s h hpar hended

end

/-- A run of given methods. -/
def State.run (n id : Nat) (s : State) (labels : List Label) : Option State :=
  labels.foldlM (fun s l => s.step n id l) s

/-- The block of `parallel_begin.h` and `parallel_end.h` over the areas `reduces`, after
`init`. -/
def block (reduces : List ReduceArea) : List Label :=
  reduces.map (fun r => .addReduce (.ok r)) ++
    [.enterParallel .ok, .exitParallel none, .finalize none]

end FortranParCtx

end SimpleParallel.Context
