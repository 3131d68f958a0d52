import SimpleParallel.Schedule.CrewRuns
import SimpleParallel.Schedule.FortranDo

/-!
# The block of the Fortran loop

`gss_dynamic_schedule_end.h`: behind the loop there is a barrier, and a `single` construct
in which one thread of the rank deletes the schedule. The threads leave that construct
together.

* `fortranDo_exactly_once`: over all threads of all ranks the bodies run for each index of
  the serial loop at most once, exactly once when all threads have left the loop.
* `fortranDo_teardown`: one thread of each rank deletes the schedule, after all of them have
  left the loop and before any of them leaves the block.
* `fortranDo_completes`: from every state the loop can be brought to its end.
-/

namespace SimpleParallel.Schedule

/-! ## Behind the loop -/

/-- Where a thread is behind the loop. -/
inductive AfterPc
  | loop
  /-- at `!$omp barrier` -/
  | barrier
  /-- before `!$omp single` -/
  | single
  /-- in `del` -/
  | del
  /-- at `!$omp end single` -/
  | wait
  | outside
  deriving DecidableEq

/-- A crew, its threads behind the loop, and the calls of `del` on each rank. -/
structure FortranTeam where
  crew : Crew GssBuffer Int Int
  after : Nat × Nat → AfterPc
  dels : Nat → Nat

inductive FortranLabel
  | crew (l : CrewLabel Int)
  | arrive (r i : Nat)
  | release (r : Nat)
  | single (r i : Nat)
  | skip (r i : Nat)
  | deleted (r i : Nat)
  | leave (r i : Nat)

/-- The destructor of the handler of rank `r` has come back. For a single rank it does
nothing. -/
def Session.gone (s : Session) (r : Nat) : Prop :=
  if r = rootRank then s.pc = .destroyed ∨ s.pc = .singleFinished else (s.client r).pc = .destroyed

namespace FortranTeam

def initial (p : FortranDo) : FortranTeam where
  crew := Crew.initial p.crew
  after _ := .loop
  dels _ := 0

def setAfter (s : FortranTeam) (m : Nat × Nat) (pc : AfterPc) : FortranTeam :=
  { s with after := Function.update s.after m pc }

/-- A handler is destroyed by a thread of its rank in `del`. -/
def Deletes (p : FortranDo) (s : FortranTeam) (t : Session) : Prop :=
  ∀ r < p.size, s.crew.session.atEnd r → ¬ t.atEnd r → ∃ i < p.threads r, s.after (r, i) = .del

inductive Step (p : FortranDo) : FortranTeam → FortranLabel → FortranTeam → Prop
  | crew {s : FortranTeam} {l : CrewLabel Int} {t : Crew GssBuffer Int Int} :
      Crew.Step p.crew (fun _ => s.Deletes p) s.crew l t → Step p s (.crew l) { s with crew := t }
  | arrive {s : FortranTeam} {r i : Nat} : (r, i) ∈ p.crew.members →
      (s.crew.thread (r, i)).pc = .left → s.after (r, i) = .loop →
      Step p s (.arrive r i) (s.setAfter (r, i) .barrier)
  /-- All threads of the rank are at the barrier. -/
  | release {s : FortranTeam} {r : Nat} : r < p.size →
      (∀ i < p.threads r, s.after (r, i) = .barrier) →
      Step p s (.release r)
        { s with after := fun m => if m.1 = r then .single else s.after m }
  /-- The first thread to come takes the construct. -/
  | single {s : FortranTeam} {r i : Nat} : (r, i) ∈ p.crew.members → s.after (r, i) = .single →
      s.dels r = 0 →
      Step p s (.single r i)
        { s.setAfter (r, i) .del with dels := Function.update s.dels r (s.dels r + 1) }
  | skip {s : FortranTeam} {r i : Nat} : (r, i) ∈ p.crew.members → s.after (r, i) = .single →
      s.dels r ≠ 0 → Step p s (.skip r i) (s.setAfter (r, i) .wait)
  | deleted {s : FortranTeam} {r i : Nat} : (r, i) ∈ p.crew.members → s.after (r, i) = .del →
      s.crew.session.gone r → Step p s (.deleted r i) (s.setAfter (r, i) .wait)
  | leave {s : FortranTeam} {r i : Nat} : (r, i) ∈ p.crew.members → s.after (r, i) = .wait →
      (∀ j < p.threads r, s.after (r, j) = .wait ∨ s.after (r, j) = .outside) →
      Step p s (.leave r i) (s.setAfter (r, i) .outside)

end FortranTeam

def fortranSys (p : FortranDo) : LTS.Sys FortranTeam FortranLabel where
  init s := s = FortranTeam.initial p
  step := FortranTeam.Step p

/-- Where the threads of rank `r` are together. -/
inductive Phase (p : FortranDo) (s : FortranTeam) (r : Nat) : Prop
  | loop : (∀ i < p.threads r, s.after (r, i) = .loop ∨ s.after (r, i) = .barrier) →
      s.dels r = 0 → ¬ s.crew.session.deleted r → Phase p s r
  | single : (∀ i < p.threads r, s.after (r, i) = .single) → s.dels r = 0 →
      ¬ s.crew.session.deleted r → Phase p s r
  | del {d : Nat} : d < p.threads r → s.after (r, d) = .del →
      (∀ i < p.threads r, i ≠ d → s.after (r, i) = .single ∨ s.after (r, i) = .wait) →
      s.dels r = 1 → Phase p s r
  | done : (∀ i < p.threads r, s.after (r, i) = .single ∨ s.after (r, i) = .wait) →
      s.dels r = 1 → s.crew.session.gone r → Phase p s r
  | leave : (∀ i < p.threads r, s.after (r, i) = .wait ∨ s.after (r, i) = .outside) →
      s.dels r = 1 → s.crew.session.gone r → Phase p s r

structure FortranInv (p : FortranDo) (s : FortranTeam) : Prop where
  crew : Crew.Reachable p.crew s.crew
  left : ∀ m ∈ p.crew.members, s.after m ≠ .loop → (s.crew.thread m).pc = .left
  phase : ∀ r < p.size, Phase p s r

section Handlers

variable {cfg : Config} {s t : Session} {a : Act} {r : Nat}

/-- A handler that is gone does nothing any more. -/
theorem Step.pc_of_gone (h : Schedule.Step cfg s a t) (hg : s.gone r) :
    (r = rootRank → t.pc = s.pc) ∧ (r ≠ rootRank → (t.client r).pc = (s.client r).pc) := by
  unfold Session.gone at hg
  constructor
  · intro hr
    rw [if_pos hr] at hg
    cases h with
    | server hm => cases hm <;> rcases hg with hg | hg <;> simp_all
    | isendVal hs => cases hs <;> rcases hg with hg | hg <;> simp_all
    | advance hs => cases hs <;> rcases hg with hg | hg <;> simp_all
    | serverUse hs => cases hs <;> rcases hg with hg | hg <;> simp_all
    | recvRequest hpc _ | isendDone hpc _ | recvFinished hpc _ _ | drain hpc _ =>
      rcases hg with hg | hg <;> simp_all
    | _ => rfl
  · intro hr
    rw [if_neg hr] at hg
    have moved : ∀ {j : Nat} {c : Client}, t.client = Function.update s.client j c →
        (s.client j).pc ≠ .destroyed → (t.client r).pc = (s.client r).pc := by
      intro j c htc hne
      rw [htc, Function.update_of_ne]
      rintro rfl
      exact hne hg
    cases h with
    | client _ hm => exact moved rfl (by cases hm <;> simp_all)
    | post _ hpc | recvDone _ hpc _ | recheckNone _ hpc _ | recvVal _ hpc _ | rerequest _ hpc
    | clientUse _ hpc | sendFinished _ hpc | cancel _ hpc _ => exact moved rfl (by rw [hpc]; nofun)
    | _ => rfl

theorem Step.gone (h : Schedule.Step cfg s a t) (hg : s.gone r) : t.gone r := by
  obtain ⟨hroot, hclient⟩ := h.pc_of_gone hg
  unfold Session.gone at hg ⊢
  split
  · next hr => rwa [if_pos hr, ← hroot hr] at hg
  · next hr => rwa [if_neg hr, ← hclient hr] at hg

theorem Step.atEnd_of_gone (h : Schedule.Step cfg s a t) (hg : s.gone r) (hend : s.atEnd r) :
    t.atEnd r := by
  obtain ⟨hroot, hclient⟩ := h.pc_of_gone hg
  unfold Session.atEnd at hend ⊢
  split
  · next hr => rwa [if_pos hr, ← hroot hr] at hend
  · next hr => rwa [if_neg hr, ← hclient hr] at hend

end Handlers

/-- The phase of a rank depends on its threads, its calls and its handler. -/
theorem Phase.congr {p : FortranDo} {s t : FortranTeam} {r : Nat} (h : Phase p s r)
    (hafter : ∀ i < p.threads r, t.after (r, i) = s.after (r, i)) (hdels : t.dels r = s.dels r)
    (hcrew : t.crew.session = s.crew.session) : Phase p t r := by
  cases h with
  | loop hall hd hdel =>
    exact .loop (fun i hi => by rw [hafter i hi]; exact hall i hi) (hdels.trans hd) (hcrew ▸ hdel)
  | single hall hd hdel =>
    exact .single (fun i hi => by rw [hafter i hi]; exact hall i hi) (hdels.trans hd) (hcrew ▸ hdel)
  | del hd hpc hall hcalls =>
    exact .del hd (by rw [hafter _ hd]; exact hpc)
      (fun i hi hne => by rw [hafter i hi]; exact hall i hi hne) (hdels.trans hcalls)
  | done hall hd hgone =>
    exact .done (fun i hi => by rw [hafter i hi]; exact hall i hi) (hdels.trans hd) (hcrew ▸ hgone)
  | leave hall hd hgone =>
    exact .leave (fun i hi => by rw [hafter i hi]; exact hall i hi) (hdels.trans hd) (hcrew ▸ hgone)

namespace FortranInv

variable {p : FortranDo} {s t : FortranTeam} {l : FortranLabel} {r i : Nat} {pc : AfterPc}

theorem initial (p : FortranDo) : FortranInv p (FortranTeam.initial p) where
  crew := .init rfl
  left _ _ := by nofun
  phase r _ := by
    refine .loop (fun _ _ => .inl rfl) rfl fun hdel => ?_
    have hended := hdel.1
    unfold FortranTeam.initial Crew.initial Session.ended at hended
    split at hended
    · rcases hended with hpc | hpc | hpc <;> cases hpc
    · cases hended

theorem setAfter_self : (s.setAfter (r, i) pc).after (r, i) = pc := Function.update_self _ _ _

theorem setAfter_of_ne {m : Nat × Nat} (h : m ≠ (r, i)) :
    (s.setAfter (r, i) pc).after m = s.after m := Function.update_of_ne h _ _

/-- The threads of a rank are at two places still, after a step of one of them. -/
theorem setAfter_or {j : Nat} {a b : AfterPc} (hj : s.after (r, j) = a ∨ s.after (r, j) = b)
    (hpc : pc = a ∨ pc = b) : (s.setAfter (r, i) pc).after (r, j) = a ∨
      (s.setAfter (r, i) pc).after (r, j) = b := by
  by_cases hij : (r, j) = (r, i)
  · rw [hij, setAfter_self]
    exact hpc
  · rwa [setAfter_of_ne hij]

/-- A step of one thread behind the loop. -/
theorem thread_step (h : FortranInv p s)
    (hleft : (s.crew.thread (r, i)).pc = .left)
    (hphase : Phase p (s.setAfter (r, i) pc) r) : FortranInv p (s.setAfter (r, i) pc) where
  crew := h.crew
  left m hm hafter := by
    by_cases hself : m = (r, i)
    · rw [hself]
      exact hleft
    · rw [setAfter_of_ne hself] at hafter
      exact h.left m hm hafter
  phase r' hr' := by
    by_cases hr : r' = r
    · rw [hr]
      exact hphase
    · exact (h.phase r' hr').congr
        (fun _ _ => setAfter_of_ne fun heq => hr (Prod.mk.inj heq).1) rfl rfl

/-- A thread in `del` is past the barrier, and so are the others of its rank. -/
theorem deletes (h : FortranInv p s) {u : Session} (hdel : s.Deletes p u) :
    s.crew.Deletes p.crew u := by
  intro r i hm hend hgone
  obtain ⟨hr, hi⟩ := p.crew.mem_members.mp hm
  obtain ⟨d, hd, hpc⟩ := hdel r hr hend hgone
  refine h.left _ hm fun hloop => ?_
  cases h.phase r hr with
  | loop hall _ _ => rcases hall d hd with h1 | h1 <;> cases hpc.symm.trans h1
  | single hall _ _ => cases hpc.symm.trans (hall d hd)
  | @del d' _ hpc' hall _ =>
    by_cases hid : i = d'
    · cases (hid ▸ hloop).symm.trans hpc'
    · rcases hall i hi hid with h1 | h1 <;> cases hloop.symm.trans h1
  | done hall _ _ | leave hall _ _ => rcases hall d hd with h1 | h1 <;> cases hpc.symm.trans h1

/-- A step of the crew: the schedule is deleted in `del` only. -/
theorem crew_step (h : FortranInv p s) {l : CrewLabel Int} {u : Crew GssBuffer Int Int}
    (hs : Crew.Step p.crew (fun _ => s.Deletes p) s.crew l u) :
    FortranInv p { s with crew := u } := by
  have hkeep : ∀ r, s.crew.session.gone r → u.session.gone r := by
    intro r hgone
    cases hs with
    | session hs _ _ => exact hs.gone hgone
    | take _ _ _ _ hs => exact hs.gone hgone
    | release _ _ _ | run _ _ _ | endTask _ _ _ | leave _ _ _ _ => exact hgone
  have halive : ∀ r < p.size, (∀ i < p.threads r, s.after (r, i) ≠ .del) →
      ¬ s.crew.session.deleted r → ¬ u.session.deleted r := by
    intro r hr hnodel hno hdel
    rcases hs.deleted hdel with hold | ⟨hend, hgone, hmay⟩
    · exact hno hold
    · obtain ⟨i, hi, hpc⟩ := hmay r hr hend hgone
      exact hnodel i hi hpc
  refine
    { crew := h.crew.step (hs.mono fun _ _ _ => h.deletes)
      left := fun m hm hafter => hs.left (h.left m hm hafter)
      phase := fun r hr => ?_ }
  cases h.phase r hr with
  | loop hall hd hno =>
    refine .loop hall hd (halive r hr (fun i hi hpc => ?_) hno)
    rcases hall i hi with h1 | h1 <;> cases hpc.symm.trans h1
  | single hall hd hno =>
    refine .single hall hd (halive r hr (fun i hi hpc => ?_) hno)
    cases hpc.symm.trans (hall i hi)
  | del hd hpc hall hcalls => exact .del hd hpc hall hcalls
  | done hall hd hgone => exact .done hall hd (hkeep r hgone)
  | leave hall hd hgone => exact .leave hall hd (hkeep r hgone)

theorem step (h : FortranInv p s) (hs : FortranTeam.Step p s l t) : FortranInv p t := by
  cases hs with
  | crew hs => exact h.crew_step hs
  | @arrive r i hm hpc hloop =>
    obtain ⟨hr, hi⟩ := p.crew.mem_members.mp hm
    refine h.thread_step hpc ?_
    cases h.phase r hr with
    | loop hall hd hno => exact .loop (fun j hj => setAfter_or (hall j hj) (.inr rfl)) hd hno
    | single hall _ _ => cases hloop.symm.trans (hall i hi)
    | @del d _ hpc' hall _ =>
      by_cases hid : i = d
      · cases (hid ▸ hloop).symm.trans hpc'
      · rcases hall i hi hid with h1 | h1 <;> cases hloop.symm.trans h1
    | done hall _ _ | leave hall _ _ =>
      rcases hall i hi with h1 | h1 <;> cases hloop.symm.trans h1
  | @release r hr hall =>
    refine ⟨h.crew, fun m hm hafter => ?_, fun r' hr' => ?_⟩
    · by_cases hself : m.1 = r
      · refine h.left m hm ?_
        have hm' : (r, m.2) ∈ p.crew.members := hself ▸ hm
        rw [show m = (r, m.2) from Prod.ext hself rfl, hall m.2 (p.crew.mem_members.mp hm').2]
        nofun
      · exact h.left m hm fun hloop => hafter ((if_neg hself).trans hloop)
    · by_cases hself : r' = r
      · subst hself
        cases h.phase r' hr' with
        | loop _ hd hno => exact .single (fun _ _ => if_pos rfl) hd hno
        | single hall' _ _ =>
          have hz := p.threads_pos r' hr'
          cases (hall 0 hz).symm.trans (hall' 0 hz)
        | del hd hpc _ _ => cases (hall _ hd).symm.trans hpc
        | done hall' _ _ | leave hall' _ _ =>
          have hz := p.threads_pos r' hr'
          rcases hall' 0 hz with h1 | h1 <;> cases (hall 0 hz).symm.trans h1
      · exact (h.phase r' hr').congr (fun _ _ => if_neg hself) rfl rfl
  | @single r i hm hpc hzero =>
    obtain ⟨hr, hi⟩ := p.crew.mem_members.mp hm
    have hleft := h.left _ hm (by rw [hpc]; nofun)
    have hphase : ∀ j < p.threads r, s.after (r, j) = .single := by
      cases h.phase r hr with
      | loop hall _ _ => rcases hall i hi with h1 | h1 <;> cases hpc.symm.trans h1
      | single hall _ _ => exact hall
      | del _ _ _ hcalls | done _ hcalls _ | leave _ hcalls _ => cases hzero.symm.trans hcalls
    refine ⟨h.crew, fun m hm' hafter => ?_, fun r' hr' => ?_⟩
    · by_cases hself : m = (r, i)
      · rw [hself]
        exact hleft
      · refine h.left m hm' fun hloop => hafter ?_
        exact (Function.update_of_ne hself _ _).trans hloop
    · by_cases hself : r' = r
      · subst hself
        refine .del hi setAfter_self (fun j hj hne => ?_) ?_
        · refine .inl ?_
          show (s.setAfter (r', i) .del).after (r', j) = .single
          rw [setAfter_of_ne fun heq => hne (Prod.mk.inj heq).2]
          exact hphase j hj
        · show Function.update s.dels r' (s.dels r' + 1) r' = 1
          rw [Function.update_self, hzero]
      · exact (h.phase r' hr').congr
          (fun _ _ => setAfter_of_ne fun heq => hself (Prod.mk.inj heq).1)
          (Function.update_of_ne hself _ _) rfl
  | @skip r i hm hpc hne =>
    obtain ⟨hr, hi⟩ := p.crew.mem_members.mp hm
    refine h.thread_step (h.left _ hm (by rw [hpc]; nofun)) ?_
    cases h.phase r hr with
    | loop _ hd _ | single _ hd _ => exact absurd hd hne
    | @del d hd hpc' hall hcalls =>
      have hid : d ≠ i := fun heq => by cases (heq ▸ hpc').symm.trans hpc
      refine .del hd ?_ (fun j hj hjd => setAfter_or (hall j hj hjd) (.inr rfl)) hcalls
      rw [setAfter_of_ne fun heq => hid (Prod.mk.inj heq).2]
      exact hpc'
    | done hall hd hgone => exact .done (fun j hj => setAfter_or (hall j hj) (.inr rfl)) hd hgone
    | leave hall _ _ => rcases hall i hi with h1 | h1 <;> cases hpc.symm.trans h1
  | @deleted r i hm hpc hgone =>
    obtain ⟨hr, hi⟩ := p.crew.mem_members.mp hm
    refine h.thread_step (h.left _ hm (by rw [hpc]; nofun)) ?_
    cases h.phase r hr with
    | loop hall _ _ => rcases hall i hi with h1 | h1 <;> cases hpc.symm.trans h1
    | single hall _ _ => cases hpc.symm.trans (hall i hi)
    | @del d hd hpc' hall hcalls =>
      refine .done (fun j hj => ?_) hcalls hgone
      by_cases hji : (r, j) = (r, i)
      · rw [hji, setAfter_self]
        exact .inr rfl
      · rw [setAfter_of_ne hji]
        -- the thread in `del` is the only one there
        refine hall j hj fun hjd => hji ?_
        by_cases hid : i = d
        · rw [hjd, hid]
        · rcases hall i hi hid with h1 | h1 <;> cases hpc.symm.trans h1
    | done hall _ _ | leave hall _ _ => rcases hall i hi with h1 | h1 <;> cases hpc.symm.trans h1
  | @leave r i hm hpc hall =>
    obtain ⟨hr, hi⟩ := p.crew.mem_members.mp hm
    refine h.thread_step (h.left _ hm (by rw [hpc]; nofun)) ?_
    have hall' : ∀ j < p.threads r, (s.setAfter (r, i) .outside).after (r, j) = .wait ∨
        (s.setAfter (r, i) .outside).after (r, j) = .outside :=
      fun j hj => setAfter_or (hall j hj) (.inr rfl)
    cases h.phase r hr with
    | loop hall _ _ => rcases hall i hi with h1 | h1 <;> cases hpc.symm.trans h1
    | single hall _ _ => cases hpc.symm.trans (hall i hi)
    | del hd hpc' _ _ => rcases hall _ hd with h1 | h1 <;> cases hpc'.symm.trans h1
    | done _ hd hgone | leave _ hd hgone => exact .leave hall' hd hgone

end FortranInv

theorem fortranInv {p : FortranDo} {s : FortranTeam} (h : LTS.Reachable (fortranSys p) s) :
    FortranInv p s :=
  h.invariant (fun _ hs => hs ▸ FortranInv.initial p) fun _ _ _ _ hi hs => hi.step hs

/-! ## While a thread is in the block -/

section

variable {p : FortranDo} {s : FortranTeam} {r i : Nat}

/-- A thread in the loop keeps the others of its rank in the block, and its schedule alive. -/
theorem FortranInv.inside (h : FortranInv p s) (hm : (r, i) ∈ p.crew.members)
    (hin : (s.crew.thread (r, i)).pc ≠ .left) :
    s.dels r = 0 ∧ ¬ s.crew.session.deleted r ∧ ∀ j < p.threads r, s.after (r, j) ≠ .outside := by
  obtain ⟨hr, hi⟩ := p.crew.mem_members.mp hm
  have hloop : s.after (r, i) = .loop := by
    by_contra hafter
    exact hin (h.left _ hm hafter)
  cases h.phase r hr with
  | loop hall hd hno =>
    refine ⟨hd, hno, fun j hj hout => ?_⟩
    rcases hall j hj with h1 | h1 <;> cases hout.symm.trans h1
  | single hall _ _ => cases hloop.symm.trans (hall i hi)
  | @del d _ hpc hall _ =>
    by_cases hid : i = d
    · cases (hid ▸ hloop).symm.trans hpc
    · rcases hall i hi hid with h1 | h1 <;> cases hloop.symm.trans h1
  | done hall _ _ | leave hall _ _ => rcases hall i hi with h1 | h1 <;> cases hloop.symm.trans h1

theorem FortranInv.dels_le (h : FortranInv p s) (hr : r < p.size) : s.dels r ≤ 1 := by
  cases h.phase r hr with
  | loop _ hd _ | single _ hd _ =>
    rw [hd]
    exact Nat.zero_le 1
  | del _ _ _ hd | done _ hd _ | leave _ hd _ => exact Nat.le_of_eq hd

/-- Who is behind the block has left a schedule that was deleted, once. -/
theorem FortranInv.outside (h : FortranInv p s) (hm : (r, i) ∈ p.crew.members)
    (hout : s.after (r, i) = .outside) : s.crew.session.gone r ∧ s.dels r = 1 := by
  obtain ⟨hr, hi⟩ := p.crew.mem_members.mp hm
  cases h.phase r hr with
  | loop hall _ _ => rcases hall i hi with h1 | h1 <;> cases hout.symm.trans h1
  | single hall _ _ => cases hout.symm.trans (hall i hi)
  | @del d _ hpc hall _ =>
    by_cases hid : i = d
    · cases (hid ▸ hout).symm.trans hpc
    · rcases hall i hi hid with h1 | h1 <;> cases hout.symm.trans h1
  | done hall _ _ => rcases hall i hi with h1 | h1 <;> cases hout.symm.trans h1
  | leave _ hd hgone => exact ⟨hgone, hd⟩

end

/-! ## Whole runs -/

/-- All threads are behind the block, and each schedule is deleted, once. -/
structure FortranTeam.Finished (p : FortranDo) (s : FortranTeam) : Prop where
  outside : ∀ m ∈ p.crew.members, s.after m = .outside
  deleted : ∀ r < p.size, s.dels r = 1
  sessionOver : Over p.crew.config s.crew.session

/-- The runs in which no probed request is taken back. -/
def fortranProbingSys (p : FortranDo) : LTS.Sys FortranTeam FortranLabel :=
  (fortranSys p).restrict fun s l => ∀ a, l = .crew (.session a) → ¬ a.TakesProbed s.crew.session

/-- The way of a thread out of the block. -/
def AfterPc.todo : AfterPc → Nat
  | loop => 5
  | barrier => 4
  | single => 3
  | del => 2
  | wait => 1
  | outside => 0

def FortranTeam.todo (p : FortranDo) (s : FortranTeam) : (Nat ×ₗ Nat) ×ₗ Nat :=
  toLex (s.crew.todo p.crew fun k => (p.crew.task k).indices,
    (p.crew.members.map fun m => (s.after m).todo).sum)

/-- Some step brings the end nearer. -/
def FortranTeam.CanStep (p : FortranDo) (s : FortranTeam) : Prop :=
  ∃ l t, (fortranProbingSys p).step s l t ∧ t.todo p < s.todo p

theorem FortranTeam.crew_probing {p : FortranDo} {s : FortranTeam}
    (h : LTS.Reachable (fortranProbingSys p) s) :
    LTS.Reachable (crewProbingSys p.crew) s.crew := by
  induction h with
  | init h =>
    cases h
    exact .init rfl
  | step hr hs ih =>
    obtain ⟨hok, hs⟩ := hs
    cases hs with
    | crew hs =>
      have hinv := fortranInv hr.of_restrict
      exact ih.restrict_step _ (fun a ha => hok a (congrArg _ ha))
        (hs.mono fun _ _ _ => hinv.deletes)
    | arrive _ _ _ | release _ _ | single _ _ _ | skip _ _ _ | deleted _ _ _ | leave _ _ _ =>
      exact ih

section Stuck

variable {p : FortranDo} {s : FortranTeam} {r i : Nat}

/-- A step of a thread behind the loop brings it nearer to the end of the block. -/
theorem fortran_canStep {t : FortranTeam} {l : FortranLabel} {pc : AfterPc}
    (hm : (r, i) ∈ p.crew.members) (hs : FortranTeam.Step p s l t)
    (hl : ∀ l', l ≠ .crew l') (hcrew : t.crew = s.crew)
    (hafter : t.after = Function.update s.after (r, i) pc) (hlt : pc.todo < (s.after (r, i)).todo) :
    s.CanStep p := by
  refine ⟨l, t, ⟨fun a ha => absurd ha (hl _), hs⟩, Prod.Lex.toLex_lt_toLex.mpr (.inr ⟨?_, ?_⟩)⟩
  · rw [hcrew]
  · rw [hafter]
    exact Tally.sum_update_lt hm hlt

/-- All threads of a rank are released at once. -/
theorem canStep_of_barrier (hr : r < p.size) (hall : ∀ i < p.threads r, s.after (r, i) = .barrier) :
    s.CanStep p := by
  refine ⟨_, _, ⟨by nofun, .release hr hall⟩, Prod.Lex.toLex_lt_toLex.mpr (.inr ⟨rfl, ?_⟩)⟩
  have hz : (r, 0) ∈ p.crew.members := p.crew.mem_members.mpr ⟨hr, p.threads_pos r hr⟩
  refine List.sum_lt_sum _ _ (fun m hm => ?_) ⟨(r, 0), hz, ?_⟩
  · show AfterPc.todo (if m.1 = r then .single else s.after m) ≤ (s.after m).todo
    split
    · next hm1 =>
      rw [show m = (r, m.2) from Prod.ext hm1 rfl, hall m.2 (p.crew.mem_members.mp (hm1 ▸ hm)).2]
      exact Nat.le_succ 3
    · exact Nat.le_refl _
  · show AfterPc.todo (if r = r then .single else s.after (r, 0)) < (s.after (r, 0)).todo
    rw [if_pos rfl, hall 0 (p.threads_pos r hr)]
    exact Nat.lt_succ_self 3

variable (hstuck : ¬ s.CanStep p)
include hstuck

/-- The threads that have left are past the loop. -/
theorem past_of_stuck (hm : (r, i) ∈ p.crew.members) (hleft : (s.crew.thread (r, i)).pc = .left) :
    s.after (r, i) ≠ .loop := by
  intro hloop
  refine hstuck (fortran_canStep hm (.arrive hm hleft hloop) nofun rfl rfl ?_)
  rw [hloop]
  exact Nat.lt_succ_self 4

/-- When all its threads are past the loop a rank waits for its destructor, or is through. -/
theorem rank_of_stuck (hinv : FortranInv p s) (hr : r < p.size)
    (hpast : ∀ i < p.threads r, s.after (r, i) ≠ .loop) :
    (∃ d < p.threads r, s.after (r, d) = .del) ∧ ¬ s.crew.session.gone r ∨
      s.crew.session.gone r ∧ ∀ i < p.threads r, s.after (r, i) = .outside := by
  have hz := p.threads_pos r hr
  have hmem : ∀ {i : Nat}, i < p.threads r → (r, i) ∈ p.crew.members := fun hi =>
    p.crew.mem_members.mpr ⟨hr, hi⟩
  have hnowait : ∀ {i : Nat}, i < p.threads r →
      (∀ j < p.threads r, s.after (r, j) = .wait ∨ s.after (r, j) = .outside) →
      s.after (r, i) ≠ .wait := by
    intro i hi hall hpc
    refine hstuck (fortran_canStep (hmem hi) (.leave (hmem hi) hpc hall) nofun rfl rfl ?_)
    rw [hpc]
    exact Nat.one_pos
  cases hinv.phase r hr with
  | loop hall _ _ =>
    have hbarrier : ∀ i < p.threads r, s.after (r, i) = .barrier := fun i hi =>
      (hall i hi).resolve_left (hpast i hi)
    exact absurd (canStep_of_barrier hr hbarrier) hstuck
  | single hall hd _ =>
    refine absurd (fortran_canStep (hmem hz) (.single (hmem hz) (hall 0 hz) hd) nofun rfl rfl ?_)
      hstuck
    rw [hall 0 hz]
    exact Nat.lt_succ_self 2
  | @del d hd hpc _ _ =>
    refine .inl ⟨⟨d, hd, hpc⟩, fun hgone => ?_⟩
    refine hstuck (fortran_canStep (hmem hd) (.deleted (hmem hd) hpc hgone) nofun rfl rfl ?_)
    rw [hpc]
    exact Nat.lt_succ_self 1
  | done hall hd hgone =>
    have hwait : ∀ i < p.threads r, s.after (r, i) = .wait := by
      intro i hi
      refine (hall i hi).resolve_left fun hpc => ?_
      have hne : s.dels r ≠ 0 := by
        rw [hd]
        exact Nat.one_ne_zero
      refine hstuck (fortran_canStep (hmem hi) (.skip (hmem hi) hpc hne) nofun rfl rfl ?_)
      rw [hpc]
      exact Nat.lt_of_sub_eq_succ rfl
    exact absurd (hwait 0 hz) (hnowait hz fun j hj => .inl (hwait j hj))
  | leave hall _ hgone =>
    exact .inr ⟨hgone, fun i hi => (hall i hi).resolve_left (hnowait hi hall)⟩

end Stuck

/-- Until all threads are behind the block some step brings this nearer. -/
theorem FortranTeam.exists_step {p : FortranDo} {s : FortranTeam}
    (h : LTS.Reachable (fortranProbingSys p) s) (hno : ¬ s.Finished p) : s.CanStep p := by
  by_contra hstuck
  have hinv := fortranInv h.of_restrict
  have hrank : ∀ r < p.size, (∀ i < p.threads r, (s.crew.thread (r, i)).pc = .left) → _ :=
    fun r hr hleft => rank_of_stuck hstuck hinv hr fun i hi =>
      past_of_stuck hstuck (p.crew.mem_members.mpr ⟨hr, hi⟩) (hleft i hi)
  by_cases hcrew : s.crew.AllLeft p.crew ∧ Over p.crew.config s.crew.session
  · obtain ⟨hleft, hover⟩ := hcrew
    have hout : ∀ m ∈ p.crew.members, s.after m = .outside := by
      intro m hm
      obtain ⟨hr, hi⟩ := p.crew.mem_members.mp hm
      have hgone : s.crew.session.gone m.1 := by
        unfold Session.gone
        split
        · exact hover.1
        · next hne => exact hover.2 m.1 ⟨hr, hne⟩
      rcases hrank m.1 hr fun i hi => hleft _ (p.crew.mem_members.mpr ⟨hr, hi⟩) with
        ⟨-, hnot⟩ | ⟨-, hout⟩
      · exact absurd hgone hnot
      · exact hout m.2 hi
    refine hno ⟨hout, fun r hr => ?_, hover⟩
    have hz : (r, 0) ∈ p.crew.members := p.crew.mem_members.mpr ⟨hr, p.threads_pos r hr⟩
    exact (hinv.outside hz (hout _ hz)).2
  · obtain ⟨l, t, ⟨hok, hs⟩, hlt⟩ :=
      Crew.exists_step p.crew_visits (FortranTeam.crew_probing h) hcrew
    refine hstuck ⟨.crew l, { s with crew := t }, ⟨fun a ha => ?_, .crew (hs.mono ?_)⟩,
      Prod.Lex.toLex_lt_toLex.mpr (.inl hlt)⟩
    · cases ha
      exact hok a rfl
    · intro a u hstep hdel r hr hend hgone
      rcases hrank r hr fun i hi => hdel r i (p.crew.mem_members.mpr ⟨hr, hi⟩) hend hgone with
        ⟨hd, -⟩ | ⟨hg, -⟩
      · exact hd
      · exact absurd (hstep.atEnd_of_gone hg hend) hgone

theorem FortranTeam.exists_finished {p : FortranDo} {s : FortranTeam}
    (h : LTS.Reachable (fortranProbingSys p) s) :
    ∃ t, LTS.Reachable ((fortranProbingSys p).startingAt s) t ∧ t.Finished p :=
  h.exists_goal (FortranTeam.Finished p) (FortranTeam.todo p) fun _ hs hno =>
    FortranTeam.exists_step hs hno

/-- Who is behind the block has left the loop. -/
theorem FortranTeam.Finished.left {p : FortranDo} {s : FortranTeam} (h : s.Finished p)
    (hinv : FortranInv p s) : s.crew.AllLeft p.crew := by
  intro m hm
  refine hinv.left m hm ?_
  rw [h.outside m hm]
  nofun

/-! ## Results -/

/-- Two ranks with two threads each run a loop around zero. -/
def threeBuffers : FortranDo where
  size := 2
  threads _ := 2
  first := -1
  last := 1
  grainsize := 1
  buffers := [⟨-1, -1⟩, ⟨0, 0⟩, ⟨1, 1⟩]
  size_pos := Nat.two_pos
  threads_pos _ _ := Nat.two_pos
  threads_lt := by decide
  first_gt := by decide
  first_lt := by decide
  last_gt := by decide
  last_lt := by decide
  yields := .more rfl (.more rfl (.more rfl (.done rfl)))

theorem threeBuffers_finished : ∃ s, LTS.Reachable (fortranSys threeBuffers) s ∧
    s.Finished threeBuffers := by
  have h0 : LTS.Reachable (fortranProbingSys threeBuffers) (FortranTeam.initial threeBuffers) :=
    .init rfl
  obtain ⟨s, hs, hfinished⟩ := FortranTeam.exists_finished h0
  exact ⟨s, (h0.trans hs).of_restrict, hfinished⟩

/-- The loop executes the serial index set, for bounds of either sign and reversed ones. In
every reachable state the body ran at most once for an index, for no index outside the
loop, and a thread has left the loop only if nothing is left for its rank; when all have
left it ran exactly once for each index of the serial loop. -/
theorem fortranDo_exactly_once (p : FortranDo) (s : FortranTeam)
    (h : LTS.Reachable (fortranSys p) s) :
    (s.crew.ran p.crew).Nodup ∧
    (∀ i ∈ s.crew.ran p.crew, p.first ≤ i ∧ i ≤ p.last) ∧
    (∀ m ∈ p.crew.members, (s.crew.thread m).pc = .left →
      s.crew.session.NoneLeft p.crew.config m.1) ∧
    (s.crew.AllLeft p.crew → (s.crew.ran p.crew).Perm (doLoop p.first p.last)) := by
  obtain ⟨honce, hin, hleft, hall⟩ := Crew.executes p.crew_visits p.visits_cover (doLoop_nodup _ _)
    (fortranInv h).crew
  exact ⟨honce, fun i hi => mem_doLoop (hin i hi), hleft, hall⟩

theorem fortranDo_exactly_once_threeBuffers :
    ∃ s, LTS.Reachable (fortranSys threeBuffers) s ∧ s.Finished threeBuffers ∧
      (s.crew.ran threeBuffers.crew).Perm [-1, 0, 1] := by
  obtain ⟨s, hs, hfinished⟩ := threeBuffers_finished
  obtain ⟨-, -, -, hall⟩ := fortranDo_exactly_once threeBuffers s hs
  exact ⟨s, hs, hfinished, hall (hfinished.left (fortranInv hs))⟩

/-- The end of the block. While a thread is in the loop, its schedule is not deleted, and
no thread of its rank has left the block, so the scheduler that all of them point to
exists. No rank calls `del` twice, and where a thread is behind the block its rank has
called it and the destructor has come back. -/
theorem fortranDo_teardown (p : FortranDo) (s : FortranTeam)
    (h : LTS.Reachable (fortranSys p) s) :
    (∀ r i, (r, i) ∈ p.crew.members → (s.crew.thread (r, i)).pc ≠ .left →
      s.dels r = 0 ∧ ¬ s.crew.session.deleted r ∧
        ∀ j < p.threads r, s.after (r, j) ≠ .outside) ∧
    (∀ r < p.size, s.dels r ≤ 1) ∧
    ∀ r i, (r, i) ∈ p.crew.members → s.after (r, i) = .outside →
      s.crew.session.gone r ∧ s.dels r = 1 ∧
        ∀ j < p.threads r, (s.crew.thread (r, j)).pc = .left := by
  have hinv := fortranInv h
  refine ⟨fun r i hm hin => hinv.inside hm hin, fun r hr => hinv.dels_le hr, fun r i hm hout => ?_⟩
  obtain ⟨hgone, hdels⟩ := hinv.outside hm hout
  refine ⟨hgone, hdels, fun j hj => ?_⟩
  by_contra hin
  obtain ⟨hr, hi⟩ := p.crew.mem_members.mp hm
  exact (hinv.inside (p.crew.mem_members.mpr ⟨hr, hj⟩) hin).2.2 i hi hout

/-- At first all threads are in the loop, and at last behind the block. -/
theorem fortranDo_teardown_threeBuffers :
    (∀ r < 2, ∀ i < 2, (FortranTeam.initial threeBuffers).dels r = 0 ∧
      (FortranTeam.initial threeBuffers).after (r, i) ≠ .outside) ∧
    ∃ s, LTS.Reachable (fortranSys threeBuffers) s ∧ ∀ r < 2, s.dels r = 1 ∧
      s.crew.session.gone r ∧ ∀ i < 2, (s.crew.thread (r, i)).pc = .left := by
  refine ⟨fun r hr i hi => ?_, ?_⟩
  · have hm : (r, i) ∈ threeBuffers.crew.members := threeBuffers.crew.mem_members.mpr ⟨hr, hi⟩
    obtain ⟨hdels, -, hin⟩ := (fortranDo_teardown threeBuffers _ (.init rfl)).1 r i hm nofun
    exact ⟨hdels, hin i hi⟩
  · obtain ⟨s, hs, hfinished⟩ := threeBuffers_finished
    refine ⟨s, hs, fun r hr => ?_⟩
    have hm : (r, 0) ∈ threeBuffers.crew.members :=
      threeBuffers.crew.mem_members.mpr ⟨hr, Nat.two_pos⟩
    obtain ⟨hgone, hdels, hleft⟩ :=
      (fortranDo_teardown threeBuffers s hs).2.2 r 0 hm (hfinished.outside _ hm)
    exact ⟨hdels, hgone, hleft⟩

/-- Wherever the loop is, it can be brought to its end: all threads leave the block, each
schedule is deleted once, and the body has run once for each index. -/
theorem fortranDo_completes (p : FortranDo) (s : FortranTeam)
    (h : LTS.Reachable (fortranProbingSys p) s) :
    ∃ t, LTS.Reachable ((fortranProbingSys p).startingAt s) t ∧ t.Finished p ∧
      (t.crew.ran p.crew).Perm (doLoop p.first p.last) := by
  obtain ⟨t, hstart, hfinished⟩ := FortranTeam.exists_finished h
  have hinv := fortranInv (h.trans hstart).of_restrict
  refine ⟨t, hstart, hfinished, ?_⟩
  rw [← p.visits_cover]
  exact Crew.ran_perm p.crew_visits hinv.crew (hfinished.left hinv)

theorem fortranDo_completes_threeBuffers :
    ∃ t, LTS.Reachable ((fortranProbingSys threeBuffers).startingAt
      (FortranTeam.initial threeBuffers)) t ∧ t.Finished threeBuffers ∧
      (t.crew.ran threeBuffers.crew).Perm [-1, 0, 1] :=
  fortranDo_completes threeBuffers _ (.init rfl)

end SimpleParallel.Schedule
