import Mathlib.Data.Prod.Lex
import SimpleParallel.Schedule.Completion
import SimpleParallel.Schedule.Crew

/-!
# Whole runs of a crew

A crew does not wait for ever: the handlers wait for messages, as in any session, and
for the threads of their rank, the threads for their handler and for one another. Every
step brings the end of the session nearer, or leaves the session alone and brings a
thread nearer to the end of its task.

* `Crew.exists_step`: until all threads have left and the session is over, some step
  brings this nearer.
* `Crew.exists_over`: so it can be brought about from every state.
-/

namespace SimpleParallel.Schedule

open Session (atEnd atTask)

variable {τ ι β : Type} {p : CrewConfig τ ι β} {visits : Nat → List β} {s t : Crew τ ι β}
  {r i : Nat}

/-! ## What is left to do -/

/-- The way of a thread out of the loop, if it takes no more tasks. -/
def CrewPc.todo : CrewPc τ ι → Nat
  | next _ => 3
  | body _ _ => 2
  | loop => 1
  | left => 0

/-- With the runs of the body that its tasks still hold. -/
def CrewThread.todo (visits : Nat → List β) (th : CrewThread τ ι β) : Nat :=
  th.pc.todo + ((th.taken.flatMap visits).length - th.ran.length)

/-- The session comes first: it is what a thread that takes a task pays with. -/
def Crew.todo (p : CrewConfig τ ι β) (visits : Nat → List β) (s : Crew τ ι β) : Nat ×ₗ Nat :=
  toLex (s.session.todo p.config, (p.members.map fun m => (s.thread m).todo visits).sum)

theorem todo_lt_of_session (h : t.session.todo p.config < s.session.todo p.config) :
    t.todo p visits < s.todo p visits :=
  Prod.Lex.toLex_lt_toLex.mpr (.inl h)

/-- A thread is nearer to the end of its task. -/
theorem todo_setThread_lt {th : CrewThread τ ι β} (hm : (r, i) ∈ p.members)
    (h : th.todo visits < (s.thread (r, i)).todo visits) :
    (s.setThread (r, i) th).todo p visits < s.todo p visits := by
  exact Prod.Lex.toLex_lt_toLex.mpr (.inr ⟨rfl, Tally.sum_update_lt hm h⟩)

/-- One run of the body. -/
theorem CrewThread.todo_run {th : CrewThread τ ι β} {task : τ} {j j' : ι} {x : β}
    (hok : th.Ok p visits) (hpc : th.pc = .body task j)
    (hturn : p.turn task j = some (j', some x)) :
    CrewThread.todo visits { th with pc := .body task j', ran := th.ran ++ [x] } <
      th.todo visits := by
  obtain ⟨rest, hrest, hran⟩ := hok
  rw [hpc] at hrest
  obtain ⟨rest', rfl, -⟩ := Yields.tail hrest hturn
  unfold CrewThread.todo
  rw [← hran, hpc]
  simp only [CrewPc.todo, List.length_append, List.length_cons, List.length_nil]
  omega

/-! ## Some step -/

/-- The crews in whose sessions no probed request is taken back. -/
def crewProbingSys (p : CrewConfig τ ι β) : LTS.Sys (Crew τ ι β) (CrewLabel β) :=
  (crewSys p).restrict fun s l => ∀ a, l = .session a → ¬ a.TakesProbed s.session

theorem not_takesProbed_of_isUse {cfg : Config} {s t : Session} {a : Act}
    (_ : Schedule.Step cfg s a t) (ha : a.isUse = true) : ¬ a.TakesProbed s := by
  cases a <;> first
    | exact id
    | cases ha

theorem session_probing (h : LTS.Reachable (crewProbingSys p) s) :
    LTS.Reachable (probingSys p.config) s.session := by
  induction h with
  | init h =>
    cases h
    exact .init rfl
  | step _ hs ih =>
    obtain ⟨hok, hs⟩ := hs
    cases hs with
    | session hs _ _ => exact ih.restrict_step _ (hok _ rfl) hs
    | take _ _ _ _ hs =>
      refine ih.restrict_step _ (not_takesProbed_of_isUse hs ?_) hs
      unfold Act.use
      split <;> rfl
    | release _ _ _ | run _ _ _ | endTask _ _ _ | leave _ _ _ _ => exact ih

/-- Some step brings the end nearer. -/
def Crew.CanStep (p : CrewConfig τ ι β) (visits : Nat → List β) (s : Crew τ ι β) : Prop :=
  ∃ l t, (crewProbingSys p).step s l t ∧ t.todo p visits < s.todo p visits

/-- A step of a thread that brings it nearer to the end of its task. -/
theorem canStep_of_thread {l : CrewLabel β} {th : CrewThread τ ι β} (hm : (r, i) ∈ p.members)
    (hs : Crew.Step p (Crew.Deletes p) s l (s.setThread (r, i) th))
    (hl : ∀ a, l ≠ .session a) (hlt : th.todo visits < (s.thread (r, i)).todo visits) :
    s.CanStep p visits :=
  ⟨l, _, ⟨fun a ha => absurd ha (hl a), hs⟩, todo_setThread_lt hm hlt⟩

/-- A thread that moves on without a run of the body. -/
theorem CrewThread.todo_move {th : CrewThread τ ι β} {pc : CrewPc τ ι} (h : pc.todo < th.pc.todo) :
    CrewThread.todo visits { th with pc := pc } < th.todo visits :=
  Nat.add_lt_add_right h _

section Stuck

variable (hstuck : ¬ s.CanStep p visits)
include hstuck

theorem not_body_of_stuck (hinv : CrewInv p visits s) (hm : (r, i) ∈ p.members) (task : τ) (j : ι) :
    (s.thread (r, i)).pc ≠ .body task j := by
  intro hpc
  obtain ⟨rest, hrest, -⟩ := hinv.thread (r, i)
  rw [hpc] at hrest
  cases hrest with
  | done hturn =>
    refine hstuck (canStep_of_thread hm (.endTask hm hpc hturn) nofun (CrewThread.todo_move ?_))
    rw [hpc]
    exact Nat.lt_succ_self 1
  | more hturn _ =>
    exact hstuck (canStep_of_thread hm (.run hm hpc hturn) nofun
      (CrewThread.todo_run (hinv.thread (r, i)) hpc hturn))

/-- While its handler is not busy, the threads of a rank are in the loop or have left. -/
theorem rests_of_stuck (hinv : CrewInv p visits s) (hat : s.session.atTask p.config r ∨
    s.session.atEnd r) (hm : (r, i) ∈ p.members) :
    (s.thread (r, i)).pc = .loop ∨ (s.thread (r, i)).pc = .left := by
  cases hpc : (s.thread (r, i)).pc with
  | loop => exact .inl rfl
  | left => exact .inr rfl
  | body task j => exact absurd hpc (not_body_of_stuck hstuck hinv hm task j)
  | next task =>
    refine (hstuck (canStep_of_thread hm (.release hm hpc hat) nofun
      (CrewThread.todo_move ?_))).elim
    rw [hpc]
    exact Nat.lt_succ_self 2

theorem free_of_stuck (hinv : CrewInv p visits s) (hr : r < p.config.size)
    (hat : s.session.atTask p.config r ∨ s.session.atEnd r) : s.Free p r := by
  intro i hi
  rcases rests_of_stuck hstuck hinv hat (p.mem_members.mpr ⟨hr, hi⟩) with hpc | hpc <;> rw [hpc] <;>
    rfl

/-- Where the handler is at its end, the threads have left. -/
theorem left_of_stuck (hinv : CrewInv p visits s) (hend : s.session.atEnd r)
    (hm : (r, i) ∈ p.members) : (s.thread (r, i)).pc = .left := by
  refine (rests_of_stuck hstuck hinv (.inr hend) hm).resolve_left fun hpc => ?_
  have hfree := free_of_stuck hstuck hinv (p.mem_members.mp hm).1 (.inr hend)
  refine hstuck (canStep_of_thread hm (.leave hm hpc hfree hend) nofun (CrewThread.todo_move ?_))
  rw [hpc]
  exact Nat.one_pos

end Stuck

/-- Until all threads have left and the session is over, some step brings this nearer. -/
theorem Crew.exists_step (hvisits : p.Visits visits) (h : LTS.Reachable (crewProbingSys p) s)
    (hno : ¬ (s.AllLeft p ∧ Over p.config s.session)) : s.CanStep p visits := by
  by_contra hstuck
  have hinv := crewInv hvisits h.of_restrict
  rcases Schedule.exists_step (session_probing h) with hover | ⟨a, u, hs, hbusy, hok⟩
  · -- the threads of a destroyed handler have left
    refine hno ⟨fun m hm => ?_, hover⟩
    by_cases hend : s.session.atEnd m.1
    · exact left_of_stuck hstuck hinv hend hm
    · refine hinv.alive m.1 m.2 hm ⟨?_, hend⟩
      unfold Session.ended
      split
      · exact hover.1.elim (fun hpc => .inr (.inl hpc)) fun hpc => .inr (.inr hpc)
      · next hr => rw [hover.2 m.1 ⟨(p.mem_members.mp hm).1, hr⟩]; rfl
  have hlt := todo_lt hinv.reachable hs hbusy
  cases ha : a.isUse with
  | true =>
    obtain ⟨r, hr, hat, rfl⟩ := hs.use_cases ha
    have hm := p.mem_members.mpr ⟨hr, p.threads_pos r hr⟩
    have hpc := (rests_of_stuck hstuck hinv (.inl hat) hm).resolve_right fun hpc =>
      Session.not_ended_of_atTask hat (hinv.left r 0 hpc)
    exact hstuck ⟨_, _, ⟨by nofun, .take hm hpc (free_of_stuck hstuck hinv hr (.inl hat)) hat hs⟩,
      todo_lt_of_session hlt⟩
  | false =>
    refine hstuck ⟨_, _, ⟨fun _ heq => ?_, .session hs ha fun r i hm hend _ => ?_⟩,
      todo_lt_of_session hlt⟩
    · cases heq
      exact hok
    · exact left_of_stuck hstuck hinv hend hm

/-- From every state the threads can leave, and the session can be brought to its end. -/
theorem Crew.exists_over (hvisits : p.Visits visits) (h : LTS.Reachable (crewProbingSys p) s) :
    ∃ t, LTS.Reachable ((crewProbingSys p).startingAt s) t ∧ t.AllLeft p ∧
      Over p.config t.session := by
  refine h.exists_goal (fun s => s.AllLeft p ∧ Over p.config s.session) (Crew.todo p visits) ?_
  exact fun s hs hno => Crew.exists_step hvisits hs hno

end SimpleParallel.Schedule
