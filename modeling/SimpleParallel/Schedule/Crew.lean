import SimpleParallel.Lib.Generator
import SimpleParallel.Schedule.Handlers

/-!
# Threads that take tasks from a session

What the loops of the C and of the Fortran binding have in common. The threads of
all ranks take the elements of a `Session` as tasks, one at a time in a critical
section, and go through a task outside. The kind of task and the loop over it are
parameters; the loop is a generator, which returns what its body runs for.

* A thread holds the critical section from the copy of the task (`Step.take`)
  until the handler has moved on (`Step.release`).
* Which thread deletes the schedule after the loop is left to the bindings.
  `crewSys` asks only that all threads of the rank have left, and a binding has to
  see to it (`Step.mono`).

Results:
* `Crew.ran_subperm`: in every reachable state the bodies ran for part of what the
  tasks hold, and for nothing twice.
* `Crew.ran_perm`: when all threads have left they ran for all of it.
* `Crew.executes`: both for a loop whose elements the tasks hold.
* `CrewInv.alive`: a thread that has not left finds its handler alive.
-/

namespace SimpleParallel.Schedule

/-- The crews of a session: the threads of each rank, the tasks that its elements
stand for, and the loop over a task. -/
structure CrewConfig (τ ι β : Type) where
  config : Config
  threads : Nat → Nat
  task : Nat → τ
  /-- The loop variable at the begin of a task. -/
  start : τ → ι
  /-- One turn of the loop: what the body runs for, or the end. -/
  turn : τ → ι → Option (ι × Option β)
  threads_pos : ∀ r < config.size, 0 < threads r

/-- Where a thread is. -/
inductive CrewPc (τ ι : Type)
  /-- before the critical section -/
  | loop
  /-- in it, with its copy of a task -/
  | next (task : τ)
  /-- in the loop over the task -/
  | body (task : τ) (i : ι)
  | left

/-- A thread, and what it has done so far. -/
structure CrewThread (τ ι β : Type) where
  pc : CrewPc τ ι
  taken : List Nat
  ran : List β

/-- All ranks; thread `(r, i)` is thread `i` of rank `r`. -/
structure Crew (τ ι β : Type) where
  session : Session
  thread : Nat × Nat → CrewThread τ ι β

inductive CrewLabel (β : Type)
  | session (a : Act)
  | take (r i k : Nat)
  | release (r i : Nat)
  | run (r i : Nat) (x : β)
  | endTask (r i : Nat)
  | leave (r i : Nat)

variable {τ ι β : Type}

def CrewPc.critical : CrewPc τ ι → Bool
  | next _ => true
  | _ => false

namespace CrewConfig

/-- The threads of all ranks. -/
def members (p : CrewConfig τ ι β) : List (Nat × Nat) :=
  (List.range p.config.size).flatMap fun r => (List.range (p.threads r)).map (Prod.mk r)

theorem mem_members {p : CrewConfig τ ι β} {r i : Nat} :
    (r, i) ∈ p.members ↔ r < p.config.size ∧ i < p.threads r := by
  simp [members]

theorem members_nodup (p : CrewConfig τ ι β) : p.members.Nodup := by
  rw [members, List.nodup_flatMap]
  refine ⟨fun r _ => List.nodup_range.map fun _ _ h => (Prod.mk.inj h).2, ?_⟩
  refine List.nodup_range.imp fun hne m hm hm' => hne ?_
  obtain ⟨i, -, rfl⟩ := List.mem_map.mp hm
  obtain ⟨j, -, heq⟩ := List.mem_map.mp hm'
  exact (Prod.mk.inj heq).1.symm

end CrewConfig

namespace Crew

def initial (p : CrewConfig τ ι β) : Crew τ ι β where
  session := Session.initial p.config
  thread _ := { pc := .loop, taken := [], ran := [] }

def setThread (s : Crew τ ι β) (m : Nat × Nat) (th : CrewThread τ ι β) : Crew τ ι β :=
  { s with thread := Function.update s.thread m th }

/-- No thread of rank `r` is in the critical section. -/
def Free (p : CrewConfig τ ι β) (s : Crew τ ι β) (r : Nat) : Prop :=
  ∀ i < p.threads r, (s.thread (r, i)).pc.critical = false

/-- The steps; `mayEnd` is what the binding asks of the steps of the handlers. -/
inductive Step (p : CrewConfig τ ι β) (mayEnd : Crew τ ι β → Session → Prop) :
    Crew τ ι β → CrewLabel β → Crew τ ι β → Prop
  | session {s : Crew τ ι β} {a : Act} {t : Session} : Schedule.Step p.config s.session a t →
      a.isUse = false → mayEnd s t → Step p mayEnd s (.session a) { s with session := t }
  | take {s : Crew τ ι β} {r i : Nat} {t : Session} : (r, i) ∈ p.members →
      (s.thread (r, i)).pc = .loop → s.Free p r → s.session.atTask p.config r →
      Schedule.Step p.config s.session (.use r (s.session.current r)) t →
      Step p mayEnd s (.take r i (s.session.current r))
        (Crew.setThread { s with session := t } (r, i)
          { s.thread (r, i) with
            pc := .next (p.task (s.session.current r))
            taken := (s.thread (r, i)).taken ++ [s.session.current r] })
  /-- The handler has moved on. -/
  | release {s : Crew τ ι β} {r i : Nat} {task : τ} : (r, i) ∈ p.members →
      (s.thread (r, i)).pc = .next task → s.session.atTask p.config r ∨ s.session.atEnd r →
      Step p mayEnd s (.release r i)
        (s.setThread (r, i) { s.thread (r, i) with pc := .body task (p.start task) })
  | run {s : Crew τ ι β} {r i : Nat} {task : τ} {j j' : ι} {x : β} : (r, i) ∈ p.members →
      (s.thread (r, i)).pc = .body task j → p.turn task j = some (j', some x) →
      Step p mayEnd s (.run r i x)
        (s.setThread (r, i)
          { s.thread (r, i) with
            pc := .body task j'
            ran := (s.thread (r, i)).ran ++ [x] })
  | endTask {s : Crew τ ι β} {r i : Nat} {task : τ} {j j' : ι} : (r, i) ∈ p.members →
      (s.thread (r, i)).pc = .body task j → p.turn task j = some (j', none) →
      Step p mayEnd s (.endTask r i) (s.setThread (r, i) { s.thread (r, i) with pc := .loop })
  | leave {s : Crew τ ι β} {r i : Nat} : (r, i) ∈ p.members →
      (s.thread (r, i)).pc = .loop → s.Free p r → s.session.atEnd r →
      Step p mayEnd s (.leave r i) (s.setThread (r, i) { s.thread (r, i) with pc := .left })

theorem Step.mono {p : CrewConfig τ ι β} {mayEnd mayEnd' : Crew τ ι β → Session → Prop}
    {s t : Crew τ ι β} {l : CrewLabel β} (h : Step p mayEnd s l t)
    (hend : ∀ a u, Schedule.Step p.config s.session a u → mayEnd s u → mayEnd' s u) :
    Step p mayEnd' s l t := by
  cases h with
  | session hs ha hmay => exact .session hs ha (hend _ _ hs hmay)
  | take hm hpc hfree hat hs => exact .take hm hpc hfree hat hs
  | release hm hpc hat => exact .release hm hpc hat
  | run hm hpc hturn => exact .run hm hpc hturn
  | endTask hm hpc hturn => exact .endTask hm hpc hturn
  | leave hm hpc hfree hend => exact .leave hm hpc hfree hend

/-- A thread that has left is at its end. -/
theorem Step.left {p : CrewConfig τ ι β} {mayEnd : Crew τ ι β → Session → Prop}
    {s t : Crew τ ι β} {l : CrewLabel β} (h : Step p mayEnd s l t) {m : Nat × Nat}
    (hleft : (s.thread m).pc = .left) : (t.thread m).pc = .left := by
  have keep : ∀ {m' : Nat × Nat} {th : CrewThread τ ι β}, (s.thread m').pc ≠ .left →
      (Function.update s.thread m' th m).pc = .left := by
    intro m' th hne
    by_cases hm : m = m'
    · exact absurd (hm ▸ hleft) hne
    · rw [Function.update_of_ne hm, hleft]
  cases h with
  | session _ _ _ => exact hleft
  | take _ hpc _ _ _ | release _ hpc _ | run _ hpc _ | endTask _ hpc _ | leave _ hpc _ _ =>
    exact keep (by rw [hpc]; nofun)

/-- A handler is destroyed when all threads of its rank have left. -/
def Deletes (p : CrewConfig τ ι β) (s : Crew τ ι β) (t : Session) : Prop :=
  ∀ r i, (r, i) ∈ p.members → s.session.atEnd r → ¬ t.atEnd r → (s.thread (r, i)).pc = .left

end Crew

def crewSys (p : CrewConfig τ ι β) : LTS.Sys (Crew τ ι β) (CrewLabel β) where
  init s := s = Crew.initial p
  step := Crew.Step p (Crew.Deletes p)

abbrev Crew.Reachable (p : CrewConfig τ ι β) (s : Crew τ ι β) : Prop :=
  LTS.Reachable (crewSys p) s

/-! ## The end of a schedule -/

/-- A handler that is deleted was at its end, or deleted before. -/
theorem Crew.Step.deleted {p : CrewConfig τ ι β} {mayEnd : Crew τ ι β → Session → Prop}
    {s t : Crew τ ι β} {l : CrewLabel β} {r : Nat} (h : Crew.Step p mayEnd s l t)
    (ht : t.session.deleted r) :
    s.session.deleted r ∨ s.session.atEnd r ∧ ¬ t.session.atEnd r ∧ mayEnd s t.session := by
  obtain ⟨hended, hgone⟩ := ht
  cases h with
  | session hs _ hmay =>
    have hold := (hs.ended_or hended).resolve_right hgone
    exact Classical.or_iff_not_imp_left.mpr fun hno =>
      ⟨Classical.not_not.mp fun hend => hno ⟨hold, hend⟩, hgone, hmay⟩
  | take _ _ _ _ hs =>
    obtain ⟨hkeep, hend⟩ := hs.ended_use r
    exact .inl ⟨hkeep hended, mt hend hgone⟩
  | release _ _ _ | run _ _ _ | endTask _ _ _ | leave _ _ _ _ => exact .inl ⟨hended, hgone⟩

/-! ## What the threads have done -/

/-- What a thread has still to run of its task. -/
def CrewPc.Rest (p : CrewConfig τ ι β) : CrewPc τ ι → List β → Prop
  | next task, rest => Yields (p.turn task) (p.start task) rest
  | body task j, rest => Yields (p.turn task) j rest
  | _, rest => rest = []

/-- What a thread ran, with what is left of its task, is what it took. -/
def CrewThread.Ok (p : CrewConfig τ ι β) (visits : Nat → List β) (th : CrewThread τ ι β) : Prop :=
  ∃ rest, th.pc.Rest p rest ∧ th.ran ++ rest = th.taken.flatMap visits

/-- The loop over each task comes to its end, and runs its body for `visits`. -/
def CrewConfig.Visits (p : CrewConfig τ ι β) (visits : Nat → List β) : Prop :=
  ∀ k < p.config.n, Yields (p.turn (p.task k)) (p.start (p.task k)) (visits k)

structure CrewInv (p : CrewConfig τ ι β) (visits : Nat → List β) (s : Crew τ ι β) : Prop where
  reachable : Schedule.Reachable p.config s.session
  thread : ∀ m, (s.thread m).Ok p visits
  taken : (p.members.flatMap fun m => (s.thread m).taken).Perm
    ((List.range p.config.size).flatMap s.session.yieldedBy)
  left : ∀ r i, (s.thread (r, i)).pc = .left → s.session.ended r
  alive : ∀ r i, (r, i) ∈ p.members → s.session.deleted r → (s.thread (r, i)).pc = .left

namespace CrewInv

variable {p : CrewConfig τ ι β} {visits : Nat → List β} {s t : Crew τ ι β} {l : CrewLabel β}
  {r i : Nat} {m : Nat × Nat} {th : CrewThread τ ι β}

theorem initial (p : CrewConfig τ ι β) (visits : Nat → List β) :
    CrewInv p visits (Crew.initial p) where
  reachable := .init rfl
  thread _ := ⟨[], rfl, rfl⟩
  taken := by
    have hnil : p.members.flatMap (fun m => ((Crew.initial p).thread m).taken) = [] :=
      List.flatMap_eq_nil_iff.mpr fun _ _ => rfl
    have hyield : (List.range p.config.size).flatMap (Crew.initial p).session.yieldedBy = [] :=
      yieldedBy_initial p.config
    rw [hnil, hyield]
  left _ _ := nofun
  alive r _ _ hdel := by
    have hended := hdel.1
    unfold Crew.initial Session.ended at hended
    split at hended
    · rcases hended with hpc | hpc | hpc <;> cases hpc
    · cases hended

theorem setThread_self : (s.setThread m th).thread m = th := Function.update_self _ _ _

theorem setThread_of_ne {m' : Nat × Nat} (h : m' ≠ m) :
    (s.setThread m th).thread m' = s.thread m' := Function.update_of_ne h _ _

/-- What holds of all threads holds after an update of one. -/
theorem setThread_forall {P : Nat × Nat → CrewThread τ ι β → Prop} (h : ∀ m, P m (s.thread m))
    (hth : P m th) (m' : Nat × Nat) : P m' ((s.setThread m th).thread m') := by
  by_cases hm : m' = m
  · subst hm
    rw [setThread_self]
    exact hth
  · rw [setThread_of_ne hm]
    exact h m'

/-- The tasks taken, after a step of thread `m`. -/
theorem taken_setThread (s : Crew τ ι β) (m : Nat × Nat) (th : CrewThread τ ι β) :
    (fun m' => ((s.setThread m th).thread m').taken) =
      Function.update (fun m' => (s.thread m').taken) m th.taken := by
  funext m'
  by_cases hm : m' = m
  · subst hm
    rw [setThread_self, Function.update_self]
  · rw [setThread_of_ne hm, Function.update_of_ne hm]

/-- A step of one thread that takes no task. -/
theorem thread_step (h : CrewInv p visits s) (hinside : (s.thread (r, i)).pc ≠ .left)
    (hok : th.Ok p visits) (htaken : th.taken = (s.thread (r, i)).taken)
    (hleft : th.pc = .left → s.session.ended r) : CrewInv p visits (s.setThread (r, i) th) where
  reachable := h.reachable
  thread := setThread_forall (P := fun _ th => th.Ok p visits) h.thread hok
  taken := by
    rw [taken_setThread, htaken, Function.update_eq_self]
    exact h.taken
  left r' i' := setThread_forall (P := fun m th => th.pc = .left → s.session.ended m.1)
    (fun m => h.left m.1 m.2) hleft (r', i')
  alive r' i' hm hdel := by
    have hold := h.alive r' i' hm hdel
    by_cases hself : (r', i') = (r, i)
    · exact absurd (hself ▸ hold) hinside
    · rw [setThread_of_ne hself]
      exact hold

/-- A thread takes the element that its handler stands at. -/
theorem take {u : Session} (hvisits : p.Visits visits) (h : CrewInv p visits s)
    (hm : (r, i) ∈ p.members) (hpc : (s.thread (r, i)).pc = .loop)
    (hs : Schedule.Step p.config s.session (.use r (s.session.current r)) u) :
    CrewInv p visits (Crew.setThread { s with session := u } (r, i)
      { s.thread (r, i) with
        pc := .next (p.task (s.session.current r))
        taken := (s.thread (r, i)).taken ++ [s.session.current r] }) := by
  have hr := (p.mem_members.mp hm).1
  -- the handlers move on; the thread is still where it was
  have htaken : (p.members.flatMap fun m => (s.thread m).taken).Perm
      ((List.range p.config.size).flatMap s.session.yieldedBy) := h.taken
  refine
    { reachable := h.reachable.step hs
      thread := setThread_forall (P := fun _ th => th.Ok p visits) h.thread ?_
      taken := ?_
      left := fun r' i' => setThread_forall (P := fun m th => th.pc = .left → u.ended m.1)
        (fun m hpc => hs.ended (h.left m.1 m.2 hpc)) (fun hpc => by cases hpc) (r', i')
      alive := fun r' i' hm' hdel => ?_ }
  · have hk : s.session.current r < p.config.n := by
      refine lt_of_yielded (h.reachable.step hs) hr ?_
      rw [hs.yieldedBy_use, Function.update_self]
      exact List.mem_append_right _ (List.mem_singleton_self _)
    obtain ⟨rest, hrest, hran⟩ := h.thread (r, i)
    rw [hpc] at hrest
    obtain rfl : rest = [] := hrest
    refine ⟨visits (s.session.current r), hvisits _ hk, ?_⟩
    rw [List.append_nil] at hran
    simp only [hran, List.flatMap_append, List.flatMap_singleton]
  · rw [taken_setThread]
    show (p.members.flatMap _).Perm ((List.range p.config.size).flatMap u.yieldedBy)
    rw [hs.yieldedBy_use]
    calc (p.members.flatMap (Function.update (fun m => (s.thread m).taken) (r, i)
          ((s.thread (r, i)).taken ++ [s.session.current r]))).Perm _ :=
        Assignment.flatMap_update_perm p.members_nodup hm _
      _ |>.Perm _ := htaken.append_right _
      _ |>.Perm _ :=
        (Assignment.flatMap_update_perm List.nodup_range (List.mem_range.mpr hr) _).symm
  · obtain ⟨hkeep, hend⟩ := hs.ended_use r'
    have hold := h.alive r' i' hm' ⟨hkeep hdel.1, mt hend hdel.2⟩
    by_cases hself : (r', i') = (r, i)
    · cases (hself ▸ hold).symm.trans hpc
    · rw [setThread_of_ne hself]
      exact hold

theorem step (hvisits : p.Visits visits) (h : CrewInv p visits s)
    (hs : Crew.Step p (Crew.Deletes p) s l t) : CrewInv p visits t := by
  cases hs with
  | session hs ha hdel =>
    refine ⟨h.reachable.step hs, h.thread, ?_, fun r i hpc => hs.ended (h.left r i hpc), ?_⟩
    · rw [funext (hs.yieldedBy_eq ha)]
      exact h.taken
    · intro r i hm hdeleted
      rcases (Crew.Step.session hs ha hdel).deleted hdeleted with hold | ⟨hend, hgone, _⟩
      · exact h.alive r i hm hold
      · exact hdel r i hm hend hgone
  | take hm hpc _ _ hs => exact h.take hvisits hm hpc hs
  | @release r i task _ hpc _ =>
    obtain ⟨rest, hrest, hran⟩ := h.thread (r, i)
    rw [hpc] at hrest
    exact h.thread_step (by rw [hpc]; nofun) ⟨rest, hrest, hran⟩ rfl nofun
  | @run r i task j j' x _ hpc hturn =>
    obtain ⟨rest, hrest, hran⟩ := h.thread (r, i)
    rw [hpc] at hrest
    obtain ⟨rest', rfl, hrest'⟩ := Yields.tail hrest hturn
    refine h.thread_step (by rw [hpc]; nofun) ⟨rest', hrest', ?_⟩ rfl nofun
    rw [List.append_assoc]
    exact hran
  | @endTask r i task j j' _ hpc hturn =>
    obtain ⟨rest, hrest, hran⟩ := h.thread (r, i)
    rw [hpc] at hrest
    obtain rfl : rest = [] := Yields.unique hrest (.done hturn)
    exact h.thread_step (by rw [hpc]; nofun) ⟨[], rfl, hran⟩ rfl nofun
  | @leave r i _ hpc _ hend =>
    obtain ⟨rest, hrest, hran⟩ := h.thread (r, i)
    rw [hpc] at hrest
    exact h.thread_step (by rw [hpc]; nofun) ⟨rest, hrest, hran⟩ rfl
      fun _ => Session.ended_of_atEnd hend

end CrewInv

section

variable {p : CrewConfig τ ι β} {visits : Nat → List β} {s : Crew τ ι β}

theorem crewInv (hvisits : p.Visits visits) (h : Crew.Reachable p s) : CrewInv p visits s :=
  h.invariant (fun _ hs => hs ▸ CrewInv.initial p visits) fun _ _ _ _ hi hs => hi.step hvisits hs

/-- What the bodies ran for, over all threads of all ranks. -/
def Crew.ran (p : CrewConfig τ ι β) (s : Crew τ ι β) : List β :=
  p.members.flatMap fun m => (s.thread m).ran

/-- Every thread has left the loop. -/
def Crew.AllLeft (p : CrewConfig τ ι β) (s : Crew τ ι β) : Prop :=
  ∀ m ∈ p.members, (s.thread m).pc = .left

/-- What the threads took is what the handlers were asked for. -/
theorem CrewInv.taken_perm (h : CrewInv p visits s) :
    (p.members.flatMap fun m => (s.thread m).taken.flatMap visits).Perm
      (((List.range p.config.size).flatMap s.session.yieldedBy).flatMap visits) := by
  rw [← List.flatMap_assoc]
  exact h.taken.flatMap_right _

/-- The bodies ran for part of what the tasks hold. -/
theorem Crew.ran_subperm (hvisits : p.Visits visits) (h : Crew.Reachable p s) :
    (s.ran p).Subperm ((List.range p.config.n).flatMap visits) := by
  have hinv := crewInv hvisits h
  obtain ⟨l, hperm, hsub⟩ := yielded_subperm hinv.reachable
  have hpart : (s.ran p).Sublist
      (p.members.flatMap fun m => (s.thread m).taken.flatMap visits) := by
    refine List.Sublist.flatMap_right _ fun m _ => ?_
    obtain ⟨rest, -, hran⟩ := hinv.thread m
    rw [← hran]
    exact List.sublist_append_left _ _
  refine (hpart.subperm.trans hinv.taken_perm.subperm).trans ?_
  exact (hperm.symm.flatMap_right _).subperm.trans (hsub.flatMap _).subperm

/-- When all threads have left, they have run all that the tasks hold. -/
theorem Crew.ran_perm (hvisits : p.Visits visits) (h : Crew.Reachable p s) (hleft : s.AllLeft p) :
    (s.ran p).Perm ((List.range p.config.n).flatMap visits) := by
  have hinv := crewInv hvisits h
  have hdone : AllDone p.config s.session := allDone_of_ended hinv.reachable fun r hr =>
    hinv.left r 0 (hleft _ (p.mem_members.mpr ⟨hr, p.threads_pos r hr⟩))
  have hran : s.ran p = p.members.flatMap fun m => (s.thread m).taken.flatMap visits := by
    refine List.flatMap_congr fun m hm => ?_
    obtain ⟨rest, hrest, hran⟩ := hinv.thread m
    rw [hleft m hm] at hrest
    obtain rfl : rest = [] := hrest
    rw [← hran, List.append_nil]
  rw [hran]
  exact hinv.taken_perm.trans ((yielded_perm hinv.reachable hdone).1.flatMap_right _)

/-- What a crew says of a loop whose elements the tasks hold: the bodies run for each of them
at most once and for nothing else, a thread leaves when nothing is left for its rank, and when
all have left the bodies have run for all elements. -/
theorem Crew.executes {elements : List β} (hvisits : p.Visits visits)
    (hcover : (List.range p.config.n).flatMap visits = elements) (hnodup : elements.Nodup)
    (h : Crew.Reachable p s) :
    (s.ran p).Nodup ∧ (∀ x ∈ s.ran p, x ∈ elements) ∧
    (∀ m ∈ p.members, (s.thread m).pc = .left → s.session.NoneLeft p.config m.1) ∧
    (s.AllLeft p → (s.ran p).Perm elements) := by
  subst hcover
  have hinv := crewInv hvisits h
  obtain ⟨l, hperm, hsub⟩ := Crew.ran_subperm hvisits h
  refine ⟨hperm.nodup_iff.mp (hsub.nodup hnodup), fun x hx => hsub.subset (hperm.mem_iff.mpr hx),
    fun m hm hleft => ?_, Crew.ran_perm hvisits h⟩
  exact noneLeft_of_ended hinv.reachable (p.mem_members.mp hm).1 (hinv.left m.1 m.2 hleft)

end

end SimpleParallel.Schedule
