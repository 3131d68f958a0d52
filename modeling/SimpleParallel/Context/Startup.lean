import SimpleParallel.Lib.Gather
import SimpleParallel.Sync.ReserveHeap

/-!
# Starting up

`fake_main` of `init.cc` on every rank, from the environment up to the place where rank 0
runs the program and the others wait in the loop of `worker`: the checks on the way, the
collective calls between them, and what a rank prints when it gives up.

* `fakeMain_failed`, `fakeMain_passed`: what a rank does, by the checks it passes.
* `startup_fate`: what becomes of all ranks, by the checks that each of them passes.
-/

namespace SimpleParallel.Context.Startup

open Gather Sync

/-! ## The environment of a process -/

/-- `std::stoi`; `none` is an exception. -/
def stoi (s : String) : Option Int :=
  let s := s.toList.dropWhile isSpace
  let negative := s.head? = some '-'
  let s := if s.head? = some '-' ∨ s.head? = some '+' then s.tail else s
  let digits := (s.takeWhile Char.isDigit).map fun c => c.toNat - '0'.toNat
  let magnitude : Nat := digits.foldl (fun value digit => 10 * value + digit) 0
  let value : Int := if negative then -magnitude else magnitude
  if digits = [] ∨ value < -2 ^ 31 ∨ 2 ^ 31 ≤ value then none else some value

example : stoi " -12a" = some (-12) := by decide

/-- What a process finds when it starts, with the environment variables. -/
structure Process (pageSize userEnd : Nat) where
  ompiCommWorldSize : Option String
  ompiCommWorldRank : Option String
  mpiThreadLevel : Option String
  skipCoreBindCheck : Bool
  /-- `sysconf(_SC_PAGE_SIZE)`. -/
  actualPagesize : Nat
  /-- The processors of `sched_getaffinity`, or the text of `errno`. -/
  affinity : Except String Nat
  hardwareConcurrency : Nat
  /-- The first line of `/proc/self/personality`, if it could be opened. -/
  personality : Option String
  heapEnv : HeapEnv
  space : AddressSpace
  kernel : ∀ len, MmapKernel pageSize userEnd len space
  /-- What the allocation in `register_heap` throws. -/
  registerHeap : Option String
  /-- The stream `clear_refs` is good. -/
  clearRefs : Bool
  /-- The reasons for which they fail. -/
  getcontext : Option String
  swapcontext : Option String

/-- `bmpi::threading::level`. -/
inductive ThreadLevel
  | single
  | funneled
  | serialized
  | multiple
  deriving DecidableEq

/-- How a process ends before the program runs. -/
inductive Stop
  | exception (what : String)
  | assertion
  | abort (code : Nat)
  deriving DecidableEq

/-- Where `fake_main` gets to. -/
inductive StartupEnd
  | leader
  | worker
  /-- `__real_main`, without simple_parallel. -/
  | realMain
  | returned (code : Nat)
  deriving DecidableEq

/-- The collective calls, up to the end of MPI. -/
inductive Call
  | init
  | commDuplicate
  | allReduce
  | barrier
  | finalize
  deriving DecidableEq

/-- A process with the calls of `ι`; only the all-reduce has data. -/
abbrev Rank (ι α : Type) : Type := Prog ι Call Bool Stop α

/-! ## The checks -/

namespace Process

variable {pageSize userEnd : Nat} {ι : Type} (p : Process pageSize userEnd)

/-- The choice of `thread_level`. -/
def threadLevel : Except String ThreadLevel :=
  match p.mpiThreadLevel with
  | none => .ok .serialized
  | some level =>
    if level = "single" then .ok .single
    else if level = "funneled" then .ok .funneled
    else if level = "serialized" then .ok .serialized
    else if level = "multiple" then .ok .multiple
    else .error ("Invalid SIMPLE_PARALLEL_MPI_THREAD_LEVEL: " ++ level ++ "\n")

/-- `check_pagesize`. -/
def checkPagesize : Except String Unit :=
  if pageSize ≠ p.actualPagesize then
    .error ("Error: page size mismatch, expect " ++ toString pageSize ++ " but actual is " ++
      toString p.actualPagesize ++ "\n" ++
      "You must recompile simple_parallel again on this machine. " ++
      "CMake will detect the correct page size automatically.\n")
  else .ok ()

/-- `get_avail_cpu_count`. -/
def getAvailCpuCount : Except String Nat :=
  match p.affinity with
  | .ok count => .ok count
  | .error reason => .error ("Failed to get CPU affinity, reason: " ++ reason)

/-- `check_cpu_binding`. -/
def checkCpuBinding (rank : Nat) : Except String Unit := do
  if p.skipCoreBindCheck then return
  if (← p.getAvailCpuCount) ≤ 2 ∧ p.hardwareConcurrency > 2 then
    throw ("Error: CPU avaliable to rank " ++ toString rank ++ " is restricted. " ++
      "This process will not be able to take advantage of all CPU cores.\n" ++
      "Usually this is caused by OpenMPI, which bind process to one core by default. " ++
      "see https://docs.open-mpi.org/en/v5.0.x/man-openmpi/man1/mpirun.1.html#quick-summary\n" ++
      "This can be easily solved by adding `--bind-to none` to mpirun argument\n" ++
      "If you believe this is a false positive error, please set " ++
      "SIMPLE_PARALLEL_SKIP_CORE_BIND_CHECK environment variable to any value.\n")

/-- `reserve_heap_area` in `worker`. -/
def reserveHeap : Except String Unit :=
  match getReservedHeap p.heapEnv with
  | .ok reservedHeap => (reserveHeapArea reservedHeap (p.kernel reservedHeap.size)).1
  | .error e => .error e

/-- What rank 0 does before the program runs. -/
def startLeader : Except String Unit :=
  match p.registerHeap with
  | some what => .error what
  | none =>
    if p.clearRefs = false then .error "Failed to open /proc/self/clear_refs"
    else
      match p.getcontext with
      | some reason => .error ("Failed to getcontext, reason: " ++ reason)
      | none =>
        match p.swapcontext with
        | some reason => .error ("Failed to swapcontext, reason: " ++ reason)
        | none => .ok ()

/-- The start of `check_aslr_disabled`. -/
def readPersonality : Except String Nat :=
  match p.personality with
  | none => .error "Failed to open /proc/self/personality"
  | some line =>
    match stoull line with
    | some personality => .ok personality
    | none => .error ("Failed to parse /proc/self/personality, str: " ++ line ++ "\n")

end Process

/-- `ADDR_NO_RANDOMIZE`. -/
def addrNoRandomize : Nat := 0x0040000

def aslrDisabled (personality : Nat) : Bool := decide (personality &&& addrNoRandomize ≠ 0)

def aslrHeader : String :=
  "ERROR: ASLR is not disabled on all ranks, please run " ++
  "program with simple_parallel's wrap script. Exit.\n"

def aslrLine (rank : Nat) : String := "ASLR is not disabled on rank " ++ toString rank ++ "\n"

/-! ## The program -/

section

variable {pageSize userEnd n : Nat} {ι α : Type}

/-- A function that may throw. -/
def Rank.run (res : Except String α) : Rank ι α := Prog.ofExcept (res.mapError .exception)

/-- The handlers of `fake_main`. -/
def Rank.catchAll (p : Rank ι StartupEnd) : Rank ι StartupEnd :=
  p.handle fun
    | .exception what => .say (what ++ "\n") (.pure (.returned 1))
    | stop => .fail stop

/-- The end of `check_aslr_disabled`, when some rank has ASLR. -/
def reportAslr (rank : Nat) (aslrDisabled : Bool) : Rank ι StartupEnd := do
  if rank = 0 then Prog.print aslrHeader
  let _ ← Prog.exchange .barrier false
  -- the condition of the source
  if aslrDisabled then Prog.print (aslrLine rank)
  let _ ← Prog.exchange .barrier false
  .fail (.abort 1)

/-- `get_mpi_info_from_env`. -/
def getMpiInfoFromEnv (p : Process pageSize userEnd) : Rank ι (Int × Int) :=
  match p.ompiCommWorldSize, p.ompiCommWorldRank with
  | some size, some rank =>
    match stoi size with
    | none => .say ("WARNING: Failed to read environment variable " ++
        "OMPI_COMM_WORLD_SIZE. Assume single rank.\n") (.pure (1, 0))
    | some size =>
      match stoi rank with
      | none => .say ("WARNING: Failed to read environment variable " ++
          "OMPI_COMM_WORLD_RANK. Assume single rank.\n") (.pure (1, 0))
      | some rank => .pure (size, rank)
  | _, _ => .pure (1, 0)

/-- The role of a rank, up to the program or the loop of `worker`. -/
def takeRole (p : Process pageSize userEnd) (worldRank : Int) : Rank ι StartupEnd := do
  if worldRank = 0 then
    Rank.run p.startLeader
    return .leader
  else
    Rank.run p.reserveHeap
    return .worker

/-- The `try` block of `fake_main`, on the rank `rank` of `n`. -/
def startUp (ndebug : Bool) (rank : Fin n) (p : Process pageSize userEnd) (info : Int × Int) :
    Rank (Fin n) StartupEnd := do
  Rank.run p.checkPagesize
  let _ ← Prog.exchange .commDuplicate false
  Rank.run (p.checkCpuBinding rank)
  if p.ompiCommWorldSize.isNone || p.ompiCommWorldRank.isNone then
    if n > 1 then
      Prog.print ("Error: This program is linked to/started from MPI " ++
        "implementation other than OpenMPI, abort.\nPlease start the program with OpenMPI.\n")
      return .returned 1
    Prog.print ("WARNING: This program is linked to simple_parallel library " ++
      "but not start from OpenMPI, it will run without distribute memory parallel support.\n")
    return .realMain
  if ¬ (ndebug ∨ ((n : Int) = info.1 ∧ (rank : Int) = info.2)) then .fail .assertion
  else if n > 1 then
    let personality ← Rank.run p.readPersonality
    let all ← Prog.exchange .allReduce (aslrDisabled personality)
    if ∀ i, all i = true then takeRole p info.2
    else reportAslr rank (aslrDisabled personality)
  else takeRole p info.2

/-- The `try` block and what follows it: a rank that returns ends MPI first. -/
def Rank.finish (p : Rank ι StartupEnd) : Rank ι StartupEnd := do
  match ← p.catchAll with
  | .returned code =>
    let _ ← Prog.exchange .finalize false
    return .returned code
  | role => return role

/-- `fake_main`. -/
def fakeMain (ndebug : Bool) (rank : Fin n) (p : Process pageSize userEnd) :
    Rank (Fin n) StartupEnd := Rank.catchAll do
  let info ← getMpiInfoFromEnv p
  let _ ← Rank.run p.threadLevel
  let _ ← Prog.exchange .init false
  (startUp ndebug rank p info).finish

end

/-! ## A rank alone -/

section

variable {pageSize userEnd n : Nat} {ndebug : Bool}

namespace Process

/-- Open MPI has started the process as the rank `i` of `n`. -/
def Launched (n : Nat) (i : Fin n) (p : Process pageSize userEnd) : Prop :=
  ∃ size rank, p.ompiCommWorldSize = some size ∧ p.ompiCommWorldRank = some rank ∧
    stoi size = some (n : Int) ∧ stoi rank = some ((i : Nat) : Int)

def error? {α : Type} : Except String α → Option String
  | .ok _ => none
  | .error e => some e

/-- The check that the rank `i` fails, if any, before its `k`-th call. -/
def failure (i : Fin n) (p : Process pageSize userEnd) : Nat → Option String
  | 0 => error? p.threadLevel
  | 1 => error? p.checkPagesize
  | 2 => (error? (p.checkCpuBinding i)).or (error? p.readPersonality)
  | _ => none

/-- Why the rank `i` does not take its role. -/
def roleFailure (i : Fin n) (p : Process pageSize userEnd) : Option String :=
  if (i : Nat) = 0 then error? p.startLeader else error? p.reserveHeap

/-- The process runs without address space randomisation. -/
def AslrDisabled (p : Process pageSize userEnd) : Bool :=
  match p.readPersonality with
  | .ok personality => aslrDisabled personality
  | .error _ => false

end Process

variable {i : Fin n} {p : Process pageSize userEnd} {e : String}

theorem getMpiInfoFromEnv_launched {ι : Type} (h : p.Launched n i) :
    getMpiInfoFromEnv p = (.pure ((n : Int), (i : Int)) : Rank ι (Int × Int)) := by
  obtain ⟨size, rank, hsize, hrank, hn, hi⟩ := h
  simp only [getMpiInfoFromEnv, hsize, hrank, hn, hi]

theorem fakeMain_launched (h : p.Launched n i) {level : ThreadLevel}
    (hlevel : p.threadLevel = .ok level) :
    fakeMain ndebug i p =
      .call .init false fun _ => ((startUp ndebug i p (n, i)).finish).catchAll := by
  unfold fakeMain
  rw [getMpiInfoFromEnv_launched h, hlevel]
  rfl

theorem fakeMain_level (h : p.Launched n i) (hlevel : p.threadLevel = .error e) :
    fakeMain ndebug i p = .say (e ++ "\n") (.pure (.returned 1)) := by
  unfold fakeMain
  rw [getMpiInfoFromEnv_launched h, hlevel]
  rfl

theorem startUp_binding (hpage : p.checkPagesize = .ok ())
    (hbind : p.checkCpuBinding i = .error e) {info : Int × Int} :
    startUp ndebug i p info = .call .commDuplicate false fun _ => .fail (.exception e) := by
  unfold startUp
  rw [hpage, hbind]
  rfl

theorem startUp_personality (h : p.Launched n i) (hn : 1 < n) (hpage : p.checkPagesize = .ok ())
    (hbind : p.checkCpuBinding i = .ok ()) (hpers : p.readPersonality = .error e) :
    startUp ndebug i p (n, i) = .call .commDuplicate false fun _ => .fail (.exception e) := by
  obtain ⟨size, rank, hsize, hrank, -, -⟩ := h
  unfold startUp
  rw [hpage, hbind, hpers, hsize, hrank]
  simp [hn]
  rfl

/-- A rank that gives up prints why, and waits for the end of MPI. -/
def quit {ι : Type} (e : String) : Rank ι StartupEnd :=
  .say (e ++ "\n") (.call .finalize false fun _ => .pure (.returned 1))

/-- The checks before the all-reduce. -/
theorem startUp_failed (h : p.Launched n i) (hn : 1 < n) (hpage : p.checkPagesize = .ok ())
    (hfail : p.failure i 2 = some e) :
    startUp ndebug i p (n, i) = .call .commDuplicate false fun _ => .fail (.exception e) := by
  unfold Process.failure at hfail
  cases hbind : p.checkCpuBinding i with
  | error e' =>
    rw [hbind] at hfail
    cases hfail
    exact startUp_binding hpage hbind
  | ok u =>
    rw [hbind] at hfail
    cases hpers : p.readPersonality with
    | error e' =>
      rw [hpers] at hfail
      cases hfail
      exact startUp_personality h hn hpage hbind hpers
    | ok personality =>
      rw [hpers] at hfail
      cases hfail

theorem startUp_checked (h : p.Launched n i) (hn : 1 < n) (hpage : p.checkPagesize = .ok ())
    (hpass : p.failure i 2 = none) :
    startUp ndebug i p (n, i) = .call .commDuplicate false fun _ =>
      .call .allReduce p.AslrDisabled fun all =>
        if ∀ j, all j = true then takeRole p i else reportAslr i p.AslrDisabled := by
  obtain ⟨size, rank, hsize, hrank, -, -⟩ := h
  unfold Process.failure at hpass
  cases hbind : p.checkCpuBinding i with
  | error e' =>
    rw [hbind] at hpass
    cases hpass
  | ok u =>
    rw [hbind] at hpass
    cases hpers : p.readPersonality with
    | error e' =>
      rw [hpers] at hpass
      cases hpass
    | ok personality =>
      unfold startUp Process.AslrDisabled
      rw [hpage, hbind, hpers, hsize, hrank]
      simp [hn]
      rfl

end

/-! ## All ranks -/

section

variable {pageSize userEnd n : Nat} {ndebug : Bool} {P : Fin n → Process pageSize userEnd}
  {r : Fin n → Fate Stop StartupEnd}

/-- Some ranks give up, and wait for the end of MPI. The others do not end it: none of those
that gave up gets past it, unless all did. -/
theorem joint_finalize {q : Fin n → Rank (Fin n) StartupEnd} (failure : Fin n → Option String)
    (hquit : ∀ i e, failure i = some e → q i = quit e)
    (hgo : ∀ i, failure i = none → (q i).next? ≠ some .finalize) (hsome : ∃ i, failure i ≠ none)
    (h : Joint q r) (i : Fin n) :
    r i = match failure i with
      | some e => ⟨[e ++ "\n"],
          if ∀ j, failure j ≠ none then some (.ok (.returned 1)) else none⟩
      | none => ⟨(q i).lines, (q i).result?⟩ := by
  by_cases hall : ∀ j, failure j ≠ none
  · -- they meet at the end of MPI
    have hone : ∀ j, ∃ e, failure j = some e := fun j => Option.ne_none_iff_exists'.mp (hall j)
    choose e he using hone
    obtain ⟨i₀, -⟩ := hsome
    have : Nonempty (Fin n) := ⟨i₀⟩
    have hhead : ∀ j, (q j).head = .call .finalize false fun _ => .pure (.returned 1) := by
      intro j
      rw [hquit j (e j) (he j)]
      rfl
    obtain ⟨r', hr', hr⟩ := h.of_meet hhead
    rw [hr i, hr'.of_apart (fun ⟨c, hc⟩ => nomatch hc i), hquit i (e i) (he i), he i, if_pos hall]
    rfl
  · obtain ⟨j, hj⟩ := not_forall.mp hall
    rw [ne_eq, not_not] at hj
    obtain ⟨i₀, hi₀⟩ := hsome
    obtain ⟨e₀, he₀⟩ := Option.ne_none_iff_exists'.mp hi₀
    have hne : ¬ ∃ c', ∀ i, (q i).next? = some c' := by
      rintro ⟨c', hc'⟩
      have hquits := hc' i₀
      rw [hquit i₀ e₀ he₀] at hquits
      cases hquits
      exact hgo j hj (hc' j)
    rw [h.of_apart hne i]
    cases hi : failure i with
    | none => rfl
    | some e =>
      rw [hquit i e hi, if_neg hall]
      rfl

/-- Some ranks give up where the others go on to a call: nobody gets past it. -/
theorem joint_quit {q : Fin n → Rank (Fin n) StartupEnd} (c : Call) (hc : c ≠ .finalize)
    (failure : Fin n → Option String) (hquit : ∀ i e, failure i = some e → q i = quit e)
    (hcall : ∀ i, failure i = none → ∃ mine k, q i = .call c mine k)
    (hsome : ∃ i, failure i ≠ none) (h : Joint q r) (i : Fin n) :
    r i = ⟨(failure i).toList.map (· ++ "\n"),
      if ∀ j, failure j ≠ none then some (.ok (.returned 1)) else none⟩ := by
  have hgo : ∀ i, failure i = none → (q i).next? ≠ some .finalize := by
    intro i hi heq
    obtain ⟨mine, k, hk⟩ := hcall i hi
    rw [hk] at heq
    cases heq
    exact hc rfl
  rw [joint_finalize failure hquit hgo hsome h i]
  cases hi : failure i with
  | some e => rfl
  | none =>
    obtain ⟨mine, k, hk⟩ := hcall i hi
    rw [hk, if_neg fun hall => hall i hi]
    rfl

/-- A rank that does not know its thread level never starts MPI. -/
theorem fate_level (hlaunch : ∀ i, (P i).Launched n i)
    (h : Joint (fun i => fakeMain ndebug i (P i)) r) (hsome : ∃ i, (P i).failure i 0 ≠ none)
    (i : Fin n) : r i = ⟨((P i).failure i 0).toList.map (· ++ "\n"),
      ((P i).failure i 0).map fun _ => .ok (.returned 1)⟩ := by
  have hone : ∀ j e, (P j).failure j 0 = some e →
      fakeMain ndebug j (P j) = .say (e ++ "\n") (.pure (.returned 1)) := by
    intro j e he
    unfold Process.failure at he
    cases hlevel : (P j).threadLevel with
    | ok level =>
      rw [hlevel] at he
      cases he
    | error e' =>
      rw [hlevel] at he
      cases he
      exact fakeMain_level (hlaunch j) hlevel
  obtain ⟨i₀, hi₀⟩ := hsome
  obtain ⟨e₀, he₀⟩ := Option.ne_none_iff_exists'.mp hi₀
  have hne : ¬ ∃ c, ∀ i, (fakeMain ndebug i (P i)).next? = some c := by
    rintro ⟨c, hc⟩
    have h₀ := hc i₀
    rw [hone i₀ e₀ he₀] at h₀
    cases h₀
  rw [h.of_apart hne i]
  cases hi : (P i).failure i 0 with
  | some e =>
    rw [hone i e hi]
    rfl
  | none =>
    unfold Process.failure at hi
    cases hlevel : (P i).threadLevel with
    | error e =>
      rw [hlevel] at hi
      cases hi
    | ok level =>
      rw [fakeMain_launched (hlaunch i) hlevel]
      rfl

/-- After the checks of the thread level. -/
theorem joint_init (hlaunch : ∀ i, (P i).Launched n i)
    (h : Joint (fun i => fakeMain ndebug i (P i)) r) (h0 : ∀ i, (P i).failure i 0 = none) :
    Joint (fun i => ((startUp ndebug i (P i) (n, i)).finish).catchAll) r := by
  have heq : (fun i => fakeMain ndebug i (P i)) =
      fun i => .call .init false fun _ => ((startUp ndebug i (P i) (n, i)).finish).catchAll := by
    funext i
    have hi := h0 i
    unfold Process.failure at hi
    cases hlevel : (P i).threadLevel with
    | error e =>
      rw [hlevel] at hi
      cases hi
    | ok level => exact fakeMain_launched (hlaunch i) hlevel
  rw [heq] at h
  exact h.of_call

theorem checkPagesize_ok {i : Fin n} (h1 : (P i).failure i 1 = none) :
    (P i).checkPagesize = .ok () := by
  unfold Process.failure at h1
  cases hpage : (P i).checkPagesize with
  | ok u => rfl
  | error e =>
    rw [hpage] at h1
    cases h1

/-- A rank gives up after its second or its third call, or goes on to the next. -/
theorem startUp_cases (hn : 1 < n) (hlaunch : ∀ i, (P i).Launched n i) {i : Fin n}
    (h1 : (P i).failure i 1 = none) :
    ((startUp ndebug i (P i) (n, i)).finish).catchAll = .call .commDuplicate false fun _ =>
      match (P i).failure i 2 with
      | some e => quit e
      | none => .call .allReduce (P i).AslrDisabled fun all =>
        (Rank.finish (if ∀ j, all j = true then takeRole (P i) i
          else reportAslr i (P i).AslrDisabled)).catchAll := by
  have hpage := checkPagesize_ok h1
  cases h2 : (P i).failure i 2 with
  | some e =>
    rw [startUp_failed (hlaunch i) hn hpage h2]
    rfl
  | none =>
    rw [startUp_checked (hlaunch i) hn hpage h2]
    rfl

theorem fate_pagesize (hn : 1 < n) (hlaunch : ∀ i, (P i).Launched n i)
    (h : Joint (fun i => fakeMain ndebug i (P i)) r) (h0 : ∀ i, (P i).failure i 0 = none)
    (hsome : ∃ i, (P i).failure i 1 ≠ none) (i : Fin n) :
    r i = ⟨((P i).failure i 1).toList.map (· ++ "\n"),
      if ∀ j, (P j).failure j 1 ≠ none then some (.ok (.returned 1)) else none⟩ := by
  refine joint_quit .commDuplicate nofun (fun j => (P j).failure j 1) ?_ ?_
    hsome (joint_init hlaunch h h0) i
  · intro j e he
    unfold Process.failure at he
    cases hpage : (P j).checkPagesize with
    | ok u =>
      rw [hpage] at he
      cases he
    | error e' =>
      rw [hpage] at he
      cases he
      unfold startUp
      rw [hpage]
      rfl
  · intro j hj
    exact ⟨_, _, startUp_cases hn hlaunch hj⟩

/-- After the check of the page size. -/
theorem joint_duplicate (hn : 1 < n) (hlaunch : ∀ i, (P i).Launched n i)
    (h : Joint (fun i => fakeMain ndebug i (P i)) r) (h0 : ∀ i, (P i).failure i 0 = none)
    (h1 : ∀ i, (P i).failure i 1 = none) :
    Joint (fun i => match (P i).failure i 2 with
      | some e => quit e
      | none => .call .allReduce (P i).AslrDisabled fun all =>
        (Rank.finish (if ∀ j, all j = true then takeRole (P i) i
          else reportAslr i (P i).AslrDisabled)).catchAll) r := by
  have hinit := joint_init hlaunch h h0
  rw [funext fun i => startUp_cases hn hlaunch (h1 i)] at hinit
  exact hinit.of_call

theorem fate_checks (hn : 1 < n) (hlaunch : ∀ i, (P i).Launched n i)
    (h : Joint (fun i => fakeMain ndebug i (P i)) r) (h0 : ∀ i, (P i).failure i 0 = none)
    (h1 : ∀ i, (P i).failure i 1 = none) (hsome : ∃ i, (P i).failure i 2 ≠ none) (i : Fin n) :
    r i = ⟨((P i).failure i 2).toList.map (· ++ "\n"),
      if ∀ j, (P j).failure j 2 ≠ none then some (.ok (.returned 1)) else none⟩ := by
  refine joint_quit .allReduce nofun (fun j => (P j).failure j 2) ?_ ?_
    hsome (joint_duplicate hn hlaunch h h0 h1) i
  · intro j e he
    simp only [he]
  · intro j hj
    simp only [hj]
    exact ⟨_, _, rfl⟩

/-- After the all-reduce. -/
theorem joint_reduced (hn : 1 < n) (hlaunch : ∀ i, (P i).Launched n i)
    (h : Joint (fun i => fakeMain ndebug i (P i)) r) (hpass : ∀ k i, (P i).failure i k = none) :
    Joint (fun i => (Rank.finish (if ∀ j, (P j).AslrDisabled = true then takeRole (P i) i
      else reportAslr i (P i).AslrDisabled)).catchAll) r := by
  have hdup := joint_duplicate hn hlaunch h (hpass 0) (hpass 1)
  simp only [hpass 2] at hdup
  exact hdup.of_call

/-- Some rank has ASLR: all of them abort. -/
theorem fate_aslr (hn : 1 < n) (hlaunch : ∀ i, (P i).Launched n i)
    (h : Joint (fun i => fakeMain ndebug i (P i)) r) (hpass : ∀ k i, (P i).failure i k = none)
    (haslr : ¬ ∀ j, (P j).AslrDisabled = true) (i : Fin n) :
    r i = ⟨(if (i : Nat) = 0 then [aslrHeader] else []) ++
      (if (P i).AslrDisabled then [aslrLine i] else []), some (.error (.abort 1))⟩ := by
  have hred := joint_reduced hn hlaunch h hpass
  simp only [if_neg haslr] at hred
  have : Nonempty (Fin n) := ⟨i⟩
  -- the two barriers
  have hfirst : ∀ j : Fin n, (Rank.finish (reportAslr j (P j).AslrDisabled)).catchAll.head =
      .call .barrier false fun _ => (Rank.finish (do
        if (P j).AslrDisabled then Prog.print (aslrLine j)
        let _ ← Prog.exchange .barrier false
        .fail (.abort 1) : Rank (Fin n) StartupEnd)).catchAll := by
    intro j
    unfold reportAslr
    by_cases hj : (j : Nat) = 0 <;> simp only [hj, if_true, if_false] <;> rfl
  obtain ⟨r₁, hr₁, hr⟩ := hred.of_meet hfirst
  have hsecond : ∀ j : Fin n, (Rank.finish (do
      if (P j).AslrDisabled then Prog.print (aslrLine j)
      let _ ← Prog.exchange .barrier false
      .fail (.abort 1) : Rank (Fin n) StartupEnd)).catchAll.head =
      .call .barrier false fun _ => .fail (.abort 1) := by
    intro j
    cases (P j).AslrDisabled <;> rfl
  obtain ⟨r₂, hr₂, hr'⟩ := hr₁.of_meet hsecond
  rw [hr i, hr' i, hr₂.of_apart (fun ⟨c, hc⟩ => nomatch hc i)]
  unfold reportAslr
  by_cases hi : (i : Nat) = 0 <;> cases (P i).AslrDisabled <;> simp only [hi, if_true, if_false] <;>
    rfl

/-- The role of a rank. -/
def roleOf (i : Fin n) : StartupEnd := if (i : Nat) = 0 then .leader else .worker

theorem takeRole_failed {i : Fin n} {p : Process pageSize userEnd} {e : String}
    (h : p.roleFailure i = some e) :
    (Rank.finish (takeRole p i)).catchAll = (quit e : Rank (Fin n) StartupEnd) := by
  unfold Process.roleFailure at h
  unfold takeRole
  by_cases hi : (i : Nat) = 0
  · rw [if_pos hi] at h
    rw [if_pos (Int.natCast_eq_zero.mpr hi)]
    cases hstart : p.startLeader with
    | ok u => simp [hstart, Process.error?] at h
    | error e' =>
      rw [hstart] at h
      cases h
      rfl
  · rw [if_neg hi] at h
    rw [if_neg fun h => hi (Int.natCast_eq_zero.mp h)]
    cases hheap : p.reserveHeap with
    | ok u => simp [hheap, Process.error?] at h
    | error e' =>
      rw [hheap] at h
      cases h
      rfl

theorem takeRole_taken {i : Fin n} {p : Process pageSize userEnd} (h : p.roleFailure i = none) :
    (Rank.finish (takeRole p i)).catchAll = (.pure (roleOf i) : Rank (Fin n) StartupEnd) := by
  unfold Process.roleFailure at h
  unfold takeRole roleOf
  by_cases hi : (i : Nat) = 0
  · rw [if_pos hi] at h
    rw [if_pos (Int.natCast_eq_zero.mpr hi), if_pos hi]
    cases hstart : p.startLeader with
    | error e => simp [hstart, Process.error?] at h
    | ok u => rfl
  · rw [if_neg hi] at h
    rw [if_neg fun h => hi (Int.natCast_eq_zero.mp h), if_neg hi]
    cases hheap : p.reserveHeap with
    | error e => simp [hheap, Process.error?] at h
    | ok u => rfl

/-- Everything is in order: each rank takes its role, unless it fails on its own. Those that
fail wait for the end of MPI, which comes if all do. -/
theorem fate_roles (hn : 1 < n) (hlaunch : ∀ i, (P i).Launched n i)
    (h : Joint (fun i => fakeMain ndebug i (P i)) r) (hpass : ∀ k i, (P i).failure i k = none)
    (haslr : ∀ j, (P j).AslrDisabled = true) (i : Fin n) :
    r i = match (P i).roleFailure i with
      | some e => ⟨[e ++ "\n"],
          if ∀ j, (P j).roleFailure j ≠ none then some (.ok (.returned 1)) else none⟩
      | none => ⟨[], some (.ok (roleOf i))⟩ := by
  have hred := joint_reduced hn hlaunch h hpass
  simp only [if_pos haslr] at hred
  by_cases hsome : ∃ j, (P j).roleFailure j ≠ none
  · have hgo : ∀ j, (P j).roleFailure j = none →
        ((Rank.finish (takeRole (P j) j)).catchAll : Rank (Fin n) StartupEnd).next? ≠
          some .finalize := by
      intro j hj heq
      rw [takeRole_taken hj] at heq
      cases heq
    rw [joint_finalize (fun j => (P j).roleFailure j) (fun j e => takeRole_failed) hgo hsome hred i]
    cases hi : (P i).roleFailure i with
    | some e => rfl
    | none =>
      simp only [takeRole_taken hi]
      rfl
  · simp only [not_exists, ne_eq, not_not] at hsome
    simp only [takeRole_taken (hsome _)] at hred
    rw [hred.of_apart (fun ⟨c, hc⟩ => nomatch hc i) i, hsome i]
    rfl

/-- With Open MPI and more than one rank, all ranks come to their roles or none. In the first
stage where some rank fails a check, exactly the ranks that fail print why, and none gets past
the next call; before MPI starts those that fail return, later they wait for its end with the
others. If some rank has ASLR all abort, and the ranks that are named are those without it.
Otherwise rank 0 leads and the others are its workers, each unless it fails on its own: a rank
that does prints why and waits for the end of MPI while the others have started. -/
theorem startup_fate (hn : 1 < n) (hlaunch : ∀ i, (P i).Launched n i)
    (h : Joint (fun i => fakeMain ndebug i (P i)) r) (i : Fin n) :
    ((∃ j, (P j).failure j 0 ≠ none) →
      r i = ⟨((P i).failure i 0).toList.map (· ++ "\n"),
        ((P i).failure i 0).map fun _ => .ok (.returned 1)⟩) ∧
    (∀ k, k = 1 ∨ k = 2 → (∀ k' < k, ∀ j, (P j).failure j k' = none) →
      (∃ j, (P j).failure j k ≠ none) →
      r i = ⟨((P i).failure i k).toList.map (· ++ "\n"),
        if ∀ j, (P j).failure j k ≠ none then some (.ok (.returned 1)) else none⟩) ∧
    ((∀ k j, (P j).failure j k = none) → (¬ ∀ j, (P j).AslrDisabled = true) →
      r i = ⟨(if (i : Nat) = 0 then [aslrHeader] else []) ++
        (if (P i).AslrDisabled then [aslrLine i] else []), some (.error (.abort 1))⟩) ∧
    ((∀ k j, (P j).failure j k = none) → (∀ j, (P j).AslrDisabled = true) →
      r i = match (P i).roleFailure i with
        | some e => ⟨[e ++ "\n"],
            if ∀ j, (P j).roleFailure j ≠ none then some (.ok (.returned 1)) else none⟩
        | none => ⟨[], some (.ok (roleOf i))⟩) := by
  refine ⟨fun hsome => fate_level hlaunch h hsome i, ?_, fun hpass haslr => ?_,
    fun hpass haslr => ?_⟩
  · rintro k (rfl | rfl) hbefore hsome
    · exact fate_pagesize hn hlaunch h (hbefore 0 (by decide)) hsome i
    · exact fate_checks hn hlaunch h (hbefore 0 (by decide)) (hbefore 1 (by decide)) hsome i
  · exact fate_aslr hn hlaunch h hpass haslr i
  · exact fate_roles hn hlaunch h hpass haslr i

/-- A rank of two, by what the kernel tells it. -/
def process (rank personality : String) (clearRefs : Bool) : Process 4096 (2 ^ 47) where
  ompiCommWorldSize := some "2"
  ompiCommWorldRank := some rank
  mpiThreadLevel := none
  skipCoreBindCheck := true
  actualPagesize := 4096
  affinity := .ok 1
  hardwareConcurrency := 8
  personality := some personality
  heapEnv := ⟨none, none⟩
  space := ⟨fun _ => none, fun _ => 0⟩
  kernel := fun _ => ⟨fun _ => .failed "", fun _ => trivial⟩
  registerHeap := none
  clearRefs
  getcontext := none
  swapcontext := none

/-- Rank 1 has ASLR. -/
def oneRandomized (i : Fin 2) : Process 4096 (2 ^ 47) :=
  if i = 0 then process "0" "00040000" true else process "1" "00000000" true

/-- Rank 0 cannot clear the soft-dirty bits, and rank 1 gets its heap. -/
def noClearRefs (i : Fin 2) : Process 4096 (2 ^ 47) :=
  if i = 0 then process "0" "00040000" false
  else { process "1" "00040000" true with heapEnv := ⟨some "0", none⟩ }

/-- Rank 0 is named although it is rank 1 that has ASLR; and rank 0 gives up where rank 1
waits for it. -/
theorem startup_fate_twoRanks :
    (∃ r : Fin 2 → Fate Stop StartupEnd, Joint (fun i => fakeMain false i (oneRandomized i)) r ∧
      r 0 = ⟨[aslrHeader, aslrLine 0], some (.error (.abort 1))⟩ ∧
      r 1 = ⟨[], some (.error (.abort 1))⟩) ∧
    ∃ r : Fin 2 → Fate Stop StartupEnd, Joint (fun i => fakeMain false i (noClearRefs i)) r ∧
      r 0 = ⟨["Failed to open /proc/self/clear_refs\n"], none⟩ ∧
      r 1 = ⟨[], some (.ok .worker)⟩ := by
  constructor
  · have hlaunch : ∀ i, (oneRandomized i).Launched 2 i := by
      intro i
      match i with
      | 0 => exact ⟨"2", "0", rfl, rfl, by decide, by decide⟩
      | 1 => exact ⟨"2", "1", rfl, rfl, by decide, by decide⟩
    have hpass : ∀ k j, (oneRandomized j).failure j k = none := by
      intro k j
      match k, j with
      | 0, 0 | 0, 1 | 1, 0 | 1, 1 | 2, 0 | 2, 1 => decide
      | k + 3, _ => rfl
    have haslr : ¬ ∀ j, (oneRandomized j).AslrDisabled = true := by decide
    obtain ⟨r, hr⟩ := exists_joint fun i => fakeMain false i (oneRandomized i)
    exact ⟨r, hr, (startup_fate (by decide) hlaunch hr 0).2.2.1 hpass haslr,
      (startup_fate (by decide) hlaunch hr 1).2.2.1 hpass haslr⟩
  · have hlaunch : ∀ i, (noClearRefs i).Launched 2 i := by
      intro i
      match i with
      | 0 => exact ⟨"2", "0", rfl, rfl, by decide, by decide⟩
      | 1 => exact ⟨"2", "1", rfl, rfl, by decide, by decide⟩
    have hpass : ∀ k j, (noClearRefs j).failure j k = none := by
      intro k j
      match k, j with
      | 0, 0 | 0, 1 | 1, 0 | 1, 1 | 2, 0 | 2, 1 => decide
      | k + 3, _ => rfl
    have haslr : ∀ j, (noClearRefs j).AslrDisabled = true := by decide
    have hfailed : (noClearRefs 0).roleFailure (0 : Fin 2) =
        some "Failed to open /proc/self/clear_refs" := rfl
    have htaken : (noClearRefs 1).roleFailure (1 : Fin 2) = none := by decide
    obtain ⟨r, hr⟩ := exists_joint fun i => fakeMain false i (noClearRefs i)
    have h0 := (startup_fate (by decide) hlaunch hr 0).2.2.2 hpass haslr
    have h1 := (startup_fate (by decide) hlaunch hr 1).2.2.2 hpass haslr
    rw [hfailed, if_neg fun hall => hall 1 htaken] at h0
    rw [htaken] at h1
    exact ⟨r, hr, h0, h1⟩

end

end SimpleParallel.Context.Startup
