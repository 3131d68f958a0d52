import SimpleParallel.Lib.Simulation
import SimpleParallel.Sync.Section

/-!
# The address spaces agree

The worker's mappings follow the leader's through the operation log.

* `agreementInv`: the log, replayed on a worker, gives every page of the heap
  the leader's protection, or `PROT_NONE` where the leader has nothing mapped;
  and every operation ever logged was replayed or is still in the log.
* `performAll_total`: the replay of such a log does not fail.
* `addressSpaces_agree`: the agreement at every entry whose log is shorter than
  `INT_MAX` bytes, and at no other; `longLog_not_replayed`: a log that is lost.
* `enter_total`: from every reachable state a section can be entered.
-/

namespace SimpleParallel.Sync

open Reduce

variable {P : Platform} {W : Nat}

/-! ## The replay succeeds -/

theorem perform_total {op : MemOp} {v : AddressSpace} (hop : OpOk P op)
    (hv : ∀ p, P.HeapPage p → (v.prot p).isSome) :
    ∃ v', op.perform P.pageSize P.ndebug v = some v' := by
  cases op with
  | mmap params | munmap params => exact ⟨_, if_pos hop.aligned⟩
  | madvise params =>
    simp only [MemOp.perform, MadviseParams.run]
    split
    · exact ⟨_, rfl⟩
    · -- the debug build terminates unless all pages are mapped
      refine ⟨_, if_pos ?_⟩
      have hall : ∀ p ∈ List.range' (syscallPages P.pageSize params.addr params.len).begin
          (syscallPages P.pageSize params.addr params.len).count, (v.prot p).isSome := by
        intro p hp
        rw [List.mem_range'_1] at hp
        exact hv p (hop.pages_heap p hp)
      simp only [AddressSpace.madvise, if_pos hop.aligned, List.all_eq_true]
      exact hall

theorem performAll_total {ops : List MemOp} {v : AddressSpace} (hops : ∀ op ∈ ops, OpOk P op)
    (hv : ∀ p, P.HeapPage p → (v.prot p).isSome) :
    ∃ v', performAll P.pageSize P.ndebug ops v = some v' := by
  induction ops generalizing v with
  | nil => exact ⟨v, rfl⟩
  | cons op ops ih =>
    obtain ⟨u, hu⟩ := perform_total (hops op List.mem_cons_self) hv
    obtain ⟨v', hv'⟩ := ih (fun o ho => hops o (List.mem_cons_of_mem _ ho)) fun p hp => by
      rw [perform_prot hu p, Option.isSome_or, hv p hp, Bool.or_true]
    refine ⟨v', Option.bind_eq_some_iff.mpr ⟨u, hu, hv'⟩⟩

/-! ## The invariant -/

/-- The worker's protection of a page once it has replayed the log. -/
def pendingProt (P : Platform) (ops : List MemOp) (v : AddressSpace) (p : Nat) : Option Nat :=
  ops.foldl (fun prot op => (op.remap P.pageSize p).or prot) (v.prot p)

structure AgreementInv (P : Platform) (s : State W) : Prop where
  ops_ok : ∀ op ∈ s.leader.memoryOperations, OpOk P op
  mapped : ∀ w p, P.HeapPage p → ((s.workers w).space.prot p).isSome
  agree : ∀ w p, P.HeapPage p →
    pendingProt P s.leader.memoryOperations (s.workers w).space p =
      some ((s.leader.space.prot p).getD protNone)
  history : ∀ w, (s.workers w).replayed ++ s.leader.memoryOperations = s.leader.logged

theorem agreementInv_init {s : State W} (h : Init P s) : AgreementInv P s where
  ops_ok := by
    rw [h.leader_log.1]
    nofun
  mapped w p hp := by
    rw [(h.worker_heap w p hp).1]
    rfl
  agree w p hp := by
    rw [h.leader_log.1, (h.leader_heap p hp).1]
    exact (h.worker_heap w p hp).1
  history w := by
    rw [(h.worker_history w).1, h.leader_log.1, h.leader_log.2]
    rfl

theorem agreementInv_call {s : State W} {l : Leader} (hi : AgreementInv P s)
    (h : (∃ op, Logs P s.leader l op) ∨ Elsewhere P s.leader l) :
    AgreementInv P { s with leader := l } := by
  rcases h with ⟨op, hlogs⟩ | helse
  · refine ⟨?_, hi.mapped, fun w p hp => ?_, fun w => ?_⟩
    · intro o ho
      rw [hlogs.memoryOperations, List.mem_append, List.mem_singleton] at ho
      rcases ho with ho | rfl
      · exact hi.ops_ok o ho
      · exact hlogs.ok
    · have hbefore := hi.agree w p hp
      show pendingProt P l.memoryOperations _ p = some ((l.space.prot p).getD protNone)
      unfold pendingProt at hbefore ⊢
      rw [hlogs.memoryOperations, List.foldl_append, hbefore, hlogs.prot p, List.foldl_cons,
        List.foldl_nil]
      cases op.remap P.pageSize p <;> rfl
    · show (s.workers w).replayed ++ l.memoryOperations = l.logged
      rw [hlogs.memoryOperations, hlogs.logged, ← List.append_assoc, hi.history w]
  · refine ⟨?_, hi.mapped, fun w p hp => ?_, fun w => ?_⟩
    · show ∀ op ∈ l.memoryOperations, OpOk P op
      rw [helse.memoryOperations]
      exact hi.ops_ok
    · show pendingProt P l.memoryOperations _ p = some ((l.space.prot p).getD protNone)
      rw [helse.memoryOperations, helse.prot p hp]
      exact hi.agree w p hp
    · show (s.workers w).replayed ++ l.memoryOperations = l.logged
      rw [helse.memoryOperations, helse.logged]
      exact hi.history w

/-- An entry replays the log and leaves it empty. -/
theorem agreementInv_enter {s : State W} {reduces : List ReduceArea}
    {spaces : Fin W → AddressSpace} (hi : AgreementInv P s)
    (h : ∀ w, Worker.doEnterParallel P s.leader reduces (s.workers w).space = some (spaces w)) :
    AgreementInv P
      { leader := s.leader.enterParallelImpl
        workers := fun w => (s.workers w).entered P s.leader reduces (spaces w)
        reduces := some reduces } := by
  have hreplay : ∀ w, ∃ u,
      recvAndPerformMemOps P.pageSize P.ndebug s.leader.memoryOperations (s.workers w).space =
        some u ∧ (spaces w).prot = u.prot := by
    intro w
    obtain ⟨v, m, hv, -, hspace⟩ := Worker.doEnterParallel_eq_some.mp (h w)
    obtain ⟨u, hu, hprot⟩ := Worker.enterParallelImpl_prot hv
    exact ⟨u, hu, by rw [hspace]; exact hprot⟩
  have hprot : ∀ w p, P.HeapPage p →
      (spaces w).prot p = some ((s.leader.space.prot p).getD protNone) := by
    intro w p hp
    obtain ⟨u, hu, hprot⟩ := hreplay w
    rw [hprot, performAll_prot (performAll_of_recv hu).2 p]
    exact hi.agree w p hp
  refine ⟨nofun, fun w p hp => ?_, hprot, fun w => ?_⟩
  · show ((spaces w).prot p).isSome
    rw [hprot w p hp]
    rfl
  · obtain ⟨u, hu, -⟩ := hreplay w
    show ((s.workers w).replayed ++ (recvMemOps s.leader.memoryOperations).getD []) ++ [] = _
    rw [(performAll_of_recv hu).1, List.append_nil]
    exact hi.history w

theorem agreementInv_step {s t : State W} {a : Label W} (hl : LeaderInv P s.leader)
    (hi : AgreementInv P s) (h : Step P s a t) : AgreementInv P t := by
  cases h with
  | call hok h =>
    refine agreementInv_call hi ?_
    rcases (call_cases hl hok h).1 with ⟨op, -, hlogs⟩ | helse
    · exact .inl ⟨op, hlogs⟩
    · exact .inr helse
  | enter _ _ _ h => exact agreementInv_enter hi h
  | malloc | free | write | kernel | exit => exact ⟨hi.ops_ok, hi.mapped, hi.agree, hi.history⟩
  | @workerWrite _ w addr byte _ =>
    -- a write changes no protection and no history
    have hsame : ∀ w', (Function.update s.workers w ((s.workers w).write addr byte) w').space.prot =
        (s.workers w').space.prot ∧
        (Function.update s.workers w ((s.workers w).write addr byte) w').replayed =
          (s.workers w').replayed := by
      intro w'
      by_cases hw : w' = w
      · subst hw
        rw [Function.update_self]
        exact ⟨rfl, rfl⟩
      · rw [Function.update_of_ne hw]
        exact ⟨rfl, rfl⟩
    refine ⟨hi.ops_ok, fun w' p hp => ?_, fun w' p hp => ?_, fun w' => ?_⟩
    · rw [(hsame w').1]
      exact hi.mapped w' p hp
    · unfold pendingProt
      rw [(hsame w').1]
      exact hi.agree w' p hp
    · rw [(hsame w').2]
      exact hi.history w'

theorem agreementInv {s : State W} (h : LTS.Reachable (sys P W) s) : AgreementInv P s :=
  h.invariant (P := fun s => AgreementInv P s) (fun _ h0 => agreementInv_init h0)
    fun _ _ _ hr hi hs => agreementInv_step (leaderInv hr) hi hs

/-! ## The agreement at an entry -/

/-- What an entry from `s` does on a worker: the replay succeeds and leaves the
heap mapped as on the leader; it touches nothing outside the heap; and with it
the worker has performed all operations ever logged, in their order. -/
structure AgreesAt (P : Platform) (s : State W) (w : Fin W) (v : AddressSpace) : Prop where
  replay : recvAndPerformMemOps P.pageSize P.ndebug s.leader.memoryOperations
    (s.workers w).space = some v
  received : recvMemOps s.leader.memoryOperations = some s.leader.memoryOperations
  once : (s.workers w).replayed ++ s.leader.memoryOperations = s.leader.logged
  agree : ∀ p, P.HeapPage p → v.prot p = some ((s.leader.space.prot p).getD protNone)
  inside : ∀ op ∈ s.leader.memoryOperations, ∀ p, (op.pages P.pageSize).Mem p → P.HeapPage p
  outside : ∀ x, ¬ P.HeapPage (addr2pgnum P.pageSize x) →
    v.prot (addr2pgnum P.pageSize x) = (s.workers w).space.prot (addr2pgnum P.pageSize x) ∧
      v.mem x = (s.workers w).space.mem x

theorem agreesAt_of_short {s : State W} (h : LTS.Reachable (sys P W) s)
    (hlog : sizeofMemOps * s.leader.memoryOperations.length < intMax) (w : Fin W) :
    ∃ v, AgreesAt P s w v := by
  have hi := agreementInv h
  obtain ⟨v, hv⟩ := performAll_total hi.ops_ok (hi.mapped w)
  have hrecv := recvMemOps_eq hlog
  have hinside : ∀ op ∈ s.leader.memoryOperations, ∀ p, (op.pages P.pageSize).Mem p →
      P.HeapPage p := fun op hop => (hi.ops_ok op hop).pages_heap
  refine ⟨v, ⟨?_, hrecv, hi.history w, fun p hp => ?_, hinside, fun x hx => ⟨?_, ?_⟩⟩⟩
  · rw [recvAndPerformMemOps, hrecv]
    exact hv
  · rw [performAll_prot hv p]
    exact hi.agree w p hp
  · rw [performAll_prot hv]
    have hkeep : ∀ (ops : List MemOp) (prot : Option Nat),
        (∀ op ∈ ops, op.remap P.pageSize (addr2pgnum P.pageSize x) = none) →
        ops.foldl (fun prot op => (op.remap P.pageSize (addr2pgnum P.pageSize x)).or prot) prot =
          prot := by
      intro ops prot hops
      induction ops with
      | nil => rfl
      | cons op ops ih =>
        rw [List.foldl_cons, hops op List.mem_cons_self]
        exact ih fun o ho => hops o (List.mem_cons_of_mem _ ho)
    exact hkeep _ _ fun op hop => (remap_outside fun hin => hx (hinside op hop _ hin)).1
  · rw [performAll_mem hv, if_neg]
    rw [Bool.not_eq_true, List.any_eq_false]
    intro op hop
    rw [(remap_outside fun hin => hx (hinside op hop _ hin)).2 P.ndebug]
    exact Bool.false_ne_true

/-- No longer log arrives as it was sent. -/
theorem short_of_received {ops : List MemOp} (hops : ∀ op ∈ ops, OpOk P op)
    (h : recvMemOps ops = some ops) : sizeofMemOps * ops.length < intMax := by
  by_contra hlong
  have hpos : 0 < ops.length := by
    refine Nat.pos_of_ne_zero fun h0 => ?_
    rw [h0] at hlong
    exact hlong (by decide)
  simp only [recvMemOps] at h
  split at h
  · cases h
  · next hcount =>
    -- the count wraps around, so that operations at the end are missing
    have hwrap : (narrowCastInt (sizeofMemOps * ops.length)).toNat < sizeofMemOps * ops.length := by
      have hlt : (narrowCastInt (sizeofMemOps * ops.length)).toNat < 2 ^ 31 := by
        have := (BitVec.ofNat 32 (sizeofMemOps * ops.length)).toInt_lt
        unfold narrowCastInt
        omega
      unfold intMax sizeofMemOps at *
      omega
    have harrived : (narrowCastInt (sizeofMemOps * ops.length)).toNat / sizeofMemOps <
        ops.length := Nat.div_lt_of_lt_mul hwrap
    have hdefault : MemOp.default ∈ ops := by
      rw [← Option.some.inj h]
      refine List.mem_append_right _ (List.mem_replicate.mpr ⟨?_, rfl⟩)
      omega
    exact Nat.lt_irrefl 0 (hops _ hdefault).aligned.2

/-- At an entry the address spaces agree exactly if the log is shorter than
`INT_MAX` bytes. -/
theorem addressSpaces_agree {s : State W} (h : LTS.Reachable (sys P W) s) (w : Fin W) :
    (∃ v, AgreesAt P s w v) ↔ sizeofMemOps * s.leader.memoryOperations.length < intMax := by
  constructor
  · rintro ⟨v, hv⟩
    exact short_of_received (agreementInv h).ops_ok hv.received
  · intro hlog
    exact agreesAt_of_short h hlog w

/-- Outside a section one can always be entered. -/
theorem enter_total {s : State W} {reduces : List ReduceArea} (h : LTS.Reachable (sys P W) s)
    (hlog : sizeofMemOps * s.leader.memoryOperations.length < intMax) (hs : s.reduces = none)
    (hverify : verifyReducesNoOverlap reduces = .ok ()) (hok : ∀ r ∈ reduces, AreaOk r)
    (hsupp : ∀ r ∈ reduces, r.Supported) :
    ∃ spaces : Fin W → AddressSpace,
      (∀ w, Worker.doEnterParallel P s.leader reduces (s.workers w).space = some (spaces w)) ∧
      Step P s (.enter reduces)
        { leader := s.leader.enterParallelImpl
          workers := fun w => (s.workers w).entered P s.leader reduces (spaces w)
          reduces := some reduces } := by
  have hone : ∀ w, ∃ v, Worker.doEnterParallel P s.leader reduces (s.workers w).space = some v := by
    intro w
    obtain ⟨u, hu⟩ := agreesAt_of_short h hlog w
    have himpl : Worker.enterParallelImpl P s.leader reduces (s.workers w).space = some _ :=
      Option.map_eq_some_iff.mpr ⟨u, hu.replay, rfl⟩
    have hinit : ∀ m, ∃ m', ReduceArea.initAll reduces m = .ok m' :=
      fun _ => ReduceArea.initAll_total.mpr hsupp
    obtain ⟨m, hm⟩ := hinit _
    exact ⟨_, Worker.doEnterParallel_eq_some.mpr ⟨_, m, himpl, hm, rfl⟩⟩
  choose spaces hspaces using hone
  exact ⟨spaces, hspaces, .enter hs hverify hok hspaces⟩

/-! ## A run -/

/-- The processes at their start, with nothing mapped in the heap. -/
def start (P : Platform) (W : Nat) : State W where
  leader :=
    { space := ⟨fun _ => none, fun _ => 0⟩
      pte := fun _ => 0
      begin := P.reservedHeap.data
      memoryOperations := []
      logged := []
      mmapAreas := []
      blocks := []
      written := fun _ => False }
  workers := fun _ => ⟨⟨fun _ => some protNone, fun _ => 0⟩, [], fun _ => False⟩
  reduces := none

theorem start_init : Init P (start P W) where
  leader_begin := rfl
  leader_log := ⟨rfl, rfl⟩
  leader_areas := ⟨rfl, rfl⟩
  leader_heap := fun _ _ => ⟨rfl, fun _ _ => rfl⟩
  worker_heap := fun _ _ _ => ⟨rfl, fun _ _ => rfl⟩
  worker_history := fun _ => ⟨rfl, fun _ h => h⟩
  reduces := rfl

/-- The first page of the heap, as an area. -/
def firstArea (P : Platform) : MemArea := ⟨P.reservedHeap.data, P.pageSize⟩

/-- The operation that maps it, for reading and writing. -/
def firstOp (P : Platform) : MemOp := .mmap ⟨P.reservedHeap.data, P.pageSize, 3, 34, -1, 0⟩

/-- The leader after it has mapped the first page and logged `ops`. -/
def mappedLeader (P : Platform) (ops : List MemOp) : Leader where
  space := ⟨fun p => if p = addr2pgnum P.pageSize P.reservedHeap.data then some 3 else none,
    fun _ => 0⟩
  pte := fun _ => 0
  begin := P.reservedHeap.data + Leader.roundUp P.pageSize Leader.step
  memoryOperations := firstOp P :: ops
  logged := firstOp P :: ops
  mmapAreas := [firstArea P]
  blocks := []
  written := fun _ => False

theorem firstArea_pages {p : Nat} :
    (syscallPages P.pageSize P.reservedHeap.data P.pageSize).Mem p ↔
      p = addr2pgnum P.pageSize P.reservedHeap.data := by
  have hpos : 0 < P.pageSize := P.format.pageSize_pos
  have hcount : (P.pageSize + (P.pageSize - 1)) / P.pageSize = 1 := by
    rw [Nat.add_div_left _ hpos, Nat.div_eq_of_lt (by omega)]
  simp only [syscallPages, hcount, PteRange.Mem, addr2pgnum]
  omega

theorem call_firstOp (hsize : P.pageSize ≤ P.reservedHeap.size) :
    (start P W).leader.call P (.proxyMmap [.placed] P.pageSize 3 34 0) =
      some (mappedLeader P []) := by
  have hloop : Leader.mmapLoop P P.pageSize [.placed] P.reservedHeap.data =
      some P.reservedHeap.data := if_neg (by omega)
  have hok : P.reservedHeap.data % P.pageSize = 0 ∧ 0 < P.pageSize :=
    ⟨P.heap_aligned, P.format.pageSize_pos⟩
  simp only [Leader.call, Leader.proxyMmap, start, hloop, Option.bind_some,
    AddressSpace.mmapFixed, if_pos hok, Option.map_some, Leader.log, Leader.dropPte,
    AddressSpace.dropPages, ite_self, firstArea_pages]
  rfl

/-- The processes after the leader has mapped the first page and logged `ops`. -/
def mapped (P : Platform) (W : Nat) (ops : List MemOp) : State W :=
  { start P W with leader := mappedLeader P ops }

theorem reachable_mapped_restrict {ok : State W → Label W → Prop}
    (hsize : P.pageSize ≤ P.reservedHeap.size)
    (hok : ok (start P W) (.call (.proxyMmap [.placed] P.pageSize 3 34 0))) :
    LTS.Reachable ((sys P W).restrict ok) (mapped P W []) :=
  (LTS.Reachable.init start_init).step
    ⟨hok, .call (fun _ _ _ _ => rfl) (call_firstOp hsize)⟩

theorem reachable_mapped (hsize : P.pageSize ≤ P.reservedHeap.size) :
    LTS.Reachable (sys P W) (mapped P W []) := by
  have hfree : LTS.Reachable ((sys P W).restrict fun _ _ => True) (mapped P W []) :=
    reachable_mapped_restrict hsize trivial
  exact hfree.of_restrict

/-- A call of `madvise` for the first page succeeds and is logged. -/
theorem call_madvise {l : Leader} {advice : Nat}
    (hmapped : (l.space.prot (addr2pgnum P.pageSize P.reservedHeap.data)).isSome) :
    l.call P (.proxyMadvise P.reservedHeap.data P.pageSize advice) =
      some (Leader.log (.madvise ⟨P.reservedHeap.data, P.pageSize, advice⟩)
        { l with
          space := (l.space.madvise P.pageSize P.reservedHeap.data P.pageSize advice).2
          pte := fun p =>
            if advice = madvDontneed ∧ p = addr2pgnum P.pageSize P.reservedHeap.data then 0
            else l.pte p }) := by
  have hover : P.overlapWithReservedHeap ⟨P.reservedHeap.data, P.pageSize⟩ = true :=
    (memAreaOverlap_iff P.format.pageSize_pos P.heap_nonempty).mpr
      ⟨P.reservedHeap.data, ⟨Nat.le_refl _, Nat.lt_add_of_pos_right P.format.pageSize_pos⟩,
        ⟨Nat.le_refl _, Nat.lt_add_of_pos_right P.heap_nonempty⟩⟩
  have hpages : ∀ p ∈ List.range'
      (syscallPages P.pageSize P.reservedHeap.data P.pageSize).begin
      (syscallPages P.pageSize P.reservedHeap.data P.pageSize).count,
      (l.space.prot p).isSome = true := by
    intro p hp
    rw [List.mem_range'_1] at hp
    rw [firstArea_pages.mp hp]
    exact hmapped
  have hok : (l.space.madvise P.pageSize P.reservedHeap.data P.pageSize advice).1 = true := by
    have haligned : P.reservedHeap.data % P.pageSize = 0 := P.heap_aligned
    rw [AddressSpace.madvise, if_pos haligned]
    exact List.all_eq_true.mpr hpages
  simp only [Leader.call, Leader.proxyMadvise, hok, if_true, hover, firstArea_pages]

/-- Advice that changes nothing. -/
theorem call_madvNormal {ops : List MemOp} :
    (mappedLeader P ops).call P (.proxyMadvise P.reservedHeap.data P.pageSize madvNormal) =
      some (mappedLeader P
        (ops ++ [.madvise ⟨P.reservedHeap.data, P.pageSize, madvNormal⟩])) := by
  have haligned : P.reservedHeap.data % P.pageSize = 0 := P.heap_aligned
  have hdiffer : madvNormal ≠ madvDontneed := by decide
  rw [call_madvise (by simp [mappedLeader])]
  simp only [AddressSpace.madvise, if_pos haligned, hdiffer, false_and, if_false]
  rfl

/-- The run continues with calls of `madvise` that change nothing. -/
theorem reachable_madvised (hsize : P.pageSize ≤ P.reservedHeap.size) (n : Nat) :
    LTS.Reachable (sys P W) (mapped P W
      (List.replicate n (.madvise ⟨P.reservedHeap.data, P.pageSize, madvNormal⟩))) := by
  induction n with
  | zero => exact reachable_mapped hsize
  | succ n ih =>
    rw [List.replicate_succ']
    exact ih.step (a := .call (.proxyMadvise P.reservedHeap.data P.pageSize madvNormal))
      (.call (fun _ => ⟨firstArea P, List.mem_singleton_self _, fun _ h => h⟩) call_madvNormal)

/-- Next the page is handed out as a block, and the leader writes its first
byte. -/
def allocated (P : Platform) (W : Nat) (byte : UInt8) : State W :=
  { start P W with
    leader := ((mappedLeader P []).malloc (firstArea P)).write P P.reservedHeap.data byte }

theorem mallocPage_firstArea {p : Nat} : MallocPage P.format [firstArea P] p ↔
    p = addr2pgnum P.pageSize P.reservedHeap.data := by
  have hpos : 0 < P.pageSize := P.format.pageSize_pos
  have haligned : P.reservedHeap.data % P.pageSize = 0 := P.heap_aligned
  have hback : (P.reservedHeap.data + P.pageSize - 1) / P.pageSize =
      P.reservedHeap.data / P.pageSize := by
    obtain ⟨h, hh⟩ := Nat.dvd_of_mod_eq_zero haligned
    rw [hh, Nat.add_sub_assoc hpos, Nat.mul_add_div hpos, Nat.div_eq_of_lt (by omega),
      Nat.mul_div_cancel_left _ hpos, Nat.add_zero]
  show (∃ block ∈ [firstArea P], (memarea2pgrng P.pageSize block).Mem p) ↔ _
  simp only [List.mem_singleton, exists_eq_left, memarea2pgrng, firstArea, MemArea.back,
    addr2pgnum, PteRange.Mem, hback]
  omega

theorem mallocOk_firstArea {l : Leader} (hareas : l.mmapAreas = [firstArea P])
    (hmapped : (l.space.prot (addr2pgnum P.pageSize P.reservedHeap.data)).isSome)
    (hblocks : l.blocks = []) : l.MallocOk P (firstArea P) where
  pages p hp := by
    have hfirst := mallocPage_firstArea.mp ⟨firstArea P, List.mem_singleton_self _, hp⟩
    rw [hareas, hfirst]
    exact ⟨hmapped, firstArea P, List.mem_singleton_self _, firstArea_pages.mpr rfl⟩
  disjoint := by
    rw [hblocks]
    nofun

theorem traces_allocated {ok : State W → Label W → Prop} {byte : UInt8}
    (hsize : P.pageSize ≤ P.reservedHeap.size)
    (hmap : ok (start P W) (.call (.proxyMmap [.placed] P.pageSize 3 34 0)))
    (hmalloc : ok (mapped P W []) (.malloc (firstArea P)))
    (hwrite : ∀ s, ok s (.write P.reservedHeap.data byte)) :
    LTS.Traces ((sys P W).restrict ok) [.call (.proxyMmap [.placed] P.pageSize 3 34 0),
      .malloc (firstArea P), .write P.reservedHeap.data byte] (allocated P W byte) := by
  have hstart : LTS.Traces ((sys P W).restrict ok) [] (start P W) := .init start_init
  have hmapped : LTS.Traces ((sys P W).restrict ok) _ (mapped P W []) :=
    hstart.step ⟨hmap, .call (fun _ _ _ _ => rfl) (call_firstOp hsize)⟩
  exact (hmapped.step ⟨hmalloc,
    .malloc (mallocOk_firstArea rfl (by simp [mapped, mappedLeader]) rfl)⟩).step ⟨hwrite _, .write⟩

theorem reachable_allocated {ok : State W → Label W → Prop} {byte : UInt8}
    (hsize : P.pageSize ≤ P.reservedHeap.size)
    (hmap : ok (start P W) (.call (.proxyMmap [.placed] P.pageSize 3 34 0)))
    (hmalloc : ok (mapped P W []) (.malloc (firstArea P)))
    (hwrite : ∀ s, ok s (.write P.reservedHeap.data byte)) :
    LTS.Reachable ((sys P W).restrict ok) (allocated P W byte) :=
  (traces_allocated hsize hmap hmalloc hwrite).reachable

/-- The processes in a first section without areas, with the workers' address
spaces as the entry left them. -/
def inFirstSection (P : Platform) (byte : UInt8) (spaces : Fin W → AddressSpace) : State W where
  leader := (allocated P W byte).leader.enterParallelImpl
  workers := fun w => ((allocated P W byte).workers w).entered P (allocated P W byte).leader []
    (spaces w)
  reduces := some []

/-- The section is entered, and the page arrives. -/
theorem enter_allocated (byte : UInt8) (hsize : P.pageSize ≤ P.reservedHeap.size)
    (hvars : P.fortranGlobalVariables = []) :
    ∃ spaces, Step P (allocated P W byte) (.enter []) (inFirstSection P byte spaces) ∧
      ∀ w x, addr2pgnum P.pageSize x = addr2pgnum P.pageSize P.reservedHeap.data →
        (spaces w).mem x = if x = P.reservedHeap.data then byte else 0 := by
  have hreach : LTS.Reachable ((sys P W).restrict fun _ _ => True) (allocated P W byte) :=
    reachable_allocated hsize trivial trivial fun _ => trivial
  obtain ⟨spaces, hspaces, henter⟩ := enter_total hreach.of_restrict
    (show sizeofMemOps * 1 < intMax by decide) rfl (rfl : verifyReducesNoOverlap [] = .ok ())
    (List.forall_mem_nil _) (List.forall_mem_nil _)
  refine ⟨spaces, henter, fun w x hx => ?_⟩
  have hvar : ¬ Worker.FortranByte P x := by
    rintro ⟨area, harea, -⟩
    rw [hvars] at harea
    cases harea
  obtain ⟨u, hu, hmem⟩ := Worker.doEnterParallel_out (hspaces w) (List.forall_mem_nil _) hvar
  have hsends : (allocated P W byte).leader.Sends P [] (addr2pgnum P.pageSize x) := by
    rw [hx]
    exact ⟨mallocPage_firstArea.mpr rfl,
      (congrArg Pte.isDirty (if_pos rfl)).trans (Pte.isDirty_written _),
      (congrArg Pte.isTouched (if_pos rfl)).trans (Pte.isTouched_written _), nofun⟩
  rw [hmem, Worker.enterParallelImpl_sent (leaderInv hreach.of_restrict).inSpace hu hsends]
  rfl

/-- Pages of 4 KiB, and a heap of 1 GiB at `2^44`. -/
def smallPlatform (ndebug : Bool) (vars : List MemArea) : Platform where
  format := ⟨12, by decide, 4, by decide, by decide⟩
  reservedHeap := ⟨2 ^ 44, 2 ^ 30⟩
  heap_aligned := by decide
  heap_nonempty := by decide
  heap_end := by decide
  fakeStack := ⟨2 ^ 40, 2 ^ 23⟩
  fortranGlobalVariables := vars
  ndebug := ndebug
  floatSum := fun _ x _ => x

theorem addressSpaces_agree_mapped :
    ∃ v, AgreesAt (smallPlatform true []) (mapped (smallPlatform true []) 1 []) 0 v :=
  (addressSpaces_agree (reachable_mapped (by decide)) 0).mpr (by decide)

/-- 44739242 calls of `madvise` after one `proxy_mmap`: the log has `2^31 + 16`
bytes, the count of its broadcast is negative, and nothing of it is replayed. -/
theorem longLog_not_replayed :
    ¬ ∀ s : State 1, LTS.Reachable (sys (smallPlatform true []) 1) s →
      ∃ v, AgreesAt (smallPlatform true []) s 0 v := by
  intro hall
  obtain ⟨v, hv⟩ := hall _ (reachable_madvised (by decide) 44739242)
  have hcount : ∀ ops : List MemOp, ops.length = 44739243 → recvMemOps ops = none := by
    intro ops hops
    rw [recvMemOps, hops]
    exact if_pos (by decide)
  have hreceived := hv.received
  rw [hcount _ (by
    show (firstOp _ :: List.replicate _ _).length = _
    rw [List.length_cons, List.length_replicate])] at hreceived
  cases hreceived

end SimpleParallel.Sync
