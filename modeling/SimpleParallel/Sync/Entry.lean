import SimpleParallel.Sync.Leader

/-!
# Entering a section on a worker

`enter_parallel_impl` of `worker.cc` and the part of `do_enter_parallel` that a
worker runs after it: the log is replayed, then stack and heap arrive, then the
reduce areas are initialised, then the Fortran variables arrive. `l` is the
leader at the moment of the entry.

* `enterParallelImpl_sent`, `enterParallelImpl_kept`: the bytes after
  `recv_heap`.
* `doEnterParallel_bcast`, `doEnterParallel_area`, `doEnterParallel_out`: the
  bytes when `do_enter_parallel` returns.
-/

namespace SimpleParallel.Sync

open Reduce

/-- The page is sent at an entry with these reduce areas. -/
def Leader.Sends (P : Platform) (reduces : List ReduceArea) (l : Leader) (p : Nat) : Prop :=
  Retransmitted P.format l.pte l.blocks (reduces.map (·.innerPages P.pageSize)) p

/-- The pages of the leader's blocks end below the top of the address space. -/
def Leader.BlocksInSpace (P : Platform) (l : Leader) : Prop :=
  ∀ p, MallocPage P.format l.blocks p → (p + 1) * P.format.pageSize < 2 ^ 64

namespace Worker

variable (P : Platform)

/-- `recv_stack`, for the leader's memory `src`. -/
def recvStack (src : Mem) (m : Mem) : Mem :=
  mpiBcast src P.fakeStack.data (narrowCastInt P.fakeStack.size) m

/-- `enter_parallel_impl` of the worker; `none` when an operation fails. -/
def enterParallelImpl (l : Leader) (reduces : List ReduceArea) (v : AddressSpace) :
    Option AddressSpace :=
  (recvAndPerformMemOps P.pageSize P.ndebug l.memoryOperations v).map fun v =>
    recvHeap P.format l.space.mem
      (getZeroAndDirtyPages P.format l.space.mem l.pte l.blocks
        (reduces.map (·.innerPages P.pageSize)))
      { v with mem := recvStack P l.space.mem v.mem }

/-- `sync_fortran_global_variables`. -/
def syncFortranGlobalVariables (src : Mem) (m : Mem) : Mem :=
  P.fortranGlobalVariables.foldl
    (fun m area => mpiBcast src area.data (narrowCastInt area.size) m) m

/-- `do_enter_parallel` on a worker. -/
def doEnterParallel (l : Leader) (reduces : List ReduceArea) (v : AddressSpace) :
    Option AddressSpace :=
  (enterParallelImpl P l reduces v).bind fun v =>
    match ReduceArea.initAll reduces v.mem with
    | .ok m => some { v with mem := syncFortranGlobalVariables P l.space.mem m }
    | .error _ => none

/-- The byte arrives with some Fortran variable. -/
def FortranByte (x : Nat) : Prop :=
  ∃ area ∈ P.fortranGlobalVariables,
    area.data ≤ x ∧ x < area.data + (narrowCastInt area.size).toNat

instance (x : Nat) : Decidable (FortranByte P x) := inferInstanceAs (Decidable (∃ _ ∈ _, _))

/-- A worker's memory as the log will leave it. -/
def pendingMem (ops : List MemOp) (m : Mem) : Mem := fun x =>
  if ops.any (fun op => op.wipes P.pageSize P.ndebug (addr2pgnum P.pageSize x)) then 0 else m x

section

variable {P} {l : Leader} {reduces : List ReduceArea} {v v' : AddressSpace} {m src : Mem}
  {ops : List MemOp} {x : Nat}

theorem pendingMem_append {op : MemOp} :
    pendingMem P (ops ++ [op]) m x =
      if op.wipes P.pageSize P.ndebug (addr2pgnum P.pageSize x) then 0
      else pendingMem P ops m x := by
  unfold pendingMem
  rw [List.any_append]
  by_cases h1 : ops.any (fun op => op.wipes P.pageSize P.ndebug (addr2pgnum P.pageSize x)) = true <;>
    by_cases h2 : op.wipes P.pageSize P.ndebug (addr2pgnum P.pageSize x) = true <;> simp [h1, h2]

@[simp] theorem pendingMem_nil : pendingMem P [] m = m := rfl

theorem recv_mem
    (h : recvAndPerformMemOps P.pageSize P.ndebug ops v = some v') :
    v'.mem = pendingMem P ops v.mem :=
  funext fun x => performAll_mem (performAll_of_recv h).2 x

theorem recvStack_congr {m' : Mem} (h : m x = m' x) :
    recvStack P src m x = recvStack P src m' x := by
  simp only [recvStack, mpiBcast, Mem.copyRange, h]

/-- The stack brings the leader's bytes, so it changes no byte that is equal. -/
theorem recvStack_same (h : src x = m x) : recvStack P src m x = m x := Mem.copyRange_eq h

theorem enterParallelImpl_prot (h : enterParallelImpl P l reduces v = some v') :
    ∃ u, recvAndPerformMemOps P.pageSize P.ndebug l.memoryOperations v = some u ∧
      v'.prot = u.prot := by
  obtain ⟨u, hu, rfl⟩ := Option.map_eq_some_iff.mp h
  exact ⟨u, hu, recvHeap_prot⟩

/-- A page that is sent arrives. -/
theorem enterParallelImpl_sent (hb : l.BlocksInSpace P)
    (h : enterParallelImpl P l reduces v = some v')
    (hx : l.Sends P reduces (addr2pgnum P.pageSize x)) : v'.mem x = l.space.mem x := by
  obtain ⟨u, -, rfl⟩ := Option.map_eq_some_iff.mp h
  exact recvHeap_sent hb hx

/-- A page that is not sent is as the log and the stack left it. -/
theorem enterParallelImpl_kept (hb : l.BlocksInSpace P)
    (h : enterParallelImpl P l reduces v = some v')
    (hx : ¬ l.Sends P reduces (addr2pgnum P.pageSize x)) :
    v'.mem x = recvStack P l.space.mem (pendingMem P l.memoryOperations v.mem) x := by
  obtain ⟨u, hu, rfl⟩ := Option.map_eq_some_iff.mp h
  rw [← recv_mem hu]
  exact recvHeap_kept hb hx

theorem syncFortranGlobalVariables_apply :
    syncFortranGlobalVariables P src m x = if FortranByte P x then src x else m x := by
  have hfold : ∀ (areas : List MemArea) (m : Mem),
      areas.foldl (fun m area => mpiBcast src area.data (narrowCastInt area.size) m) m x =
        if ∃ area ∈ areas, area.data ≤ x ∧ x < area.data + (narrowCastInt area.size).toNat
        then src x else m x := by
    intro areas
    induction areas with
    | nil => simp
    | cons area areas ih =>
      intro m
      rw [List.foldl_cons, ih]
      by_cases hrest : ∃ a ∈ areas, a.data ≤ x ∧ x < a.data + (narrowCastInt a.size).toNat
      · simp [hrest]
      · by_cases hx : area.data ≤ x ∧ x < area.data + (narrowCastInt area.size).toNat
        · simp [hrest, hx, mpiBcast, Mem.copyRange]
        · rw [if_neg hrest, if_neg (by simpa [hx] using hrest)]
          exact Mem.copyRange_out hx
  exact hfold P.fortranGlobalVariables m

/-- The steps of `do_enter_parallel` on a worker. -/
theorem doEnterParallel_eq_some : doEnterParallel P l reduces v = some v' ↔
    ∃ u m, enterParallelImpl P l reduces v = some u ∧ ReduceArea.initAll reduces u.mem = .ok m ∧
      v' = { u with mem := syncFortranGlobalVariables P l.space.mem m } := by
  unfold doEnterParallel
  rw [Option.bind_eq_some_iff]
  refine exists_congr fun u => ?_
  cases hinit : ReduceArea.initAll reduces u.mem with
  | ok m => simp [eq_comm]
  | error e => simp

/-- The Fortran variables have the leader's bytes. -/
theorem doEnterParallel_bcast (h : doEnterParallel P l reduces v = some v')
    (hx : FortranByte P x) : v'.mem x = l.space.mem x := by
  obtain ⟨u, m, -, -, rfl⟩ := doEnterParallel_eq_some.mp h
  exact syncFortranGlobalVariables_apply.trans (if_pos hx)

/-- Elsewhere the areas have their identity. -/
theorem doEnterParallel_area {r : ReduceArea} (h : doEnterParallel P l reduces v = some v')
    (hno : ReduceArea.NoOverlap reduces) (hr : r ∈ reduces) (hxr : r.memArea.Mem x)
    (hx : ¬ FortranByte P x) : v'.mem x = r.identityByte := by
  obtain ⟨u, m, -, hinit, rfl⟩ := doEnterParallel_eq_some.mp h
  exact (syncFortranGlobalVariables_apply.trans (if_neg hx)).trans
    (ReduceArea.initAll_in hinit hno hr hxr)

/-- Other bytes are as `recv_heap` left them. -/
theorem doEnterParallel_out (h : doEnterParallel P l reduces v = some v')
    (hxr : ∀ r ∈ reduces, ¬ r.memArea.Mem x) (hx : ¬ FortranByte P x) :
    ∃ u, enterParallelImpl P l reduces v = some u ∧ v'.mem x = u.mem x := by
  obtain ⟨u, m, hu, hinit, rfl⟩ := doEnterParallel_eq_some.mp h
  exact ⟨u, hu, (syncFortranGlobalVariables_apply.trans (if_neg hx)).trans
    (ReduceArea.initAll_out hinit hxr)⟩

end

end Worker

end SimpleParallel.Sync
