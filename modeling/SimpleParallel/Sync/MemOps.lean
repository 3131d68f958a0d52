import Mathlib.Data.List.Basic
import SimpleParallel.Sync.Pagemap

/-!
# Address spaces and the operation log

The mappings and the contents of a process, the system calls that change them,
and the logged operations of `include/leader.h` that a worker replays
(`recv_and_perform_mem_ops` in `worker.cc`).

An anonymous page reads zero when it is first mapped and after
`MADV_DONTNEED`. A call applies to whole pages: the kernel rounds its length up.

* `perform_prot`, `perform_mem`: what one replayed operation does to a page and
  to a byte.
* `performAll_mem`: a byte after the whole log is zero if some operation wiped
  its page, else what it was.
-/

namespace SimpleParallel.Sync

/-- The anonymous mappings of a process: the protection of each mapped page,
and the byte at each address. -/
structure AddressSpace where
  prot : Nat → Option Nat
  mem : Mem

def protNone : Nat := 0
def madvNormal : Nat := 0
def madvDontneed : Nat := 4

/-- The pages a call with this address and length applies to. -/
def syscallPages (pageSize addr len : Nat) : PteRange :=
  ⟨addr / pageSize, (len + (pageSize - 1)) / pageSize⟩

/-! ## System calls -/

namespace AddressSpace

variable (pageSize : Nat)

/-- The pages of `r` read zero. -/
def dropPages (r : PteRange) (v : AddressSpace) : AddressSpace :=
  { v with mem := fun x => if r.Mem (addr2pgnum pageSize x) then 0 else v.mem x }

/-- `mmap` with `MAP_FIXED | MAP_ANONYMOUS`, which replaces what was mapped;
`none` is `MAP_FAILED`. -/
def mmapFixed (addr len prot : Nat) (v : AddressSpace) : Option AddressSpace :=
  if addr % pageSize = 0 ∧ 0 < len then
    let r := syscallPages pageSize addr len
    some { v.dropPages pageSize r with prot := fun p => if r.Mem p then some prot else v.prot p }
  else none

/-- `munmap`. -/
def munmap (addr len : Nat) (v : AddressSpace) : Option AddressSpace :=
  if addr % pageSize = 0 ∧ 0 < len then
    let r := syscallPages pageSize addr len
    some { v.dropPages pageSize r with prot := fun p => if r.Mem p then none else v.prot p }
  else none

/-- `madvise`, with the success of the call. A range with unmapped pages fails
after the mapped pages were treated. -/
def madvise (addr len advice : Nat) (v : AddressSpace) : Bool × AddressSpace :=
  if addr % pageSize = 0 then
    let r := syscallPages pageSize addr len
    ((List.range' r.begin r.count).all fun p => (v.prot p).isSome,
      if advice = madvDontneed then v.dropPages pageSize r else v)
  else (false, v)

end AddressSpace

/-! ## The logged operations -/

structure MmapParams where
  addr : Nat
  len : Nat
  prot : Nat
  flags : Nat
  fd : Int
  offset : Int
  deriving DecidableEq

structure MunmapParams where
  addr : Nat
  len : Nat
  deriving DecidableEq

structure MadviseParams where
  addr : Nat
  len : Nat
  advice : Nat
  deriving DecidableEq

/-- `mem_ops_t`. -/
inductive MemOp
  | mmap (params : MmapParams)
  | munmap (params : MunmapParams)
  | madvise (params : MadviseParams)
  deriving DecidableEq

/-- The value of a `mem_ops_t` that nothing was received into. -/
def MemOp.default : MemOp := .mmap ⟨0, 0, 0, 0, 0, 0⟩

section Replay

variable (pageSize : Nat)

/-- `mmap_params::operator()`; `none` is the exception. -/
def MmapParams.run (params : MmapParams) (v : AddressSpace) : Option AddressSpace :=
  v.mmapFixed pageSize params.addr params.len params.prot

/-- `munmap_params::operator()`: occupies the unmapped area. -/
def MunmapParams.run (params : MunmapParams) (v : AddressSpace) : Option AddressSpace :=
  v.mmapFixed pageSize params.addr params.len protNone

/-- `madvise_params::operator()`. The debug build replays `MADV_NORMAL` and
terminates when it fails; the release build replays the advice and looks at no
result. -/
def MadviseParams.run (ndebug : Bool) (params : MadviseParams) (v : AddressSpace) :
    Option AddressSpace :=
  if ndebug then some (v.madvise pageSize params.addr params.len params.advice).2
  else
    let res := v.madvise pageSize params.addr params.len madvNormal
    if res.1 then some res.2 else none

/-- `std::visit` on one operation. -/
def MemOp.perform (ndebug : Bool) (op : MemOp) (v : AddressSpace) : Option AddressSpace :=
  match op with
  | .mmap params => params.run pageSize v
  | .munmap params => params.run pageSize v
  | .madvise params => params.run pageSize ndebug v

/-- The loop of `recv_and_perform_mem_ops`. -/
def performAll (ndebug : Bool) (ops : List MemOp) (v : AddressSpace) : Option AddressSpace :=
  ops.foldlM (fun v op => op.perform pageSize ndebug v) v

/-- The pages an operation applies to. -/
def MemOp.pages : MemOp → PteRange
  | .mmap params => syscallPages pageSize params.addr params.len
  | .munmap params => syscallPages pageSize params.addr params.len
  | .madvise params => syscallPages pageSize params.addr params.len

/-- The protection that an operation gives the page `p` on a worker. -/
def MemOp.remap (op : MemOp) (p : Nat) : Option Nat :=
  match op with
  | .mmap params => if (op.pages pageSize).Mem p then some params.prot else none
  | .munmap _ => if (op.pages pageSize).Mem p then some protNone else none
  | .madvise _ => none

/-- The operation makes the page `p` read zero on a worker. -/
def MemOp.wipes (ndebug : Bool) (op : MemOp) (p : Nat) : Bool :=
  match op with
  | .mmap _ => decide ((op.pages pageSize).Mem p)
  | .munmap _ => decide ((op.pages pageSize).Mem p)
  | .madvise params =>
    ndebug && decide (params.advice = madvDontneed) && decide (params.addr % pageSize = 0) &&
      decide ((op.pages pageSize).Mem p)

variable {pageSize} {ndebug : Bool} {op : MemOp} {ops : List MemOp} {v v' : AddressSpace}

theorem wipes_mmap {params : MmapParams} {p : Nat} :
    (MemOp.mmap params).wipes pageSize ndebug p = true ↔
      (syscallPages pageSize params.addr params.len).Mem p := by
  simp only [MemOp.wipes, decide_eq_true_eq]
  rfl

theorem wipes_munmap {params : MunmapParams} {p : Nat} :
    (MemOp.munmap params).wipes pageSize ndebug p = true ↔
      (syscallPages pageSize params.addr params.len).Mem p := by
  simp only [MemOp.wipes, decide_eq_true_eq]
  rfl

/-- Only the release build drops pages again. -/
theorem wipes_madvise {params : MadviseParams} {p : Nat} :
    (MemOp.madvise params).wipes pageSize ndebug p = true ↔
      ndebug = true ∧ params.advice = madvDontneed ∧ params.addr % pageSize = 0 ∧
        (syscallPages pageSize params.addr params.len).Mem p := by
  simp only [MemOp.wipes, Bool.and_eq_true, decide_eq_true_eq, and_assoc]
  rfl

theorem mmapFixed_eq {addr len prot : Nat} (h : v.mmapFixed pageSize addr len prot = some v') :
    (addr % pageSize = 0 ∧ 0 < len) ∧
    (∀ p, v'.prot p = if (syscallPages pageSize addr len).Mem p then some prot else v.prot p) ∧
    ∀ x, v'.mem x =
      if (syscallPages pageSize addr len).Mem (addr2pgnum pageSize x) then 0 else v.mem x := by
  unfold AddressSpace.mmapFixed at h
  split at h
  · next hok =>
    cases h
    exact ⟨hok, fun _ => rfl, fun _ => rfl⟩
  · cases h

theorem madvise_prot {addr len advice p : Nat} :
    (v.madvise pageSize addr len advice).2.prot p = v.prot p := by
  unfold AddressSpace.madvise
  split
  · dsimp only
    split <;> rfl
  · rfl

theorem madvise_mem {addr len advice x : Nat} :
    (v.madvise pageSize addr len advice).2.mem x =
      if advice = madvDontneed ∧ addr % pageSize = 0 ∧
        (syscallPages pageSize addr len).Mem (addr2pgnum pageSize x) then 0 else v.mem x := by
  unfold AddressSpace.madvise
  by_cases haddr : addr % pageSize = 0
  · by_cases hadv : advice = madvDontneed <;> simp [haddr, hadv, AddressSpace.dropPages]
  · simp [haddr]

/-- What a replayed operation does to a page. -/
theorem perform_prot (h : op.perform pageSize ndebug v = some v') (p : Nat) :
    v'.prot p = (op.remap pageSize p).or (v.prot p) := by
  cases op with
  | mmap params | munmap params =>
    rw [(mmapFixed_eq h).2.1 p]
    by_cases hp : (syscallPages pageSize params.addr params.len).Mem p <;>
      simp [MemOp.remap, MemOp.pages, hp]
  | madvise params =>
    simp only [MemOp.perform, MadviseParams.run] at h
    split at h
    · cases h
      exact madvise_prot
    · split at h
      · cases h
        exact madvise_prot
      · cases h

/-- What a replayed operation does to a byte. -/
theorem perform_mem (h : op.perform pageSize ndebug v = some v') (x : Nat) :
    v'.mem x = if op.wipes pageSize ndebug (addr2pgnum pageSize x) then 0 else v.mem x := by
  cases op with
  | mmap params | munmap params =>
    rw [(mmapFixed_eq h).2.2 x]
    simp only [wipes_mmap, wipes_munmap]
  | madvise params =>
    simp only [MemOp.perform, MadviseParams.run] at h
    split at h
    · next hnd =>
      cases h
      rw [madvise_mem]
      simp only [wipes_madvise, hnd, true_and]
    · next hnd =>
      split at h
      · cases h
        rw [madvise_mem]
        simp [MemOp.wipes, hnd, madvNormal, madvDontneed]
      · cases h

theorem performAll_append (ops' : List MemOp) :
    performAll pageSize ndebug (ops ++ ops') v =
      (performAll pageSize ndebug ops v).bind (performAll pageSize ndebug ops') := by
  unfold performAll
  rw [List.foldlM_append]
  rfl

/-- The protection of a page after the log: the last operation on it counts. -/
theorem performAll_prot (h : performAll pageSize ndebug ops v = some v') (p : Nat) :
    v'.prot p = ops.foldl (fun prot op => (op.remap pageSize p).or prot) (v.prot p) := by
  induction ops generalizing v with
  | nil =>
    cases h
    rfl
  | cons op ops ih =>
    obtain ⟨u, hu, hrest⟩ := Option.bind_eq_some_iff.mp h
    rw [ih hrest, perform_prot hu p]
    rfl

/-- A byte after the log. -/
theorem performAll_mem (h : performAll pageSize ndebug ops v = some v') (x : Nat) :
    v'.mem x =
      if ops.any (fun op => op.wipes pageSize ndebug (addr2pgnum pageSize x)) then 0
      else v.mem x := by
  induction ops generalizing v with
  | nil =>
    cases h
    rfl
  | cons op ops ih =>
    obtain ⟨u, hu, hrest⟩ := Option.bind_eq_some_iff.mp h
    rw [ih hrest, perform_mem hu x, List.any_cons]
    by_cases hw : op.wipes pageSize ndebug (addr2pgnum pageSize x) = true <;> simp [hw]

end Replay

end SimpleParallel.Sync
