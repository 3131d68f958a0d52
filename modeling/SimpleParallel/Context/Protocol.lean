import SimpleParallel.Lib.ByteList
import SimpleParallel.Lib.Lockstep
import SimpleParallel.Sync.Entry
import SimpleParallel.Context.ParCtx

/-!
# The calls of leader and worker

Leader and worker as the two programs that they are, down to the calls of MPI on
`s_p_comm`: `send_*` and `enter_parallel_impl` of `leader.cc`, `recv_*`,
`enter_parallel_impl` and `worker` of `worker.cc`, the functions of `bigmpi.cc`
and `sync_fortran_global_vars.cc` that both sides call, and the parts of
`do_enter_parallel` and `do_exit_parallel` that each of them runs. A worker only
knows what it receives: it decodes tags, counts, operations, areas and the
pointer of the context from the bytes of the root.

Requests, as those of `MPI_Ibcast`, are awaited without a call, so they are shown
as complete.

* `tagOfCode_sent`, `decode_area`, `decode_pteRange`, `decode_memOp`: what is sent
  can be read back.
* `useCtx_eq`: the leader makes the calls of `ParCtx`.
-/

namespace SimpleParallel.Context.Protocol

open Lockstep Loops Reduce Sync

/-! ## Calls -/

inductive Kind
  | bcast
  | ibcast
  | allgather
  | reduce (type : MpiDatatype) (op : MpiOp)
  /-- A collective of the user's code. -/
  | user (name : String)
  deriving DecidableEq

/-- A collective call on `s_p_comm`; a call without a root gathers everywhere. -/
structure Call where
  kind : Kind
  root : Option Nat
  bytes : Int
  deriving DecidableEq

abbrev Mpi := Prog Call ByteList

/-- `m_root_rank`. -/
def rootRank : Nat := 0

/-- `MPI_Bcast` of `count` bytes of a buffer, with what it holds afterwards. -/
def mpiBcast (buffer : ByteList) (start count : Nat) : Mpi ByteList := do
  let count := narrowCastInt count
  let part ← Prog.exchange ⟨.bcast, some rootRank, count⟩ ((buffer.drop start).take count.toNat)
  return ByteList.overwrite buffer start part

/-- `bmpi::broadcast` of a `size_t`. -/
def broadcastSize (n : Nat) : Mpi Nat := do
  let bytes ← mpiBcast (ByteList.ofNat 8 n) 0 8
  return ByteList.toNat bytes

/-- `bigmpi::Bcast` of bytes. -/
def bigmpiBcast (buffer : ByteList) : Mpi ByteList :=
  (chunks intMax buffer.length).foldlM (fun buffer c => mpiBcast buffer c.1 c.2) buffer

/-- `MPI_Bcast` or `MPI_Ibcast` of memory, with the memory afterwards. -/
def bcastMem (kind : Kind) (m : Mem) (addr count : Nat) : Mpi Mem := do
  let count := narrowCastInt count
  let bytes ← Prog.exchange ⟨kind, some rootRank, count⟩ (ByteList.ofMem m addr count.toNat)
  return ByteList.toMem bytes addr m

/-- `bigmpi::sync_areas`. -/
def syncAreas (m : Mem) (areas : List MemArea) : Mpi Mem :=
  areas.foldlM (fun m area =>
    (chunks intMax area.size).foldlM (fun m c => bcastMem .ibcast m (area.data + c.1) c.2) m) m

/-- `reduce_area::reduce`, that is, `bigmpi::Reduce`. What it computes is described
in `Reduce`. -/
def reduce (r : ReduceArea) : Mpi Unit :=
  (chunks intMax r.count).forM fun c => do
    let _ ← Prog.exchange
      ⟨.reduce r.type r.op, some rootRank, narrowCastInt c.2 * r.type.size⟩ []

/-! ## What is sent -/

/-- The values of `rpc_tag`. -/
def tagCode : RpcTag → Nat
  | .exit => 0
  | .runFunctionWithoutContext => 1
  | .enterParallel => 2

def tagOfCode : Nat → Option RpcTag
  | 0 => some .exit
  | 1 => some .runFunctionWithoutContext
  | 2 => some .enterParallel
  | _ => none

theorem tagOfCode_sent (tag : RpcTag) :
    tagOfCode (ByteList.toNat (ByteList.ofNat 1 (tagCode tag))) = some tag := by
  rw [ByteList.toNat_ofNat (by cases tag <;> decide)]
  cases tag <;> rfl

open ByteList (ofFields fields Layout)

/-- A `std::span` or `std::string_view`: pointer and size. -/
def areaLayout : Layout MemArea where
  width := 16
  encode area := ofFields [(8, area.data), (8, area.size)]
  decode l :=
    match fields [8, 8] l with
    | [data, size] => ⟨data, size⟩
    | _ => ⟨0, 0⟩
  length_encode _ := rfl

def pteRangeLayout : Layout PteRange where
  width := 16
  encode range := ofFields [(8, range.begin), (8, range.count)]
  decode l :=
    match fields [8, 8] l with
    | [begin, count] => ⟨begin, count⟩
    | _ => ⟨0, 0⟩
  length_encode _ := rfl

/-- The fields of a `mem_ops_t`: those of the alternative, its index, and what
lies between. -/
def memOpFields : MemOp → List (Nat × Nat)
  | .mmap p => [(8, p.addr), (8, p.len), (4, p.prot), (4, p.flags),
      (4, (BitVec.ofInt 32 p.fd).toNat), (4, 0), (8, (BitVec.ofInt 64 p.offset).toNat), (1, 0),
      (7, 0)]
  | .munmap p => [(8, p.addr), (8, p.len), (24, 0), (1, 1), (7, 0)]
  | .madvise p => [(8, p.addr), (8, p.len), (4, p.advice), (20, 0), (1, 2), (7, 0)]

def memOpOfBytes (l : ByteList) : MemOp :=
  match (l.getD 40 0).toNat with
  | 0 =>
    match fields [8, 8, 4, 4, 4, 4, 8, 1, 7] l with
    | [addr, len, prot, flags, fd, _, offset, _, _] =>
      .mmap ⟨addr, len, prot, flags, (BitVec.ofNat 32 fd).toInt, (BitVec.ofNat 64 offset).toInt⟩
    | _ => .default
  | 1 =>
    match fields [8, 8, 24, 1, 7] l with
    | [addr, len, _, _, _] => .munmap ⟨addr, len⟩
    | _ => .default
  | _ =>
    match fields [8, 8, 4, 20, 1, 7] l with
    | [addr, len, advice, _, _, _] => .madvise ⟨addr, len, advice⟩
    | _ => .default

theorem length_memOpFields (op : MemOp) : (ofFields (memOpFields op)).length = sizeofMemOps := by
  cases op <;> rfl

def memOpLayout : Layout MemOp where
  width := sizeofMemOps
  encode op := ofFields (memOpFields op)
  decode := memOpOfBytes
  length_encode := length_memOpFields

/-- The arguments have values of their types. -/
def Fits : MemOp → Prop
  | .mmap p => p.addr < 2 ^ 64 ∧ p.len < 2 ^ 64 ∧ p.prot < 2 ^ 32 ∧ p.flags < 2 ^ 32 ∧
      (-2 ^ 31 ≤ p.fd ∧ p.fd < 2 ^ 31) ∧ -2 ^ 63 ≤ p.offset ∧ p.offset < 2 ^ 63
  | .munmap p => p.addr < 2 ^ 64 ∧ p.len < 2 ^ 64
  | .madvise p => p.addr < 2 ^ 64 ∧ p.len < 2 ^ 64 ∧ p.advice < 2 ^ 32

theorem decode_area {area : MemArea} (hdata : area.data < 2 ^ 64) (hsize : area.size < 2 ^ 64) :
    areaLayout.decode (areaLayout.encode area) = area := by
  have hfields : fields [8, 8] (ofFields [(8, area.data), (8, area.size)]) = _ :=
    ByteList.fields_ofFields (l := [(8, area.data), (8, area.size)]) (by simp; omega)
  simp only [areaLayout, hfields, List.map_cons, List.map_nil]

theorem decode_pteRange {range : PteRange} (hbegin : range.begin < 2 ^ 64)
    (hcount : range.count < 2 ^ 64) :
    pteRangeLayout.decode (pteRangeLayout.encode range) = range := by
  have hfields : fields [8, 8] (ofFields [(8, range.begin), (8, range.count)]) = _ :=
    ByteList.fields_ofFields (l := [(8, range.begin), (8, range.count)]) (by simp; omega)
  simp only [pteRangeLayout, hfields, List.map_cons, List.map_nil]

theorem decode_int {w : Nat} {i : Int} (hw : 0 < w) (hlo : -2 ^ (w - 1) ≤ i)
    (hhi : i < 2 ^ (w - 1)) : (BitVec.ofNat w (BitVec.ofInt w i).toNat).toInt = i := by
  rw [BitVec.ofNat_toNat, BitVec.setWidth_eq]
  exact BitVec.toInt_ofInt_eq_self hw hlo hhi

theorem decode_memOp {op : MemOp} (h : Fits op) :
    memOpLayout.decode (memOpLayout.encode op) = op := by
  show memOpOfBytes (ofFields (memOpFields op)) = op
  cases op with
  | mmap p =>
    obtain ⟨haddr, hlen, hprot, hflags, hfd, hoffset⟩ := h
    have hindex : ((ofFields (memOpFields (.mmap p))).getD 40 0).toNat = 0 := rfl
    have hfields : fields [8, 8, 4, 4, 4, 4, 8, 1, 7] (ofFields (memOpFields (.mmap p))) = _ :=
      ByteList.fields_ofFields (l := memOpFields (.mmap p)) (by
        have hfd := (BitVec.ofInt 32 p.fd).isLt
        have hoffset := (BitVec.ofInt 64 p.offset).isLt
        simp [memOpFields]
        omega)
    simp only [memOpOfBytes, hindex, hfields]
    simp only [memOpFields, List.map_cons, List.map_nil,
      decode_int (w := 32) (by omega) hfd.1 hfd.2,
      decode_int (w := 64) (by omega) hoffset.1 hoffset.2]
  | munmap p =>
    have hindex : ((ofFields (memOpFields (.munmap p))).getD 40 0).toNat = 1 := rfl
    have hfields : fields [8, 8, 24, 1, 7] (ofFields (memOpFields (.munmap p))) = _ :=
      ByteList.fields_ofFields (l := memOpFields (.munmap p)) (by
        simp only [Fits] at h
        simp [memOpFields]
        omega)
    simp only [memOpOfBytes, hindex, hfields]
    rfl
  | madvise p =>
    have hindex : ((ofFields (memOpFields (.madvise p))).getD 40 0).toNat = 2 := rfl
    have hfields : fields [8, 8, 4, 20, 1, 7] (ofFields (memOpFields (.madvise p))) = _ :=
      ByteList.fields_ofFields (l := memOpFields (.madvise p)) (by
        simp only [Fits] at h
        simp [memOpFields]
        omega)
    simp only [memOpOfBytes, hindex, hfields]
    rfl

/-! ## Fortran global variables -/

def GlobalVariableInfo.bytes (info : GlobalVariableInfo) : ByteList :=
  areaLayout.encode info.name ++ areaLayout.encode info.area

/-- `BOOST_ASSERT` in the debug build. -/
def assertion (ndebug : Bool) (condition : Prop) [Decidable condition] : Mpi Unit :=
  if ndebug = true ∨ condition then pure () else .fail "assertion failed"

/-- An allgather with the assertion that all contributions are equal. That of
the root stands for those of the others. -/
def gatherEqual (mine : ByteList) : Mpi Unit := do
  let root ← Prog.exchange ⟨.allgather, none, mine.length⟩ mine
  assertion false (root = mine)

/-- `verify_fortran_global_variables_synced`. -/
def verifyFortranGlobalVariablesSynced (vars : List GlobalVariableInfo) : Mpi Unit := do
  gatherEqual (ByteList.ofNat 8 vars.length)
  vars.forM fun info => gatherEqual (GlobalVariableInfo.bytes info)

/-- `sync_fortran_global_variables`. -/
def syncFortranGlobalVariables (ndebug : Bool) (vars : List GlobalVariableInfo) (m : Mem) :
    Mpi Mem := do
  unless ndebug do verifyFortranGlobalVariablesSynced vars
  vars.foldlM (fun m info => do
    assertion ndebug (info.area.size ≤ intMax)
    bcastMem .ibcast m info.area.data info.area.size) m

/-! ## The parties -/

/-- The code between begin and end of a context as a process runs it: the
collectives of the body, and the areas of its exit. -/
structure Code where
  reduces : List ReduceArea
  body : List Call

/-- The bounds of the intervals are of type `pgnum`. -/
def Bounded (pages : IntervalSet) : Prop := ∀ i ∈ pages.intervals, i.upper < 2 ^ 64

/-- A use of a context on the leader: the argument, the address of its
`m_parallel_ctx`, and what there is to send. -/
structure Use extends Code where
  enterParallel : Bool
  parallelCtx : Nat
  parallelCtx_lt : parallelCtx < 2 ^ 64
  mem : Mem
  memoryOperations : List MemOp
  memoryOperations_fit : ∀ op ∈ memoryOperations, Fits op
  sets : PageSets
  dirty_bounded : Bounded sets.dirty
  zero_bounded : Bounded sets.zero

/-- A worker: its Fortran variables, `none` without the binding; and for each of
its sections the address space before it and the code behind the pointer that it
receives. -/
structure WorkerSide where
  fortran : Option (List GlobalVariableInfo)
  space : Nat → AddressSpace
  code : Nat → Nat → Code

section

variable (P : Platform)

/-! ## Both sides -/

/-- A call of the user's code. -/
def userCall (c : Call) : Mpi Unit := do
  let _ ← Prog.exchange c []

/-- From `sync_fortran_global_variables` to the end of the body. -/
def runBody (fortran : Option (List GlobalVariableInfo)) (m : Mem) (code : Code) : Mpi Mem := do
  let m ← match fortran with
    | none => pure m
    | some vars => syncFortranGlobalVariables P.ndebug vars m
  code.body.forM userCall
  return m

/-- `do_exit_parallel` of a context that has entered. -/
def doExitParallel (n : Nat) (code : Code) : Mpi Unit :=
  if 1 < n then code.reduces.forM reduce else pure ()

/-! ## The leader -/

namespace Leader

/-- `send_rpc_tag`. -/
def sendRpcTag (tag : RpcTag) : Mpi Unit := do
  let _ ← mpiBcast (ByteList.ofNat 1 (tagCode tag)) 0 1

/-- `send_mem_ops`. -/
def sendMemOps (memOps : List MemOp) : Mpi Unit := do
  let _ ← broadcastSize memOps.length
  let _ ← mpiBcast (memOpLayout.array memOps) 0 (sizeofMemOps * memOps.length)

/-- `send_stack`. -/
def sendStack (fakeStack : MemArea) (m : Mem) : Mpi Unit := do
  let _ ← bcastMem .bcast m fakeStack.data fakeStack.size

/-- `send_dirty_page`. -/
def sendDirtyPage (f : PageFormat) (m : Mem) (dirtyPages : IntervalSet) : Mpi Unit := do
  let memAreas := dirtyAreas f dirtyPages
  let _ ← broadcastSize memAreas.length
  let _ ← bigmpiBcast (areaLayout.array memAreas)
  let _ ← syncAreas m memAreas

/-- `send_zeroed_page`. -/
def sendZeroedPage (zeroPages : IntervalSet) : Mpi Unit := do
  let zeroedPages := zeroedPages zeroPages
  let _ ← broadcastSize zeroedPages.length
  let _ ← bigmpiBcast (pteRangeLayout.array zeroedPages)

/-- `send_heap`, for the two sets that the scan finds. -/
def sendHeap (u : Use) : Mpi Unit := do
  sendDirtyPage P.format u.mem u.sets.dirty
  sendZeroedPage u.sets.zero

/-- `enter_parallel_impl`. -/
def enterParallelImpl (u : Use) : Mpi Unit := do
  sendRpcTag .enterParallel
  sendMemOps u.memoryOperations
  sendStack P.fakeStack u.mem
  sendHeap P u
  let _ ← mpiBcast (ByteList.ofNat 8 u.parallelCtx) 0 8

/-- `do_enter_parallel` makes a context of one process. -/
def Alone (n : Nat) (u : Use) : Prop := u.enterParallel = false ∨ n = 1

instance (n : Nat) (u : Use) : Decidable (Alone n u) := inferInstanceAs (Decidable (_ ∨ _))

/-- Begin, body and end of one context that does not fail, with the tags that it
sends. -/
def useCtx (n : Nat) (fortran : Option (List GlobalVariableInfo)) (u : Use) :
    Mpi (List RpcTag) :=
  if Alone n u then return []
  else do
    enterParallelImpl P u
    let _ ← runBody P fortran u.mem u.toCode
    doExitParallel n u.toCode
    return [.enterParallel]

/-- All contexts one after the other, then `rpc_tag::exit`. -/
def run (n : Nat) (fortran : Option (List GlobalVariableInfo)) :
    List Use → Mpi (List RpcTag)
  | [] => do
    sendRpcTag .exit
    return [.exit]
  | u :: uses => do
    let tags ← useCtx P n fortran u
    let rest ← run n fortran uses
    return tags ++ rest

end Leader

/-! ## The worker -/

namespace Worker

/-- `recv_and_perform_mem_ops`. -/
def recvAndPerformMemOps (v : AddressSpace) : Mpi AddressSpace := do
  let memOpsSize ← broadcastSize 0
  let byteCount := sizeofMemOps * memOpsSize
  assertion P.ndebug (byteCount < intMax)
  let memOps ← mpiBcast (List.replicate byteCount 0) 0 byteCount
  match performAll P.pageSize P.ndebug (memOpLayout.elements memOpsSize memOps) v with
  | none => .fail "Failed to mmap"  -- or another exception, or `std::terminate`
  | some v => return v

/-- `recv_stack`. -/
def recvStack (v : AddressSpace) : Mpi AddressSpace := do
  let m ← bcastMem .bcast v.mem P.fakeStack.data P.fakeStack.size
  return { v with mem := m }

/-- `recv_dirty_page`. -/
def recvDirtyPage (v : AddressSpace) : Mpi AddressSpace := do
  let memAreasCount ← broadcastSize 0
  let memAreas ← bigmpiBcast (List.replicate (areaLayout.width * memAreasCount) 0)
  let m ← syncAreas v.mem (areaLayout.elements memAreasCount memAreas)
  return { v with mem := m }

/-- `recv_zero_page`. -/
def recvZeroPage (v : AddressSpace) : Mpi AddressSpace := do
  let zeroedPagesSize ← broadcastSize 0
  let zeroedPages ← bigmpiBcast (List.replicate (pteRangeLayout.width * zeroedPagesSize) 0)
  return Sync.recvZeroPage P.format (pteRangeLayout.elements zeroedPagesSize zeroedPages) v

/-- `recv_heap`. -/
def recvHeap (v : AddressSpace) : Mpi AddressSpace := do
  let v ← recvDirtyPage v
  recvZeroPage P v

/-- `enter_parallel_impl` up to the switch: the pointer of the context, and the
address space. -/
def enterParallelImpl (v : AddressSpace) : Mpi (Nat × AddressSpace) := do
  let v ← recvAndPerformMemOps P v
  let v ← recvStack P v
  let v ← recvHeap P v
  let parallelCtx ← mpiBcast (ByteList.ofNat 8 0) 0 8
  return (ByteList.toNat parallelCtx, v)

/-- From the switch to the return to `worker_ctx`. -/
def runCtx (n : Nat) (fortran : Option (List GlobalVariableInfo)) (v : AddressSpace)
    (code : Code) : Mpi Unit :=
  match ReduceArea.initAll code.reduces v.mem with
  | .error what => .fail what
  | .ok m => do
    let _ ← runBody P fortran m code
    doExitParallel n code

/-- The loop of `worker` with the number of its sections so far: the result, and
the tags that it reads. `fuel` bounds its iterations. -/
def worker (W : WorkerSide) (n : Nat) : Nat → Nat → Mpi (Int × List RpcTag)
  | 0, _ => .fail "out of fuel"
  | fuel + 1, sections => do
    let tag ← mpiBcast (ByteList.ofNat 1 0) 0 1
    match tagOfCode (ByteList.toNat tag) with
    | some .exit => return (0, [.exit])
    | some .runFunctionWithoutContext => .fail "Not implemented."
    | some .enterParallel =>
      let (parallelCtx, v) ← enterParallelImpl P (W.space sections)
      runCtx P n W.fortran v (W.code sections parallelCtx)
      let (result, tags) ← worker W n fuel (sections + 1)
      return (result, .enterParallel :: tags)
    | none => .fail "Unknown tag."

end Worker

end

/-! ## The calls of `ParCtx` -/

section

variable {P : Platform} {n : Nat} {fortran : Option (List GlobalVariableInfo)} {u : Use}

/-- What the leader does for a call of `ParCtx`. -/
def perform (P : Platform) (fortran : Option (List GlobalVariableInfo)) (u : Use) : Collective → Mpi Unit
  | .rpcTag => Leader.sendRpcTag .enterParallel
  | .memOps => Leader.sendMemOps u.memoryOperations
  | .stack => Leader.sendStack P.fakeStack u.mem
  | .heap => Leader.sendHeap P u
  | .parallelCtx _ => do
    let _ ← mpiBcast (ByteList.ofNat 8 u.parallelCtx) 0 8
  | .fortranGlobalVariables => do
    let _ ← match fortran with
      | none => pure u.mem
      | some vars => syncFortranGlobalVariables P.ndebug vars u.mem
  | .reduce _ _ count type op => do
    let _ ← Prog.exchange
      ⟨.reduce type op, some rootRank, narrowCastInt count * type.size⟩ []

theorem forM_reduceCalls {id : Nat} {reduces : List ReduceArea} :
    (reduces.flatMap (reduceCalls id)).forM (perform P fortran u) = reduces.forM reduce := by
  induction reduces with
  | nil => rfl
  | cons r reduces ih =>
    simp only [List.forM_eq_forM] at ih ⊢
    rw [List.flatMap_cons, List.forM_append, List.forM_cons, ih, reduceCalls, List.forM_map]
    rfl

/-- The leader makes the calls of `ParCtx`, and those of the body between them. -/
theorem useCtx_eq {id : Nat} (hn : 1 < n) (henter : u.enterParallel = true)
    (hverify : verifyReducesNoOverlap u.reduces = .ok ()) :
    ∃ base begun ended,
      Ctx.construct n id .parCtx u.enterParallel u.reduces .ok false =
        ⟨none, true, .raii .parCtx base, begun⟩ ∧
      Ctx.destroy n id none true (.raii .parCtx base) = ⟨none, false, .raii .parCtx base, ended⟩ ∧
      Leader.useCtx P n fortran u = (do
        begun.forM (perform P fortran u)
        u.body.forM userCall
        ended.forM (perform P fortran u)
        return [.enterParallel]) := by
  have hne : n ≠ 1 := Nat.ne_of_gt hn
  refine ⟨⟨.world, u.reduces, true⟩,
    [.rpcTag, .memOps, .stack, .heap, .parallelCtx id, .fortranGlobalVariables],
    u.reduces.flatMap (reduceCalls id), ?_, ?_, ?_⟩
  · refine Ctx.construct_ok (f := ⟨true, ⟨.world, u.reduces, true⟩, _⟩) ?_
    simp [doEnterParallel, ParCtxBase.new, Comm.size, henter, hne, hverify, Kernel.ok,
      Kernel.fortranThrows, Context.enterParallelImpl]
  · refine outcome_ok (f := Context.doExitParallel n id none)
      (g := ⟨false, ⟨.world, u.reduces, true⟩, _⟩) ?_
    simp [Context.doExitParallel, Comm.size, hn, List.flatMap_def]
  · have halone : ¬ Leader.Alone n u := by simp [Leader.Alone, henter, hne]
    rw [forM_reduceCalls]
    cases fortran <;>
      simp [Leader.useCtx, halone, Leader.enterParallelImpl, runBody, doExitParallel, hn, perform]

end

end SimpleParallel.Context.Protocol
