import SimpleParallel.Context.Protocol
import SimpleParallel.Sync.Agreement

/-!
# Leader and worker in lock-step

The calls of every worker are those of the leader, one by one, and what arrives
is what was sent.

* `inStep_bigmpiBcast`, `inStep_syncAreas`, `inStep_sendHeap`: both sides of each
  message of the entry.
* `inStep_enterParallelImpl`: an entry as a whole. The address space of the worker
  is then the one described in `Sync` (`enterParallelImpl_eq`).
* `lockstep`: all sections of a run, up to `rpc_tag::exit`.
-/

namespace SimpleParallel.Context.Protocol

open Lockstep Loops Reduce Sync

/-! ## Broadcasts -/

section

variable {x y : ByteList} {src m : Mem} {start n : Nat}

/-- A broadcast of some bytes of a buffer. -/
theorem inStep_part : InStep (mpiBcast x start n) x (mpiBcast y start n)
    (ByteList.overwrite y start ((x.drop start).take (narrowCastInt n).toNat)) := by
  have hcall : InStep (mpiBcast x start n)
      (ByteList.overwrite x start ((x.drop start).take (narrowCastInt n).toNat))
      (mpiBcast y start n)
      (ByteList.overwrite y start ((x.drop start).take (narrowCastInt n).toNat)) :=
    .call (.pure _ _)
  rwa [ByteList.overwrite_same] at hcall

/-- A broadcast of a whole buffer. -/
theorem inStep_mpiBcast (hx : x.length = n) (hy : y.length = n) (hn : n ≤ intMax) :
    InStep (mpiBcast x 0 n) x (mpiBcast y 0 n) x := by
  subst hx
  have hpart : InStep (mpiBcast x 0 x.length) x (mpiBcast y 0 x.length) _ := inStep_part
  rwa [narrowCastInt_of_le hn, Int.toNat_natCast, ByteList.overwrite_all hy] at hpart

theorem inStep_broadcastSize (hn : n < 2 ^ 64) :
    InStep (broadcastSize n) n (broadcastSize 0) n := by
  have hbytes : InStep (broadcastSize n) (ByteList.toNat (ByteList.ofNat 8 n)) (broadcastSize 0)
      (ByteList.toNat (ByteList.ofNat 8 n)) :=
    (inStep_mpiBcast (by simp) (by simp) (by decide)).bind (.pure _ _)
  rwa [ByteList.toNat_ofNat (by omega)] at hbytes

theorem inStep_bigmpiBcast (hlength : y.length = x.length) :
    InStep (bigmpiBcast x) x (bigmpiBcast y) x := by
  have hchunks : InStep ((chunks intMax x.length).foldlM (fun b c => mpiBcast b c.1 c.2) x) x
      ((chunks intMax x.length).foldlM (fun b c => mpiBcast b c.1 c.2) y)
      ((chunks intMax x.length).foldl
        (fun b c => ByteList.overwrite b c.1 ((x.drop c.1).take c.2)) y) :=
    InStep.foldlM fun b c hc => by
      have hpart : InStep (mpiBcast x c.1 c.2) x (mpiBcast b c.1 c.2) _ := inStep_part
      rwa [narrowCastInt_of_le (chunk_bounds (by decide) hc).2.2.1, Int.toNat_natCast] at hpart
  rw [ByteList.overwrite_chunks (by decide) hlength] at hchunks
  rwa [bigmpiBcast, bigmpiBcast, hlength]

/-- A broadcast of memory. -/
theorem inStep_bcastMem {kind : Kind} {addr : Nat} : InStep (bcastMem kind src addr n) src
    (bcastMem kind m addr n) (Sync.mpiBcast src addr (narrowCastInt n) m) := by
  have hcall : InStep (bcastMem kind src addr n)
      (ByteList.toMem (ByteList.ofMem src addr (narrowCastInt n).toNat) addr src)
      (bcastMem kind m addr n)
      (ByteList.toMem (ByteList.ofMem src addr (narrowCastInt n).toNat) addr m) :=
    .call (.pure _ _)
  rw [ByteList.toMem_ofMem, ByteList.toMem_ofMem] at hcall
  rwa [show Mem.copyRange src addr (narrowCastInt n).toNat src = src from
    funext fun _ => Mem.copyRange_eq rfl] at hcall

theorem inStep_syncAreas {areas : List MemArea} :
    InStep (syncAreas src areas) src (syncAreas m areas) (Sync.syncAreas src areas m) :=
  InStep.foldlM fun _ _ _ => InStep.foldlM fun _ _ _ => inStep_bcastMem

theorem inStep_reduce {r : ReduceArea} : InStep (reduce r) () (reduce r) () :=
  InStep.forM fun _ _ => .call (.pure () ())

end

/-! ## Messages -/

section

variable {P : Platform} {u : Use} {v w : AddressSpace} {n : Nat}

theorem length_intervals_lt {s : IntervalSet} (hs : Bounded s) :
    s.intervals.length < 2 ^ 64 := by
  have hle : 0 + s.intervals.length ≤ 2 ^ 64 - 1 :=
    IntervalSet.length_le (by decide) s.separated fun i hi =>
      ⟨Nat.zero_le _, Nat.le_sub_one_of_lt (hs i hi)⟩
  omega

/-- An array with its length. -/
theorem inStep_array {α : Type} {layout : ByteList.Layout α} {as : List α}
    (hlt : as.length < 2 ^ 64) (hdecode : ∀ a ∈ as, layout.decode (layout.encode a) = a)
    {f : Mpi Unit} {g : List α → Mpi AddressSpace} (hrest : InStep f () (g as) w) :
    InStep (do
      let _ ← broadcastSize as.length
      let _ ← bigmpiBcast (layout.array as)
      f) ()
    (do
      let n ← broadcastSize 0
      let l ← bigmpiBcast (List.replicate (layout.width * n) 0)
      g (layout.elements n l)) w := by
  have hlength : (List.replicate (layout.width * as.length) (0 : UInt8)).length =
      (layout.array as).length := by
    rw [List.length_replicate, ByteList.Layout.length_array]
  refine (inStep_broadcastSize hlt).bind ((inStep_bigmpiBcast hlength).bind ?_)
  rwa [ByteList.Layout.elements_array hdecode]

/-- `send_mem_ops` with `recv_and_perform_mem_ops`. -/
theorem inStep_memOps {ops : List MemOp} (hshort : sizeofMemOps * ops.length < intMax)
    (hfit : ∀ op ∈ ops, Fits op) (hperform : performAll P.pageSize P.ndebug ops v = some w) :
    InStep (Leader.sendMemOps ops) () (Worker.recvAndPerformMemOps P v) w := by
  have hcount : ops.length < 2 ^ 64 := by
    unfold sizeofMemOps intMax at hshort
    omega
  refine (inStep_broadcastSize hcount).bind ?_
  simp only [assertion, hshort, or_true, if_true]
  refine (inStep_mpiBcast ByteList.Layout.length_array List.length_replicate
    (Nat.le_of_lt hshort)).bind ?_
  rw [ByteList.Layout.elements_array fun op hop => decode_memOp (hfit op hop), hperform]
  exact .pure () w

/-- `send_stack` with `recv_stack`. -/
theorem inStep_stack {src : Mem} : InStep (Leader.sendStack P.fakeStack src) ()
    (Worker.recvStack P v) { v with mem := Sync.Worker.recvStack P src v.mem } :=
  inStep_bcastMem.bind (.pure _ _)

/-- `send_dirty_page` with `recv_dirty_page`. -/
theorem inStep_dirtyPage {src : Mem} {s : IntervalSet} (hs : Bounded s) :
    InStep (Leader.sendDirtyPage P.format src s) () (Worker.recvDirtyPage v)
      (Sync.recvDirtyPage src (dirtyAreas P.format s) v) := by
  refine inStep_array
    (g := fun areas => syncAreas v.mem areas >>= fun m => pure { v with mem := m }) ?_ ?_
    (inStep_syncAreas.bind (.pure _ _))
  · rw [dirtyAreas, List.length_map]
    exact length_intervals_lt hs
  · intro area harea
    obtain ⟨i, -, rfl⟩ := List.mem_map.mp harea
    exact decode_area (Nat.mod_lt _ (by decide)) (Nat.mod_lt _ (by decide))

/-- `send_zeroed_page` with `recv_zero_page`. -/
theorem inStep_zeroPage {s : IntervalSet} (hs : Bounded s) :
    InStep (Leader.sendZeroedPage s) () (Worker.recvZeroPage P v)
      (Sync.recvZeroPage P.format (zeroedPages s) v) := by
  refine inStep_array (g := fun ranges => pure (Sync.recvZeroPage P.format ranges v)) ?_ ?_
    (.pure _ _)
  · rw [zeroedPages, List.length_map]
    exact length_intervals_lt hs
  · intro range hrange
    obtain ⟨i, hi, rfl⟩ := List.mem_map.mp hrange
    have hupper := hs i hi
    have hne := s.separated.nonempty i hi
    exact decode_pteRange (by simp only; omega) (by simp only; omega)

/-- `send_heap` with `recv_heap`. -/
theorem inStep_heap : InStep (Leader.sendHeap P u) () (Worker.recvHeap P v)
    (Sync.recvHeap P.format u.mem u.sets v) :=
  (inStep_dirtyPage u.dirty_bounded).bind (inStep_zeroPage u.zero_bounded)

/-- What the worker has after the entry `u`, if its replay of the log gives `w`. -/
def entered (P : Platform) (u : Use) (w : AddressSpace) : AddressSpace :=
  Sync.recvHeap P.format u.mem u.sets { w with mem := Sync.Worker.recvStack P u.mem w.mem }

/-- The messages of `enter_parallel_impl` after the tag. -/
def sendMessages (P : Platform) (u : Use) : Mpi Unit := do
  Leader.sendMemOps u.memoryOperations
  Leader.sendStack P.fakeStack u.mem
  Leader.sendHeap P u
  let _ ← mpiBcast (ByteList.ofNat 8 u.parallelCtx) 0 8

theorem inStep_enterParallelImpl (hshort : sizeofMemOps * u.memoryOperations.length < intMax)
    (hperform : performAll P.pageSize P.ndebug u.memoryOperations v = some w) :
    InStep (sendMessages P u) () (Worker.enterParallelImpl P v) (u.parallelCtx, entered P u w) := by
  refine (inStep_memOps hshort u.memoryOperations_fit hperform).bind (inStep_stack.bind
    (inStep_heap.bind ?_))
  have hptr : InStep (mpiBcast (ByteList.ofNat 8 u.parallelCtx) 0 8)
      (ByteList.ofNat 8 u.parallelCtx) (mpiBcast (ByteList.ofNat 8 0) 0 8)
      (ByteList.ofNat 8 u.parallelCtx) := inStep_mpiBcast (by simp) (by simp) (by decide)
  have hlt := u.parallelCtx_lt
  have hread : ByteList.toNat (ByteList.ofNat 8 u.parallelCtx) = u.parallelCtx :=
    ByteList.toNat_ofNat (by omega)
  refine hptr.bind ?_
  rw [hread]
  exact .pure () _

/-- `Sync` describes the same entry. -/
theorem enterParallelImpl_eq {l : Sync.Leader} (hops : u.memoryOperations = l.memoryOperations)
    (hmem : u.mem = l.space.mem)
    (hsets : u.sets = getZeroAndDirtyPages P.format l.space.mem l.pte l.blocks
      (u.reduces.map (·.innerPages P.pageSize)))
    (hshort : sizeofMemOps * u.memoryOperations.length < intMax) :
    Sync.Worker.enterParallelImpl P l u.reduces v =
      (performAll P.pageSize P.ndebug u.memoryOperations v).map (entered P u) := by
  unfold Sync.Worker.enterParallelImpl Sync.recvAndPerformMemOps
  rw [← hops, recvMemOps_eq hshort, ← hsets, ← hmem]
  rfl

end

/-! ## Sections -/

section

variable {P : Platform} {fortran : Option (List GlobalVariableInfo)} {m src : Mem} {code : Code}
  {v : AddressSpace} {n : Nat}

theorem inStep_gatherEqual {mine : ByteList} :
    InStep (gatherEqual mine) () (gatherEqual mine) () := by
  refine (InStep.exchange _ mine mine).bind ?_
  simp only [assertion, or_true, if_true]
  exact .pure () ()

/-- The variables meet the assertion of `sync_fortran_global_variables`. -/
def VariablesFit (ndebug : Bool) (fortran : Option (List GlobalVariableInfo)) : Prop :=
  ∀ vars ∈ fortran, ∀ info ∈ vars, ndebug = true ∨ info.area.size ≤ intMax

theorem inStep_fortran {vars : List GlobalVariableInfo}
    (hfit : ∀ info ∈ vars, P.ndebug = true ∨ info.area.size ≤ intMax) :
    InStep (syncFortranGlobalVariables P.ndebug vars src) src
      (syncFortranGlobalVariables P.ndebug vars m)
      (vars.foldl (fun m info =>
        Sync.mpiBcast src info.area.data (narrowCastInt info.area.size) m) m) := by
  have hverify : InStep (verifyFortranGlobalVariablesSynced vars) ()
      (verifyFortranGlobalVariablesSynced vars) () :=
    inStep_gatherEqual.bind (InStep.forM fun _ _ => inStep_gatherEqual)
  have hvars : InStep (vars.foldlM (fun m info => do
        assertion P.ndebug (info.area.size ≤ intMax)
        bcastMem .ibcast m info.area.data info.area.size) src) src
      (vars.foldlM (fun m info => do
        assertion P.ndebug (info.area.size ≤ intMax)
        bcastMem .ibcast m info.area.data info.area.size) m)
      (vars.foldl (fun m info =>
        Sync.mpiBcast src info.area.data (narrowCastInt info.area.size) m) m) := by
    refine InStep.foldlM fun m info hinfo => ?_
    simp only [assertion, hfit info hinfo, if_true]
    exact inStep_bcastMem
  unfold syncFortranGlobalVariables
  split
  · exact hvars
  · exact hverify.bind hvars

theorem inStep_runBody (hfit : VariablesFit P.ndebug fortran) :
    ∃ m', InStep (runBody P fortran src code) src (runBody P fortran m code) m' := by
  have hcalls : InStep (code.body.forM userCall) () (code.body.forM userCall) () :=
    InStep.forM fun _ _ => .call (.pure () ())
  cases fortran with
  | none => exact ⟨m, hcalls.bind (.pure src m)⟩
  | some vars => exact ⟨_, (inStep_fortran (hfit vars rfl)).bind (hcalls.bind (.pure src _))⟩

theorem inStep_doExitParallel : InStep (doExitParallel n code) () (doExitParallel n code) () := by
  unfold doExitParallel
  split
  · exact InStep.forM fun _ _ => inStep_reduce
  · exact .pure () ()

/-- From the switch on, a worker that has the code of the leader. -/
theorem inStep_runCtx (hfit : VariablesFit P.ndebug fortran)
    (hsupported : ∀ r ∈ code.reduces, r.Supported) :
    InStep (do
      let _ ← runBody P fortran src code
      doExitParallel n code) () (Worker.runCtx P n fortran v code) () := by
  obtain ⟨m, hm⟩ := ReduceArea.initAll_total (m := v.mem).mpr hsupported
  obtain ⟨m', hbody⟩ : ∃ m',
      InStep (runBody P fortran src code) src (runBody P fortran m code) m' := inStep_runBody hfit
  simp only [Worker.runCtx, hm]
  exact hbody.bind inStep_doExitParallel

end

/-! ## Runs -/

section

variable {P : Platform}

/-- The contexts that enter. -/
def entering (n : Nat) (uses : List Use) : List Use :=
  uses.filter fun u => ¬ Leader.Alone n u

/-- The tags of a run. -/
def tags (n : Nat) (uses : List Use) : List RpcTag :=
  (entering n uses).map (fun _ => .enterParallel) ++ [.exit]

/-- The entry `u` is the section `k` of the worker: its log is short enough, no
operation of it fails there, its areas are supported, and the worker has the code
of the leader. -/
structure Ready (P : Platform) (W : WorkerSide) (k : Nat) (u : Use) : Prop where
  short : sizeofMemOps * u.memoryOperations.length < intMax
  replay : (performAll P.pageSize P.ndebug u.memoryOperations (W.space k)).isSome
  supported : ∀ r ∈ u.reduces, r.Supported
  code : W.code k u.parallelCtx = u.toCode

/-- The worker is ready for all sections, and has the Fortran variables of the
leader. -/
structure Matched (P : Platform) (n : Nat) (fortran : Option (List GlobalVariableInfo))
    (uses : List Use) (W : WorkerSide) : Prop where
  fit : VariablesFit P.ndebug fortran
  fortran : W.fortran = fortran
  ready : ∀ k u, (entering n uses)[k]? = some u → Ready P W k u

variable {n : Nat} {W : WorkerSide} {uses : List Use}

theorem inStep_tag (tag : RpcTag) : InStep (Leader.sendRpcTag tag) ()
    (mpiBcast (ByteList.ofNat 1 0) 0 1) (ByteList.ofNat 1 (tagCode tag)) :=
  (inStep_mpiBcast (by simp) (by simp) (by decide)).discard

theorem inStep_run (hfit : VariablesFit P.ndebug W.fortran) {fuel k : Nat}
    (hready : ∀ j u, (entering n uses)[j]? = some u → Ready P W (k + j) u)
    (hfuel : (entering n uses).length < fuel) :
    InStep (Leader.run P n W.fortran uses) (tags n uses) (Worker.worker P W n fuel k)
      (0, tags n uses) := by
  induction uses generalizing fuel k with
  | nil =>
    obtain ⟨fuel, rfl⟩ := Nat.exists_eq_succ_of_ne_zero (Nat.ne_of_gt hfuel)
    refine (inStep_tag .exit).bind ?_
    rw [tagOfCode_sent]
    exact .pure _ _
  | cons u uses ih =>
    by_cases halone : Leader.Alone n u
    · have hentering : entering n (u :: uses) = entering n uses := by simp [entering, halone]
      have hrun : Leader.run P n W.fortran (u :: uses) = Leader.run P n W.fortran uses := by
        simp [Leader.run, Leader.useCtx, halone]
      rw [hentering] at hready hfuel
      rw [tags, hentering, hrun]
      exact ih hready hfuel
    · have hentering : entering n (u :: uses) = u :: entering n uses := by
        simp [entering, halone]
      have hrun : Leader.run P n W.fortran (u :: uses) =
          Leader.sendRpcTag .enterParallel >>= fun _ => sendMessages P u >>= fun _ =>
            (runBody P W.fortran u.mem u.toCode >>= fun _ => doExitParallel n u.toCode) >>= fun _ =>
              Leader.run P n W.fortran uses >>= fun rest => pure (.enterParallel :: rest) := by
        simp [Leader.run, Leader.useCtx, halone, Leader.enterParallelImpl, sendMessages]
      rw [hentering] at hready hfuel
      have hu := hready 0 u rfl
      obtain ⟨w, hw⟩ := Option.isSome_iff_exists.mp hu.replay
      obtain ⟨fuel, rfl⟩ := Nat.exists_eq_succ_of_ne_zero (Nat.ne_of_gt (Nat.zero_lt_of_lt hfuel))
      have hrest : InStep (Leader.run P n W.fortran uses) (tags n uses)
          (Worker.worker P W n fuel (k + 1)) (0, tags n uses) := by
        refine ih (fun j t ht => ?_) (Nat.lt_of_succ_lt_succ hfuel)
        have := hready (j + 1) t ht
        rwa [show k + (j + 1) = k + 1 + j by omega] at this
      have htags : tags n (u :: uses) = .enterParallel :: tags n uses := by
        rw [tags, hentering]
        rfl
      rw [hrun, htags]
      refine (inStep_tag .enterParallel).bind ?_
      rw [tagOfCode_sent]
      refine (inStep_enterParallelImpl hu.short hw).bind ?_
      have hcode : W.code k u.parallelCtx = u.toCode := hu.code
      dsimp only
      rw [hcode]
      exact (inStep_runCtx hfit hu.supported).bind (hrest.bind (.pure _ _))

/-- The broadcast of `rpc_tag::exit`. -/
def exitCall : Call × ByteList :=
  (⟨.bcast, some rootRank, 1⟩, ByteList.ofNat 1 (tagCode .exit))

theorem run_exitCall {fortran : Option (List GlobalVariableInfo)} {sent : List RpcTag}
    (h : (Leader.run P n fortran uses).lead.2 = .ok sent) :
    ∃ before, (Leader.run P n fortran uses).lead.1 = before ++ [exitCall] := by
  induction uses generalizing sent with
  | nil => exact ⟨[], rfl⟩
  | cons u uses ih =>
    obtain ⟨first, -, hrest, hcalls⟩ := Prog.lead_bind h
    obtain ⟨rest, hrun, -, hcalls'⟩ := Prog.lead_bind hrest
    obtain ⟨before, hbefore⟩ := ih hrun
    refine ⟨(Leader.useCtx P n fortran u).lead.1 ++ before, ?_⟩
    rw [Leader.run, hcalls, hcalls', hbefore]
    simp [Prog.lead, pure]

/-- Every worker makes the calls of the leader, position by position, and reads the
tags that the leader sent. Before the last call, which sends `rpc_tag::exit`, it
waits for the next one; after it, it has returned. -/
theorem lockstep {fortran : Option (List GlobalVariableInfo)} {W : Nat → WorkerSide}
    (hW : ∀ r, 0 < r → r < n → Matched P n fortran uses (W r)) {r : Nat} (hr : 0 < r) (hrn : r < n)
    {fuel : Nat} (hfuel : (entering n uses).length < fuel) :
    let sent := (Leader.run P n fortran uses).lead
    let worker := Worker.worker P (W r) n fuel 0
    sent.2 = .ok (tags n uses) ∧
    (∃ before, sent.1 = before ++ [exitCall]) ∧
    worker.follow sent.1 = (sent.1, .returned (0, tags n uses)) ∧
    ∀ received, received <+: sent.1 → received ≠ sent.1 →
      worker.follow received = (received, .waiting) := by
  obtain ⟨hfit, hfortran, hready⟩ := hW r hr hrn
  subst hfortran
  have hstep : InStep (Leader.run P n (W r).fortran uses) (tags n uses)
      (Worker.worker P (W r) n fuel 0) (0, tags n uses) :=
    inStep_run hfit (fun j u hu => by rw [Nat.zero_add]; exact hready j u hu) hfuel
  exact ⟨hstep.lead, run_exitCall hstep.lead, hstep.follow, fun _ => hstep.follow_prefix⟩

end

/-! ## A run of two ranks -/

/-- A page to copy and one to drop. -/
def sampleSets : PageSets :=
  ⟨IntervalSet.empty.add ⟨2 ^ 32, 2 ^ 32 + 1⟩, IntervalSet.empty.add ⟨2 ^ 33, 2 ^ 33 + 1⟩⟩

theorem sampleSets_bounded : Bounded sampleSets.dirty ∧ Bounded sampleSets.zero := by
  constructor <;> intro i hi <;> cases List.mem_singleton.mp hi <;> decide

theorem fits_firstOp : ∀ op ∈ [firstOp (smallPlatform false [])], Fits op := by
  intro op hop
  cases List.mem_singleton.mp hop
  exact ⟨by decide, by decide, by decide, by decide, by decide, by decide, by decide⟩

/-- An operation to replay, the pages above, a barrier in the body, and a sum of
three numbers. -/
def sampleUse (enter : Bool) : Use where
  reduces := [⟨2 ^ 43, 3, .double, .sum⟩]
  body := [⟨.user "MPI_Barrier", none, 0⟩]
  enterParallel := enter
  parallelCtx := 2 ^ 40
  parallelCtx_lt := Nat.pow_lt_pow_right Nat.one_lt_two (Nat.lt_of_sub_eq_succ rfl)
  mem := fun _ => 1
  memoryOperations := [firstOp (smallPlatform false [])]
  memoryOperations_fit := fits_firstOp
  sets := sampleSets
  dirty_bounded := sampleSets_bounded.1
  zero_bounded := sampleSets_bounded.2

def sampleFortran : Option (List GlobalVariableInfo) := some [⟨⟨2 ^ 41, 12⟩, ⟨2 ^ 42, 8⟩⟩]

def sampleWorker : WorkerSide where
  fortran := sampleFortran
  space := fun _ => ⟨fun _ => none, fun _ => 0⟩
  code := fun _ _ => (sampleUse true).toCode

theorem sampleWorker_matched :
    Matched (smallPlatform false []) 2 sampleFortran
      [sampleUse true, sampleUse false, sampleUse true] sampleWorker where
  fit := by
    intro vars hvars info hinfo
    cases hvars
    cases List.mem_singleton.mp hinfo
    exact .inr (by decide)
  fortran := rfl
  ready := by
    intro k u hu
    have hmem : u ∈ [sampleUse true, sampleUse true] := List.mem_of_getElem? hu
    obtain rfl : u = sampleUse true := by simpa using hmem
    exact ⟨by decide, rfl, by decide, rfl⟩

theorem lockstep_two :
    let uses := [sampleUse true, sampleUse false, sampleUse true]
    let sent := (Leader.run (smallPlatform false []) 2 sampleFortran uses).lead
    sent.2 = .ok [.enterParallel, .enterParallel, .exit] ∧
      (Worker.worker (smallPlatform false []) sampleWorker 2 3 0).follow sent.1 =
        (sent.1, .returned (0, [.enterParallel, .enterParallel, .exit])) := by
  have hfuel : (entering 2 [sampleUse true, sampleUse false, sampleUse true]).length < 3 := by
    decide
  obtain ⟨hsent, -, hworker, -⟩ := lockstep (W := fun _ => sampleWorker)
    (fun _ _ _ => sampleWorker_matched) (r := 1) Nat.one_pos (by decide) hfuel
  exact ⟨hsent, hworker⟩

end SimpleParallel.Context.Protocol
