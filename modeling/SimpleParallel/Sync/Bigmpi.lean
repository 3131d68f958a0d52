import SimpleParallel.Lib.Loops
import SimpleParallel.Sync.MemOps

/-!
# Broadcasts

What the broadcasts of `bigmpi.cc` and of the entry protocol leave in a
worker's memory; `src` is the memory of the root. A call of `MPI_Bcast` takes an
`int` count, so `bigmpi` splits a range into chunks of at most `INT_MAX` bytes.

* `bcastRange_eq`: a chunked broadcast is one copy.
* `syncAreas_apply`: `sync_areas` copies its areas and nothing else.
* `recvMemOps_eq`: a log shorter than `INT_MAX` bytes arrives as it was sent;
  `performAll_of_recv`: no other log is replayed without a failure.
-/

namespace SimpleParallel.Sync

open Loops

/-- `std::numeric_limits<int>::max()`. -/
def intMax : Nat := 2 ^ 31 - 1

/-- `gsl::narrow_cast<int>` of a `size_t`. -/
def narrowCastInt (n : Nat) : Int := (BitVec.ofNat 32 n).toInt

theorem narrowCastInt_of_le {n : Nat} (h : n ≤ intMax) : narrowCastInt n = n := by
  unfold narrowCastInt
  unfold intMax at h
  rw [BitVec.toInt_eq_toNat_of_lt (by rw [BitVec.toNat_ofNat]; omega), BitVec.toNat_ofNat]
  congr 1
  omega

/-- `MPI_Bcast` or `MPI_Ibcast` of `count` bytes. A negative count is refused. -/
def mpiBcast (src : Mem) (addr : Nat) (count : Int) (dst : Mem) : Mem :=
  Mem.copyRange src addr count.toNat dst

/-- `bigmpi::Bcast` of bytes, and the inner loop of `sync_areas`. -/
def bcastRange (src : Mem) (addr count : Nat) (dst : Mem) : Mem :=
  (chunks intMax count).foldl
    (fun dst c => mpiBcast src (addr + c.1) (narrowCastInt c.2) dst) dst

/-- `bigmpi::sync_areas`. All requests are complete when it returns. -/
def syncAreas (src : Mem) (areas : List MemArea) (dst : Mem) : Mem :=
  areas.foldl (fun dst area => bcastRange src area.data area.size dst) dst

section

variable {src dst : Mem} {addr count x : Nat} {areas : List MemArea}

theorem bcastRange_eq : bcastRange src addr count dst = Mem.copyRange src addr count dst := by
  have hcast : ∀ c ∈ chunks intMax count, ∀ dst, mpiBcast src (addr + c.1) (narrowCastInt c.2) dst
      = Mem.copyRange src (addr + c.1) c.2 dst := by
    intro c hc dst
    rw [mpiBcast, narrowCastInt_of_le (chunk_bounds (by decide) hc).2.2.1, Int.toNat_natCast]
  have hfold : (chunks intMax count).foldl (fun dst c => Mem.copyRange src (addr + c.1) c.2 dst) dst
      = Mem.copyRange src (addr + 0) count dst :=
    foldl_chunks (fun dst a n => Mem.copyRange src (addr + a) n dst) (by decide)
      (fun _ => Mem.copyRange_zero)
      (fun dst a n k => by rw [← Nat.add_assoc]; exact Mem.copyRange_append) dst
  rw [bcastRange]
  exact (List.foldl_ext _ _ dst fun dst c hc => hcast c hc dst).trans hfold

theorem syncAreas_apply :
    syncAreas src areas dst x = if ∃ area ∈ areas, area.Mem x then src x else dst x := by
  induction areas generalizing dst with
  | nil => simp [syncAreas]
  | cons area areas ih =>
    show syncAreas src areas (bcastRange src area.data area.size dst) x = _
    rw [ih, bcastRange_eq]
    by_cases hrest : ∃ a ∈ areas, a.Mem x
    · simp [hrest]
    · by_cases hx : area.Mem x
      · rw [if_neg hrest, Mem.copyRange_in hx, if_pos ⟨area, List.mem_cons_self, hx⟩]
      · rw [if_neg hrest, Mem.copyRange_out hx, if_neg]
        rintro ⟨a, ha, hax⟩
        rcases List.mem_cons.mp ha with rfl | ha
        · exact hx hax
        · exact hrest ⟨a, ha, hax⟩

end

/-! ## The operation log -/

/-- `sizeof(mem_ops_t)`. -/
def sizeofMemOps : Nat := 48

/-- What arrives of a log in the worker's vector: `MPI_Bcast` refuses a
negative count, and elements beyond the count keep their default value. -/
def recvMemOps (ops : List MemOp) : Option (List MemOp) :=
  let count := narrowCastInt (sizeofMemOps * ops.length)
  if count < 0 then none
  else
    let arrived := count.toNat / sizeofMemOps
    some (ops.take arrived ++ List.replicate (ops.length - arrived) .default)

theorem recvMemOps_eq {ops : List MemOp} (h : sizeofMemOps * ops.length < intMax) :
    recvMemOps ops = some ops := by
  have hcount := narrowCastInt_of_le (Nat.le_of_lt h)
  simp only [recvMemOps, hcount, Int.toNat_natCast]
  rw [if_neg (by omega), Nat.mul_div_cancel_left _ (by decide)]
  simp

/-- `recv_and_perform_mem_ops` on a worker, for the log that the leader sends. -/
def recvAndPerformMemOps (pageSize : Nat) (ndebug : Bool) (ops : List MemOp) (v : AddressSpace) :
    Option AddressSpace :=
  (recvMemOps ops).bind fun ops => performAll pageSize ndebug ops v

/-- A replay that succeeds replayed the log as it was sent: an operation that
was not received maps an empty area, which fails. -/
theorem performAll_of_recv {pageSize : Nat} {ndebug : Bool} {ops : List MemOp}
    {v v' : AddressSpace} (h : recvAndPerformMemOps pageSize ndebug ops v = some v') :
    recvMemOps ops = some ops ∧ performAll pageSize ndebug ops v = some v' := by
  obtain ⟨got, hgot, hperform⟩ := Option.bind_eq_some_iff.mp h
  have hdefault : ∀ (rest : List MemOp) (u : AddressSpace),
      performAll pageSize ndebug (.default :: rest) u = none := by
    intro rest u
    have hmap : u.mmapFixed pageSize 0 0 0 = none := if_neg (by omega)
    show (u.mmapFixed pageSize 0 0 0 >>= fun u => performAll pageSize ndebug rest u) = none
    rw [hmap]
    rfl
  suffices got = ops by
    subst this
    exact ⟨hgot, hperform⟩
  simp only [recvMemOps] at hgot
  split at hgot
  · cases hgot
  · cases hgot
    rename_i hcount
    cases hmissing : ops.length - (narrowCastInt (sizeofMemOps * ops.length)).toNat / sizeofMemOps with
    | zero => rw [List.take_of_length_le (by omega), List.replicate_zero, List.append_nil]
    | succ n =>
      rw [hmissing, List.replicate_succ, performAll_append] at hperform
      obtain ⟨u, -, hrest⟩ := Option.bind_eq_some_iff.mp hperform
      rw [hdefault] at hrest
      cases hrest

end SimpleParallel.Sync
