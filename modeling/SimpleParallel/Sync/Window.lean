import SimpleParallel.Lib.RequestWindow
import SimpleParallel.Lib.Spans
import SimpleParallel.Sync.Bigmpi

/-!
# The broadcasts of sync_areas

`bigmpi::sync_areas` starts one `MPI_Ibcast` for each chunk of each area and keeps the
requests in a `static_vector<MPI_Request, 256>`. `sentLoop` is the inner loop with its
`size_t`, and `ibcasts` the machine that issues the calls and waits.

* `syncAreasCalls_eq`: below `2 ^ 63` bytes the loop ends, with the chunks of the area.
* `syncAreas_eq_foldl`: their effect on a worker is that of `syncAreas`.
* `sync_areas_waits`: the calls tile the areas, and the waiting loses no request.
* `sync_areas_outstanding`: the broadcast is started before room is made for its request,
  so with 257 chunks there can be 257 requests.
-/

namespace SimpleParallel.Sync

open RequestWindow

/-- A call of `MPI_Ibcast` for bytes. -/
structure IbcastCall where
  buffer : Nat
  count : Int
  deriving DecidableEq

namespace IbcastCall

def span (call : IbcastCall) : Nat × Nat := (call.buffer, call.buffer + call.count.toNat)

def bytes (call : IbcastCall) : List Nat := List.range' call.buffer call.count.toNat

end IbcastCall

/-- `for (size_t sent = 0; sent < count; sent += int_max)`, from `sent` on. -/
def sentLoop (mem : MemArea) : Nat → Nat → Option (List IbcastCall)
  | 0, _ => none
  | fuel + 1, sent =>
    if sent < mem.size then do
      let thisIterCount := narrowCastInt (min intMax (mem.size - sent))
      let rest ← sentLoop mem fuel (wrap (sent + intMax))
      some (⟨mem.data + sent, thisIterCount⟩ :: rest)
    else some []

/-- The calls of `sync_areas`, area by area. -/
def syncAreasCalls (fuel : Nat) : List MemArea → Option (List (List IbcastCall))
  | [] => some []
  | mem :: memAreas => do
    let calls ← sentLoop mem fuel 0
    let rest ← syncAreasCalls fuel memAreas
    some (calls :: rest)

/-- `static_capacity` of the buffer of requests. -/
def staticCapacity : Nat := 256

/-- The calls are issued and waited for. -/
def ibcasts (calls : List IbcastCall) : LTS.Sys (RequestWindow.State IbcastCall) Act :=
  RequestWindow.sys staticCapacity (fun _ => true) calls

/-! ## The chunks -/

def chunkCut : Cut where
  size := min intMax
  pos h := Nat.lt_min.mpr ⟨by decide, h⟩
  le _ := Nat.min_le_right _ _

theorem chunkCut_size (r : Nat) : chunkCut.size r = min intMax r := rfl

/-- The calls for an area. -/
def areaCalls (mem : MemArea) : List IbcastCall :=
  (chunkCut.spans mem.data mem.size).map fun span => ⟨span.1, narrowCastInt (span.2 - span.1)⟩

section

variable {mem : MemArea} {areas : List MemArea} {fuel sent : Nat}

/-- One iteration of the loop cuts off one chunk. -/
theorem chunkCut_spans (hlt : sent < mem.size) :
    chunkCut.spans (mem.data + sent) (mem.size - sent) =
      (mem.data + sent, mem.data + sent + min intMax (mem.size - sent)) ::
        chunkCut.spans (mem.data + (sent + intMax)) (mem.size - (sent + intMax)) := by
  rw [Cut.spans_pos (by omega), chunkCut_size]
  by_cases hlast : mem.size ≤ sent + intMax
  · rw [Nat.min_eq_right (by omega), Nat.sub_self, Nat.sub_eq_zero_of_le hlast, Cut.spans_zero,
      Cut.spans_zero]
  · rw [Nat.min_eq_left (by omega), Nat.sub_sub, Nat.add_assoc]

theorem sentLoop_eq (hsize : mem.size < 2 ^ 63) (hfuel : mem.size - sent < fuel) :
    sentLoop mem fuel sent = some ((chunkCut.spans (mem.data + sent) (mem.size - sent)).map
      fun span => ⟨span.1, narrowCastInt (span.2 - span.1)⟩) := by
  induction fuel generalizing sent with
  | zero => exact absurd hfuel (Nat.not_lt_zero _)
  | succ fuel ih =>
    by_cases hlt : sent < mem.size
    · have hpos : 0 < intMax := by decide
      have hsum : sent + intMax < 2 ^ 64 := by
        unfold intMax
        omega
      have hwrap : wrap (sent + intMax) = sent + intMax := Nat.mod_eq_of_lt hsum
      rw [sentLoop, if_pos hlt, hwrap, ih (by omega), chunkCut_spans hlt, List.map_cons,
        Nat.add_sub_cancel_left]
      rfl
    · rw [sentLoop, if_neg hlt, Nat.sub_eq_zero_of_le (by omega), Cut.spans_zero]
      rfl

theorem syncAreasCalls_eq (hsize : ∀ mem ∈ areas, mem.size < 2 ^ 63)
    (hfuel : ∀ mem ∈ areas, mem.size < fuel) :
    syncAreasCalls fuel areas = some (areas.map areaCalls) := by
  induction areas with
  | nil => rfl
  | cons mem areas ih =>
    have hmem : sentLoop mem fuel 0 = some (areaCalls mem) :=
      sentLoop_eq (hsize mem List.mem_cons_self) (hfuel mem List.mem_cons_self)
    have hrest := ih (fun m hm => hsize m (List.mem_cons_of_mem _ hm))
      fun m hm => hfuel m (List.mem_cons_of_mem _ hm)
    rw [syncAreasCalls, hmem, hrest]
    rfl

/-- Every chunk has a count that fits an `int`. -/
theorem count_of_mem_spans {lo r : Nat} {span : Nat × Nat} (h : span ∈ chunkCut.spans lo r) :
    narrowCastInt (span.2 - span.1) = ((span.2 - span.1 : Nat) : Int) ∧ 0 < span.2 - span.1 ∧
      span.2 - span.1 ≤ intMax := by
  obtain ⟨-, hlt, -, hsize⟩ := Cut.mem_spans h
  have hle : span.2 - span.1 ≤ intMax := by
    rw [hsize]
    exact Nat.min_le_left _ _
  exact ⟨narrowCastInt_of_le hle, by omega, hle⟩

theorem areaCalls_count {call : IbcastCall} (h : call ∈ areaCalls mem) :
    1 ≤ call.count ∧ call.count ≤ intMax := by
  obtain ⟨span, hspan, rfl⟩ := List.mem_map.mp h
  obtain ⟨hcast, hpos, hle⟩ := count_of_mem_spans hspan
  simp only [hcast]
  omega

theorem areaCalls_span :
    (areaCalls mem).map IbcastCall.span = chunkCut.spans mem.data mem.size := by
  rw [areaCalls, List.map_map]
  refine (List.map_congr_left fun span hspan => ?_).trans (List.map_id _)
  obtain ⟨hcast, hpos, -⟩ := count_of_mem_spans hspan
  show (span.1, span.1 + (narrowCastInt (span.2 - span.1)).toNat) = span
  rw [hcast, Int.toNat_natCast, Nat.add_sub_of_le (by omega)]

theorem areaCalls_tiles :
    Tiles mem.data (mem.data + mem.size) ((areaCalls mem).map IbcastCall.span) := by
  rw [areaCalls_span]
  exact Cut.spans_tiles _ _ _

/-- The calls are the chunks whose effect `bcastRange` gives. -/
theorem areaCalls_eq_chunks : areaCalls mem = (Loops.chunks intMax mem.size).map
    fun c => ⟨mem.data + c.1, narrowCastInt c.2⟩ := by
  suffices key : ∀ sent, ((chunkCut.spans (mem.data + sent) (mem.size - sent)).map
      fun span => (⟨span.1, narrowCastInt (span.2 - span.1)⟩ : IbcastCall)) =
      (Loops.chunksFrom intMax sent mem.size).map
        fun c => ⟨mem.data + c.1, narrowCastInt c.2⟩ from key 0
  intro sent
  induction sent using Loops.chunksFrom.induct intMax mem.size with
  | case1 sent hlt ih =>
    rw [Loops.chunksFrom_cons hlt.1 hlt.2, chunkCut_spans hlt.1, List.map_cons, List.map_cons, ih,
      Nat.add_sub_cancel_left]
  | case2 sent hnot =>
    have hle : mem.size ≤ sent := Nat.le_of_not_lt fun hlt => hnot ⟨hlt, by decide⟩
    rw [Loops.chunksFrom_nil hle, Nat.sub_eq_zero_of_le hle, Cut.spans_zero]
    rfl

theorem syncAreas_eq_foldl {src dst : Mem} : syncAreas src areas dst =
    (areas.map areaCalls).flatten.foldl
      (fun dst call => mpiBcast src call.buffer call.count dst) dst := by
  rw [List.foldl_flatten, List.foldl_map, syncAreas]
  refine List.foldl_ext _ _ dst fun dst mem _ => ?_
  rw [areaCalls_eq_chunks, List.foldl_map]
  rfl

/-- The bytes of the calls are those of the area. -/
theorem areaCalls_bytes :
    (areaCalls mem).flatMap IbcastCall.bytes = List.range' mem.data mem.size := by
  have hbytes : ∀ call : IbcastCall,
      call.bytes = List.range' call.span.1 (call.span.2 - call.span.1) := fun call => by
    rw [IbcastCall.span, Nat.add_sub_cancel_left]
    rfl
  rw [← Cut.flatMap_spans chunkCut mem.data mem.size, ← areaCalls_span, List.flatMap_map]
  exact List.flatMap_congr fun call _ => hbytes call

end

/-! ## The waiting -/

/-- What `sync_areas` may rely on between two steps. -/
structure Waits (calls : List IbcastCall) (s : RequestWindow.State IbcastCall) : Prop where
  issued : s.started <+: calls
  /-- the window and the request just started -/
  outstanding : s.outstanding.length ≤ staticCapacity + 1
  /-- when the next broadcast is started, and when all are waited for -/
  room : s.pc.pending = none → s.outstanding.length ≤ staticCapacity
  overwritten : ∀ k t, (ibcasts calls).step s (.overwrite k) t →
    ∃ old, s.buffer[k]? = some ⟨old, true⟩ ∧ s.completed old = true
  active : ∀ r rest, s.pc = .waitany r rest → ∃ slot ∈ s.buffer, slot.null = false
  defined : s.pc ≠ .undefined
  returned : s.pc = .returned → s.started = calls ∧ s.Quiet
  ends : ∃ t, Leads staticCapacity (fun _ => true) s t ∧ t.pc = .returned

theorem waits_of_reachable {calls : List IbcastCall} {s : RequestWindow.State IbcastCall}
    (h : LTS.Reachable (ibcasts calls) s) : Waits calls s := by
  have hcap : 0 < staticCapacity := by decide
  have hinv := inv hcap h
  have hlen := hinv.length_outstanding_le
  have hpc := ne_aborted hcap (fun _ _ => rfl) h
  refine
    { issued := hinv.started
      outstanding := ?outstanding
      room := ?room
      overwritten := ?overwritten
      active := ?active
      defined := hinv.defined
      returned := fun hreturned => ⟨hinv.all_started hreturned, hinv.returned hreturned⟩
      ends := exists_returned hcap (fun _ _ => rfl) hinv hpc }
  case outstanding =>
    have hone : s.pc.pending.toList.length ≤ 1 := by
      cases s.pc.pending with
      | none => exact Nat.zero_le 1
      | some _ => exact Nat.le_refl 1
    omega
  case room =>
    intro hpending
    rw [hpending] at hlen
    exact hlen
  case overwritten =>
    intro k t hs
    cases hs with
    | overwrite hover => exact hinv.freed _ _ _ hover
  case active =>
    intro r rest hwait
    obtain ⟨slot, hslot⟩ := List.exists_mem_of_length_pos (hinv.full r rest hwait ▸ hcap)
    exact ⟨slot, hslot, hinv.active hwait (by intro _ _ _ hp; cases hp) hslot⟩

/-- `sync_areas` broadcasts everything and waits for everything. -/
theorem sync_areas_waits (areas : List MemArea) (hsize : ∀ mem ∈ areas, mem.size < 2 ^ 63) :
    ∃ calls : List (List IbcastCall),
      (∃ n, ∀ fuel ≥ n, syncAreasCalls fuel areas = some calls) ∧
      List.Forall₂ (fun mem calls =>
        Tiles mem.data (mem.data + mem.size) (calls.map IbcastCall.span)) areas calls ∧
      (∀ call ∈ calls.flatten, 1 ≤ call.count ∧ call.count ≤ intMax) ∧
      ∀ s, LTS.Reachable (ibcasts calls.flatten) s → Waits calls.flatten s := by
  refine ⟨areas.map areaCalls, ⟨2 ^ 63, fun fuel hfuel => ?_⟩, ?_, ?_, fun s => waits_of_reachable⟩
  · exact syncAreasCalls_eq hsize fun mem hmem => Nat.lt_of_lt_of_le (hsize mem hmem) hfuel
  · rw [List.forall₂_map_right_iff, List.forall₂_same]
    exact fun mem _ => areaCalls_tiles
  · intro call hcall
    obtain ⟨_, hcalls, hcall⟩ := List.mem_flatten.mp hcall
    obtain ⟨mem, -, rfl⟩ := List.mem_map.mp hcalls
    exact areaCalls_count hcall

/-- Two areas, one of them above `INT_MAX` bytes. -/
theorem sync_areas_waits_large : ∃ calls : List (List IbcastCall),
    (∃ n, ∀ fuel ≥ n, syncAreasCalls fuel [⟨4096, 2 ^ 32⟩, ⟨0, 0⟩] = some calls) ∧
      ∀ s, LTS.Reachable (ibcasts calls.flatten) s → s.outstanding.length ≤ staticCapacity + 1 := by
  obtain ⟨calls, hcalls, -, -, hwaits⟩ :=
    sync_areas_waits [⟨4096, 2 ^ 32⟩, ⟨0, 0⟩] (by decide)
  exact ⟨calls, hcalls, fun s hs => (hwaits s hs).outstanding⟩

/-- With 257 areas of one byte there are 257 requests at a time. -/
theorem sync_areas_outstanding :
    ∃ calls : List (List IbcastCall), ∃ s : RequestWindow.State IbcastCall,
    (∃ n, ∀ fuel ≥ n, syncAreasCalls fuel (List.replicate 257 ⟨4096, 1⟩) = some calls) ∧
      LTS.Reachable (ibcasts calls.flatten) s ∧ s.outstanding.length = 257 := by
  have hmem : ∀ mem ∈ List.replicate 257 (⟨4096, 1⟩ : MemArea), mem.size = 1 := fun mem hmem =>
    congrArg MemArea.size (List.eq_of_mem_replicate hmem)
  have hcalls : ∀ fuel ≥ 2, syncAreasCalls fuel (List.replicate 257 ⟨4096, 1⟩) =
      some ((List.replicate 257 ⟨4096, 1⟩).map areaCalls) := fun fuel hfuel =>
    syncAreasCalls_eq (fun mem h => hmem mem h ▸ by decide) fun mem h => hmem mem h ▸ hfuel
  have hone : areaCalls ⟨4096, 1⟩ = [⟨4096, 1⟩] := by
    rw [areaCalls, Cut.spans_pos (by decide)]
    show _ :: (chunkCut.spans 4097 0).map _ = _
    rw [Cut.spans_zero]
    decide
  have hlen : ((List.replicate 257 (⟨4096, 1⟩ : MemArea)).map areaCalls).flatten.length = 257 := by
    rw [List.map_replicate, hone, List.flatten_replicate_singleton, List.length_replicate]
  obtain ⟨s, hs, hout⟩ := exists_outstanding staticCapacity (fun _ => true) _
    (fun _ _ => rfl) (by rw [hlen]; exact Nat.lt_succ_self 256)
  exact ⟨_, s, ⟨2, hcalls⟩, hs, hout⟩

end SimpleParallel.Sync
