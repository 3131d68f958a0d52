import SimpleParallel.Sync.Window

/-!
# The broadcasts of sync_fortran_global_variables

`sync_fortran_global_variables` waits with a window of its own, and starts one
`MPI_Ibcast` for each variable, however large: the size is narrowed to an `int`. The
debug build asserts before that it fits. Its check that all processes hold the same list
was passed.

* `length_le_of_syncAreasCalls`: whatever `sync_areas` issues, no byte is left out.
* `fortran_synced_iff`: in either build the variables are synchronised like areas exactly
  when none is larger than `INT_MAX`; `fortran_not_synced`: an array of 2 GiB.
-/

namespace SimpleParallel.Sync

open RequestWindow

/-- `MPI_Ibcast(i.area.data(), gsl::narrow_cast<int>(i.area.size_bytes()), ...)`. -/
def fortranCall (area : MemArea) : IbcastCall where
  buffer := area.data
  count := narrowCastInt area.size

/-- `BOOST_ASSERT(i.area.size_bytes() <= std::numeric_limits<int>::max())`. -/
def sizeAssert (ndebug : Bool) (area : MemArea) : Bool := ndebug || decide (area.size ≤ intMax)

/-- `buffer_size`. -/
def bufferSize : Nat := 256

/-- The loop over the areas of `fortran_global_variables`. -/
def fortranIbcasts (ndebug : Bool) (areas : List MemArea) :
    LTS.Sys (RequestWindow.State MemArea) Act :=
  RequestWindow.sys bufferSize (sizeAssert ndebug) areas

/-- The bytes broadcast so far. -/
def fortranBytes (s : RequestWindow.State MemArea) : List Nat :=
  s.started.flatMap fun area => (fortranCall area).bytes

/-- The variables are synchronised like any other area. -/
structure SyncedLikeAreas (ndebug : Bool) (areas : List MemArea) : Prop where
  runs : ∀ s, LTS.Reachable (fortranIbcasts ndebug areas) s → s.pc ≠ .aborted
  ends : ∀ s, LTS.Reachable (fortranIbcasts ndebug areas) s →
    ∃ t, Leads bufferSize (sizeAssert ndebug) s t ∧ t.pc = .returned
  counts : ∀ s, LTS.Reachable (fortranIbcasts ndebug areas) s → ∀ area ∈ s.started,
    0 ≤ (fortranCall area).count ∧ (fortranCall area).count ≤ intMax
  bytes : ∃ calls : List (List IbcastCall),
    (∃ n, ∀ fuel ≥ n, syncAreasCalls fuel areas = some calls) ∧
      ∀ s, LTS.Reachable (fortranIbcasts ndebug areas) s → s.pc = .returned →
        fortranBytes s = calls.flatten.flatMap IbcastCall.bytes
  quiet : ∀ s, LTS.Reachable (fortranIbcasts ndebug areas) s → s.pc = .returned → s.outstanding = []

section

variable {ndebug : Bool} {areas : List MemArea} {mem : MemArea} {s : RequestWindow.State MemArea}

theorem narrowCastInt_le (n : Nat) : narrowCastInt n ≤ intMax := by
  have := BitVec.toInt_lt (x := BitVec.ofNat 32 n)
  unfold narrowCastInt intMax
  omega

theorem narrowCastInt_toNat_le (n : Nat) : (narrowCastInt n).toNat ≤ n := by
  have hle : (BitVec.ofNat 32 n).toInt ≤ ((BitVec.ofNat 32 n).toNat : Int) := by
    rw [BitVec.toInt_eq_toNat_cond]
    split
    · exact Int.le_refl _
    · omega
  have hmod : (BitVec.ofNat 32 n).toNat ≤ n := by
    rw [BitVec.toNat_ofNat]
    exact Nat.mod_le _ _
  unfold narrowCastInt
  omega

/-- The loop leaves nothing out, even if `sent` wraps around. -/
theorem length_le_of_sentLoop {fuel sent : Nat} {calls : List IbcastCall}
    (h : sentLoop mem fuel sent = some calls) :
    mem.size ≤ sent + (calls.flatMap IbcastCall.bytes).length := by
  induction fuel generalizing sent calls with
  | zero => cases h
  | succ fuel ih =>
    rw [sentLoop] at h
    by_cases hlt : sent < mem.size
    · rw [if_pos hlt] at h
      obtain ⟨rest, hrest, hcalls⟩ := Option.bind_eq_some_iff.mp h
      cases hcalls
      have htail := ih hrest
      have hwrap : wrap (sent + intMax) ≤ sent + intMax := Nat.mod_le _ _
      have hcast := narrowCastInt_of_le (Nat.min_le_left intMax (mem.size - sent))
      rw [List.flatMap_cons, List.length_append, IbcastCall.bytes, List.length_range']
      simp only [hcast, Int.toNat_natCast]
      omega
    · omega

theorem length_le_of_syncAreasCalls {fuel : Nat} {calls : List (List IbcastCall)}
    (h : syncAreasCalls fuel areas = some calls) :
    (areas.flatMap fun mem => List.range' mem.data mem.size).length ≤
      (calls.flatten.flatMap IbcastCall.bytes).length := by
  induction areas generalizing calls with
  | nil => exact Nat.zero_le _
  | cons mem areas ih =>
    obtain ⟨first, hfirst, h⟩ := Option.bind_eq_some_iff.mp h
    obtain ⟨rest, hrest, hcalls⟩ := Option.bind_eq_some_iff.mp h
    cases hcalls
    have hhead := length_le_of_sentLoop hfirst
    have htail := ih hrest
    rw [List.flatMap_cons, List.length_append, List.length_range', List.flatten_cons,
      List.flatMap_append, List.length_append]
    omega

/-- A variable that does not fit loses bytes. -/
theorem lost_of_large (areas : List MemArea) (hbad : ∃ area ∈ areas, intMax < area.size) :
    (areas.flatMap fun area => (fortranCall area).bytes).length <
      (areas.flatMap fun mem => List.range' mem.data mem.size).length := by
  have hle : ∀ areas : List MemArea,
      (areas.flatMap fun area => (fortranCall area).bytes).length ≤
        (areas.flatMap fun mem => List.range' mem.data mem.size).length := by
    intro areas
    induction areas with
    | nil => exact Nat.le_refl 0
    | cons area areas ih =>
      have := narrowCastInt_toNat_le area.size
      simp only [List.flatMap_cons, List.length_append, IbcastCall.bytes, fortranCall,
        List.length_range'] at ih ⊢
      omega
  induction areas with
  | nil =>
    obtain ⟨_, hmem, -⟩ := hbad
    cases hmem
  | cons area areas ih =>
    have hhead := narrowCastInt_toNat_le area.size
    have hrest := hle areas
    have hcount := narrowCastInt_le area.size
    simp only [List.flatMap_cons, List.length_append, IbcastCall.bytes, fortranCall,
      List.length_range'] at ih hrest ⊢
    by_cases hlarge : area.size ≤ intMax
    · obtain ⟨bad, hmem, hsize⟩ := hbad
      have htail : bad ∈ areas := (List.mem_cons.mp hmem).resolve_left fun heq =>
        absurd (heq ▸ hsize) (Nat.not_lt.mpr hlarge)
      have := ih ⟨bad, htail, hsize⟩
      omega
    · omega

/-- Small variables go out as they are. -/
theorem fortranCall_bytes (h : ∀ area ∈ areas, area.size ≤ intMax) :
    (areas.flatMap fun area => (fortranCall area).bytes) =
      (areas.map areaCalls).flatten.flatMap IbcastCall.bytes := by
  rw [← List.flatMap_def, List.flatMap_assoc]
  refine List.flatMap_congr fun area harea => ?_
  show List.range' area.data (narrowCastInt area.size).toNat = (areaCalls area).flatMap _
  rw [areaCalls_bytes, narrowCastInt_of_le (h area harea), Int.toNat_natCast]

theorem sizes_of_synced (h : SyncedLikeAreas ndebug areas) :
    ∀ area ∈ areas, area.size ≤ intMax := by
  have hcap : 0 < bufferSize := by decide
  have hinit := Inv.initial bufferSize areas
  by_contra hlarge
  push Not at hlarge
  obtain ⟨large, hmem, hsize⟩ := hlarge
  have hall : ∀ area ∈ areas, sizeAssert ndebug area = true := by
    intro area harea
    cases hassert : sizeAssert ndebug area with
    | true => rfl
    | false =>
      obtain ⟨s, hleads, haborted⟩ := leads_aborted hcap ⟨area, harea, hassert⟩ hinit rfl
      exact absurd haborted (h.runs s (Leads.of_reachable (.init rfl) hleads))
  obtain ⟨s, hleads, hreturned⟩ := leads_returned hcap hall hinit rfl
  have hs : LTS.Reachable (fortranIbcasts ndebug areas) s := Leads.of_reachable (.init rfl) hleads
  obtain ⟨calls, ⟨n, hcalls⟩, hbytes⟩ := h.bytes
  have hlost := lost_of_large areas ⟨large, hmem, hsize⟩
  have hkept := length_le_of_syncAreasCalls (hcalls n (Nat.le_refl n))
  rw [← hbytes s hs hreturned, fortranBytes, (inv hcap hs).all_started hreturned] at hkept
  exact absurd hlost (Nat.not_lt.mpr hkept)

theorem synced_of_sizes (h : ∀ area ∈ areas, area.size ≤ intMax) :
    SyncedLikeAreas ndebug areas := by
  have hcap : 0 < bufferSize := by decide
  have hok : ∀ area ∈ areas, sizeAssert ndebug area = true := fun area harea => by
    rw [sizeAssert, decide_eq_true (h area harea), Bool.or_true]
  have hlt : ∀ area ∈ areas, area.size < 2 ^ 31 := fun area harea =>
    Nat.lt_of_le_of_lt (h area harea) (by decide)
  refine
    { runs := fun s hs => ne_aborted hcap hok hs
      ends := fun s hs => exists_returned hcap hok (inv hcap hs) (ne_aborted hcap hok hs)
      counts := ?counts
      bytes := ⟨areas.map areaCalls, ⟨2 ^ 31, ?calls⟩, ?bytes⟩
      quiet := ?quiet }
  case counts =>
    intro s hs area harea
    have hsmall := h area ((inv hcap hs).started.subset harea)
    simp only [fortranCall, narrowCastInt_of_le hsmall]
    omega
  case calls =>
    intro fuel hfuel
    exact syncAreasCalls_eq (fun area harea => Nat.lt_trans (hlt area harea) (by decide))
      fun area harea => Nat.lt_of_lt_of_le (hlt area harea) hfuel
  case bytes =>
    intro s hs hreturned
    rw [fortranBytes, (inv hcap hs).all_started hreturned, fortranCall_bytes h]
  case quiet =>
    intro s hs hreturned
    rw [RequestWindow.State.outstanding, List.filter_eq_nil_iff]
    intro r hr
    rw [(inv hcap hs).returned hreturned r (List.mem_range.mp hr)]
    decide

end

/-- In either build, the variables are synchronised exactly when none is too large. -/
theorem fortran_synced_iff (ndebug : Bool) (areas : List MemArea) :
    SyncedLikeAreas ndebug areas ↔ ∀ area ∈ areas, area.size ≤ intMax :=
  ⟨sizes_of_synced, synced_of_sizes⟩

/-- An array of 2 GiB is broadcast with a negative count, or stops the debug build. -/
theorem fortran_not_synced : (fortranCall ⟨4096, 2 ^ 31⟩).count = -2 ^ 31 ∧
    ∀ ndebug, ¬ SyncedLikeAreas ndebug [⟨4096, 2 ^ 31⟩] := by
  refine ⟨by decide, fun ndebug h => ?_⟩
  exact absurd (sizes_of_synced h ⟨4096, 2 ^ 31⟩ List.mem_cons_self) (by decide)

end SimpleParallel.Sync
