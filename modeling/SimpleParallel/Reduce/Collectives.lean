import SimpleParallel.Lib.Collective
import SimpleParallel.Lib.Elementwise
import SimpleParallel.Lib.Spans
import SimpleParallel.Reduce.Area
import SimpleParallel.Sync.PageRounding

/-!
# Collectives with a size_t count

`bigmpi::Bcast`, `AllReduce` and `Reduce` as programs of the ranks of a communicator, with
`size_t` as a 64-bit word. Each loops over chunks of at most `INT_MAX` elements and returns
the first code that is not `MPI_SUCCESS`.

* `chunkLoop_eq`: up to `2 ^ 63` bytes the loop makes the calls of the chunks in turn.
* `performs_call`: what a collective leaves on the ranks, of any count; `result_bcast` and
  `result_reduce`: for the broadcasts of areas and for reduce areas this is what `Bigmpi` and
  `Area` compute.
* `chunked_collectives`: the chunks tile the elements, a failure stops the loop, and together
  the ranks perform what one call on all elements performs.
-/

namespace SimpleParallel.Reduce

open Collective Elementwise Loops Sync
open Sync.Word (boostAssert boostAssert_true)

/-! ## The calls of MPI -/

/-- A buffer argument: `MPI_IN_PLACE`, a null pointer, or an address. -/
inductive BufArg
  | inPlace
  | null
  | addr (a : Nat)
  deriving DecidableEq

/-- A collective call of one rank in `ι`, with operations in `ο`. -/
inductive Call (ι ο : Type)
  | bcast (buffer : Nat) (count : Int) (datatype : MpiDatatype) (root : ι)
  | allreduce (sendbuf recvbuf : BufArg) (count : Int) (datatype : MpiDatatype) (op : ο)
  | reduce (sendbuf recvbuf : BufArg) (count : Int) (datatype : MpiDatatype) (op : ο) (root : ι)

/-- `MPI_SUCCESS`. -/
def mpiSuccess : Int := 0

/-- `MPI_BYTE`. -/
def MpiDatatype.byte : MpiDatatype := .other "MPI_BYTE" 1

variable {ι ο : Type}

namespace Call

/-- The address of a call's data: of a pair of buffers, the one that has an address. -/
def buffer : Call ι ο → Option Nat
  | bcast a _ _ _ => some a
  | allreduce (.addr a) _ _ _ _ | reduce (.addr a) _ _ _ _ _ => some a
  | allreduce _ (.addr a) _ _ _ | reduce _ (.addr a) _ _ _ _ => some a
  | _ => none

def size : Call ι ο → Nat
  | bcast _ count datatype _ => count.toNat * datatype.size
  | allreduce _ _ count datatype _ => count.toNat * datatype.size
  | reduce _ _ count datatype _ _ => count.toNat * datatype.size

/-- The bytes of the call's data. -/
def Touches (c : Call ι ο) (x : Nat) : Prop := ∃ a ∈ c.buffer, a ≤ x ∧ x < a + c.size

/-- What any answer to a call, with or without an error, does to the memory of the rank. -/
def Keeps (c : Call ι ο) (m m' : Mem) : Prop := ∀ x, ¬ c.Touches x → m' x = m x

end Call

/-- What the matching calls of all ranks leave when they succeed. `combine` says what an
operation makes of the elements that the ranks contribute. -/
inductive Performs [DecidableEq ι] (combine : ο → MpiDatatype → (ι → Nat) → Nat) :
    (ι → Call ι ο) → (ι → Mem) → (ι → Mem) → Prop
  | bcast (buffer : ι → Nat) (count : Nat) (datatype : MpiDatatype) (root : ι) (w : ι → Mem) :
      Performs combine (fun i => .bcast (buffer i) count datatype root) w
        (elementwise (fun v => v root) (· ≠ root) datatype.size buffer count w)
  | allreduce (recvbuf : ι → Nat) (count : Nat) (datatype : MpiDatatype) (op : ο)
      (w : ι → Mem) :
      Performs combine (fun i => .allreduce .inPlace (.addr (recvbuf i)) count datatype op) w
        (elementwise (combine op datatype) (fun _ => True) datatype.size recvbuf count w)
  | reduce (buffer : ι → Nat) (count : Nat) (datatype : MpiDatatype) (op : ο) (root : ι)
      (w : ι → Mem) :
      Performs combine
        (fun i => if i = root then .reduce .inPlace (.addr (buffer i)) count datatype op root
          else .reduce (.addr (buffer i)) .null count datatype op root) w
        (elementwise (combine op datatype) (· = root) datatype.size buffer count w)

/-! ## bigmpi -/

section

variable (ndebug : Bool)

def getMpiTypeSizeFallback (datatype : MpiDatatype) : Nat := datatype.size

def getMpiTypeSize (datatype : MpiDatatype) : Except String Nat :=
  if datatype = .byte then do
    boostAssert ndebug "get_mpi_type_size_fallback(datatype) == 1"
      (getMpiTypeSizeFallback datatype == 1)
    return 1
  else if datatype = .double then do
    boostAssert ndebug "get_mpi_type_size_fallback(datatype) == sizeof(double)"
      (getMpiTypeSizeFallback datatype == 8)
    return 8
  else if datatype = .int then do
    boostAssert ndebug "get_mpi_type_size_fallback(datatype) == sizeof(int)"
      (getMpiTypeSizeFallback datatype == 4)
    return 4
  else if datatype = .float then do
    boostAssert ndebug "get_mpi_type_size_fallback(datatype) == sizeof(float)"
      (getMpiTypeSizeFallback datatype == 4)
    return 4
  else return getMpiTypeSizeFallback datatype

/-- Programs whose calls return a code. -/
abbrev MpiProg (ι ο : Type) := Prog (Call ι ο) Int

/-- The loop of the three functions, from `sent` on: `for (size_t sent = 0; sent < count;
sent += int_max)`, with the call for an offset in bytes and an `int` count. -/
def chunkLoop (call : Nat → Int → Call ι ο) (elemSize count : Nat) :
    Nat → Nat → MpiProg ι ο (Option Int)
  | 0, _ => pure none
  | fuel + 1, sent =>
    if sent < count then do
      let thisIterCount := narrowCastInt (min intMax (count - sent))
      let ret ← Prog.issue (call (wrap (sent * elemSize)) thisIterCount)
      if ret ≠ mpiSuccess then return some ret
      else chunkLoop call elemSize count fuel (wrap (sent + intMax))
    else return some mpiSuccess

def bcast (fuel buffer count : Nat) (datatype : MpiDatatype) (root : ι) :
    Except String (MpiProg ι ο (Option Int)) := do
  let elemSize ← getMpiTypeSize ndebug datatype
  boostAssert ndebug "elem_size > 0" (0 < elemSize)
  return chunkLoop (fun offset n => .bcast (buffer + offset) n datatype root) elemSize count fuel 0

def allReduce (fuel recvbuf count : Nat) (datatype : MpiDatatype) (op : ο) :
    Except String (MpiProg ι ο (Option Int)) := do
  let elemSize ← getMpiTypeSize ndebug datatype
  boostAssert ndebug "elem_size > 0" (0 < elemSize)
  return chunkLoop (fun offset n => .allreduce .inPlace (.addr (recvbuf + offset)) n datatype op)
    elemSize count fuel 0

def reduce [DecidableEq ι] (fuel : Nat) (myRank : ι) (buffer count : Nat) (datatype : MpiDatatype)
    (op : ο) (rootRank : ι) : Except String (MpiProg ι ο (Option Int)) := do
  let elemSize ← getMpiTypeSize ndebug datatype
  boostAssert ndebug "elem_size > 0" (0 < elemSize)
  return chunkLoop (fun offset n =>
    if myRank = rootRank then .reduce .inPlace (.addr (buffer + offset)) n datatype op rootRank
    else .reduce (.addr (buffer + offset)) .null n datatype op rootRank) elemSize count fuel 0

end

/-- One of the three functions, with its root and operation. -/
inductive Routine (ι ο : Type)
  | bcast (root : ι)
  | allReduce (op : ο)
  | reduce (op : ο) (root : ι)

namespace Routine

variable [DecidableEq ι]

/-- The function as rank `i` runs it. -/
def bigmpi (routine : Routine ι ο) (ndebug : Bool) (fuel : Nat) (i : ι) (buffer count : Nat)
    (datatype : MpiDatatype) : Except String (MpiProg ι ο (Option Int)) :=
  match routine with
  | bcast root => Reduce.bcast ndebug fuel buffer count datatype root
  | allReduce op => Reduce.allReduce ndebug fuel buffer count datatype op
  | reduce op root => Reduce.reduce ndebug fuel i buffer count datatype op root

/-- The call of rank `i` for `count` elements at an address. -/
def call (routine : Routine ι ο) (datatype : MpiDatatype) (i : ι) (buffer : Nat) (count : Int) :
    Call ι ο :=
  match routine with
  | bcast root => .bcast buffer count datatype root
  | allReduce op => .allreduce .inPlace (.addr buffer) count datatype op
  | reduce op root =>
    if i = root then .reduce .inPlace (.addr buffer) count datatype op root
    else .reduce (.addr buffer) .null count datatype op root

/-- The calls of rank `i` for ranges of the elements at an address. -/
def calls (routine : Routine ι ο) (datatype : MpiDatatype) (i : ι) (buffer : Nat)
    (spans : List (Nat × Nat)) : List (Call ι ο) :=
  spans.map fun span =>
    routine.call datatype i (buffer + span.1 * datatype.size) (span.2 - span.1 : Nat)

/-- The memories after one call on `count` elements. -/
def result (routine : Routine ι ο) (combine : ο → MpiDatatype → (ι → Nat) → Nat)
    (datatype : MpiDatatype) (buffer : ι → Nat) (count : Nat) (w : ι → Mem) : ι → Mem :=
  match routine with
  | bcast root => elementwise (fun v => v root) (· ≠ root) datatype.size buffer count w
  | allReduce op => elementwise (combine op datatype) (fun _ => True) datatype.size buffer count w
  | reduce op root => elementwise (combine op datatype) (· = root) datatype.size buffer count w

end Routine

/-- What all ranks have to agree on in a call. -/
def Call.arguments : Call ι ο → Routine ι ο × Int × MpiDatatype
  | .bcast _ count datatype root => (.bcast root, count, datatype)
  | .allreduce _ _ count datatype op => (.allReduce op, count, datatype)
  | .reduce _ _ count datatype op root => (.reduce op root, count, datatype)

/-- A run whose calls are those of a list in turn. A failure is returned, ends the run, and
leaves the data of the calls after it alone. -/
def Stops (calls : List (Call ι ο)) (m : Mem) (t : List (Call ι ο × Int)) (code : Option Int)
    (m' : Mem) : Prop :=
  (code = some mpiSuccess ∧ t = calls.map fun c => (c, mpiSuccess)) ∨
    ∃ done c rest ret, calls = done ++ c :: rest ∧ ret ≠ mpiSuccess ∧ code = some ret ∧
      t = done.map (fun c => (c, mpiSuccess)) ++ [(c, ret)] ∧
      ∀ d ∈ rest, ∀ x, d.Touches x → m' x = m x

/-! ## One rank -/

section

variable [DecidableEq ι] {routine : Routine ι ο} {ndebug : Bool} {datatype : MpiDatatype}
  {fuel sent count buffer x : Nat} {i : ι}

/-- The size of a datatype that is known is asserted and returned. -/
theorem asserted_eq {expr : String} {n : Nat} (h : datatype.size = n) :
    (do
      boostAssert ndebug expr (getMpiTypeSizeFallback datatype == n)
      return n : Except String Nat) = .ok datatype.size := by
  rw [getMpiTypeSizeFallback, h, beq_self_eq_true, boostAssert_true]
  rfl

theorem getMpiTypeSize_eq : getMpiTypeSize ndebug datatype = .ok datatype.size := by
  unfold getMpiTypeSize
  split
  · next h => exact asserted_eq (by rw [h]; rfl)
  · split
    · next h => exact asserted_eq (by rw [h]; rfl)
    · split
      · next h => exact asserted_eq (by rw [h]; rfl)
      · split
        · next h => exact asserted_eq (by rw [h]; rfl)
        · rfl

/-- The first lines of the three functions. -/
theorem elemSize_eq {α : Type} {f : Nat → Except String α} (hsize : 0 < datatype.size) :
    (do
      let elemSize ← getMpiTypeSize ndebug datatype
      boostAssert ndebug "elem_size > 0" (0 < elemSize)
      f elemSize) = f datatype.size := by
  have hassert : boostAssert ndebug "elem_size > 0" (0 < datatype.size) = .ok () := by
    rw [decide_eq_true hsize, boostAssert_true]
  rw [getMpiTypeSize_eq]
  show (boostAssert ndebug "elem_size > 0" (0 < datatype.size) >>= _) = _
  rw [hassert]
  rfl

theorem bigmpi_eq (hsize : 0 < datatype.size) :
    routine.bigmpi ndebug fuel i buffer count datatype =
      .ok (chunkLoop (fun offset n => routine.call datatype i (buffer + offset) n) datatype.size
        count fuel 0) := by
  cases routine with
  | bcast root => exact elemSize_eq hsize
  | allReduce op => exact elemSize_eq hsize
  | reduce op root => exact elemSize_eq hsize

/-- Where the loop goes on, neither the offset nor the next `sent` wraps. -/
theorem wrap_of_lt {elemSize : Nat} (hsize : 0 < elemSize) (hcount : count * elemSize ≤ 2 ^ 63)
    (hlt : sent < count) :
    wrap (sent + intMax) = sent + intMax ∧ wrap (sent * elemSize) = sent * elemSize := by
  have hcount' : count ≤ count * elemSize := Nat.le_mul_of_pos_right count hsize
  have hoffset : sent * elemSize ≤ count * elemSize :=
    Nat.mul_le_mul_right elemSize (Nat.le_of_lt hlt)
  have hintMax : intMax < 2 ^ 31 := by decide
  exact ⟨Nat.mod_eq_of_lt (by omega), Nat.mod_eq_of_lt (by omega)⟩

omit [DecidableEq ι] in
/-- The loop makes the calls of its chunks in turn. -/
theorem chunkLoop_eq {call : Nat → Int → Call ι ο} {elemSize : Nat} (hsize : 0 < elemSize)
    (hcount : count * elemSize ≤ 2 ^ 63) (hfuel : count - sent < fuel) :
    chunkLoop call elemSize count fuel sent =
      inTurn mpiSuccess some ((chunksFrom intMax sent count).map fun c =>
        call (c.1 * elemSize) c.2) := by
  induction fuel generalizing sent with
  | zero => exact absurd hfuel (Nat.not_lt_zero _)
  | succ fuel ih =>
    by_cases hlt : sent < count
    · obtain ⟨hnext, hoffset⟩ := wrap_of_lt hsize hcount hlt
      have hpos : 0 < intMax := by decide
      have hcast := narrowCastInt_of_le (Nat.min_le_left intMax (count - sent))
      rw [chunkLoop, if_pos hlt, chunksFrom_cons hlt hpos, List.map_cons, inTurn, hnext, hoffset,
        hcast, ih (by omega)]
      rfl
    · -- `sent` has come to the end, or past it with the last chunk
      rw [chunkLoop, if_neg hlt, chunksFrom_nil (by omega)]
      rfl

/-- The chunks as ranges of elements. -/
def chunkSpans (count : Nat) : List (Nat × Nat) :=
  (chunks intMax count).map fun c => (c.1, c.1 + c.2)

theorem chunks_tiles {max : Nat} (hmax : 0 < max) (hle : sent ≤ count) :
    Tiles sent count ((chunksFrom max sent count).map fun c => (c.1, c.1 + c.2)) := by
  induction sent using chunksFrom.induct max count with
  | case1 sent hlt ih =>
    have hpos : 0 < min max (count - sent) := Nat.lt_min.mpr ⟨hmax, Nat.sub_pos_of_lt hlt.1⟩
    rw [chunksFrom_cons hlt.1 hmax, List.map_cons]
    refine ⟨rfl, Nat.lt_add_of_pos_right hpos, ?_⟩
    by_cases hlast : sent + max ≤ count
    · rw [Nat.min_eq_left (by omega)]
      exact ih hlast
    · rw [Nat.min_eq_right (by omega), chunksFrom_nil (by omega)]
      exact Nat.add_sub_cancel' hle
  | case2 sent hnot =>
    rw [chunksFrom_nil (by omega)]
    show sent = count
    omega

theorem chunkSpans_tiles : Tiles 0 count (chunkSpans count) :=
  chunks_tiles (by decide) (Nat.zero_le count)

theorem chunkSpans_count {span : Nat × Nat} (h : span ∈ chunkSpans count) :
    1 ≤ span.2 - span.1 ∧ span.2 - span.1 ≤ intMax := by
  obtain ⟨c, hc, rfl⟩ := List.mem_map.mp h
  obtain ⟨-, hpos, hle, -⟩ := chunk_bounds (by decide) hc
  show 1 ≤ c.1 + c.2 - c.1 ∧ c.1 + c.2 - c.1 ≤ intMax
  rw [Nat.add_sub_cancel_left]
  exact ⟨hpos, hle⟩

theorem calls_chunkSpans : routine.calls datatype i buffer (chunkSpans count) =
    (chunks intMax count).map fun c =>
      routine.call datatype i (buffer + c.1 * datatype.size) c.2 := by
  rw [Routine.calls, chunkSpans, List.map_map]
  refine List.map_congr_left fun c _ => ?_
  show routine.call datatype i _ ((c.1 + c.2 - c.1 : Nat) : Int) = _
  rw [Nat.add_sub_cancel_left]

/-- Each of the three functions makes the calls of its chunks in turn. -/
theorem bigmpi_inTurn (hsize : 0 < datatype.size) (hcount : count * datatype.size ≤ 2 ^ 63)
    (hfuel : count < fuel) : routine.bigmpi ndebug fuel i buffer count datatype =
      .ok (inTurn mpiSuccess some (routine.calls datatype i buffer (chunkSpans count))) := by
  rw [bigmpi_eq hsize, chunkLoop_eq hsize hcount (by omega), calls_chunkSpans, chunks]

theorem arguments_call {n : Int} :
    (routine.call datatype i buffer n).arguments = (routine, n, datatype) := by
  cases routine with
  | bcast root => rfl
  | allReduce op => rfl
  | reduce op root =>
    unfold Routine.call
    dsimp only
    split
    · rfl
    · rfl

theorem buffer_call {n : Int} :
    (routine.call datatype i buffer n).buffer = some buffer := by
  cases routine with
  | bcast root => rfl
  | allReduce op => rfl
  | reduce op root =>
    unfold Routine.call
    dsimp only
    split
    · rfl
    · rfl

/-- The data of a call for `n` elements. -/
theorem touches_call {n : Nat} : (routine.call datatype i buffer n).Touches x ↔
    buffer ≤ x ∧ x < buffer + n * datatype.size := by
  unfold Call.Touches
  cases routine with
  | bcast root => simp [Routine.call, Call.buffer, Call.size]
  | allReduce op => simp [Routine.call, Call.buffer, Call.size]
  | reduce op root =>
    by_cases h : i = root <;> simp [Routine.call, h, Call.buffer, Call.size]

/-- The data of a call is after that of the calls before it. -/
theorem calls_disjoint {done rest : List (Call ι ο)} {c : Call ι ο}
    (h : routine.calls datatype i buffer (chunkSpans count) = done ++ c :: rest) {d e : Call ι ο}
    (hd : d ∈ rest) (he : e ∈ done ∨ e = c) (hx : d.Touches x) : ¬ e.Touches x := by
  rw [calls_chunkSpans] at h
  obtain ⟨first, last, hsplit, rfl, hlast⟩ := List.map_eq_append_iff.mp h
  obtain ⟨s, later, rfl, rfl, rfl⟩ := List.map_eq_cons_iff.mp hlast
  have hpairwise : (chunks intMax count).Pairwise fun c d => c.1 + c.2 ≤ d.1 :=
    chunks_pairwise (by decide)
  rw [hsplit, List.pairwise_append] at hpairwise
  obtain ⟨-, hrest, hcross⟩ := hpairwise
  obtain ⟨q, hq, rfl⟩ := List.mem_map.mp hd
  -- the earlier call is of a chunk that ends where the later one begins, or before
  have hbefore : ∃ r : Nat × Nat,
      e = routine.call datatype i (buffer + r.1 * datatype.size) r.2 ∧ r.1 + r.2 ≤ q.1 := by
    rcases he with he | rfl
    · obtain ⟨r, hr, rfl⟩ := List.mem_map.mp he
      exact ⟨r, rfl, hcross r hr q (List.mem_cons_of_mem _ hq)⟩
    · exact ⟨s, rfl, (List.pairwise_cons.mp hrest).1 q hq⟩
  obtain ⟨r, rfl, hle⟩ := hbefore
  have hbytes : r.1 * datatype.size + r.2 * datatype.size ≤ q.1 * datatype.size := by
    rw [← Nat.add_mul]
    exact Nat.mul_le_mul_right _ hle
  rw [touches_call] at hx ⊢
  omega

/-- A run of one rank stops at the first failure. -/
theorem run_stops {m m' : Mem} {t : List (Call ι ο × Int)} {code : Option Int}
    (h : Run Call.Keeps
      (inTurn mpiSuccess some (routine.calls datatype i buffer (chunkSpans count))) m t code m') :
    Stops (routine.calls datatype i buffer (chunkSpans count)) m t code m' := by
  rcases run_inTurn h with hall | ⟨done, c, rest, ret, hcalls, hret, hcode, ht⟩
  · exact Or.inl hall
  · refine Or.inr ⟨done, c, rest, ret, hcalls, hret, hcode, ht, fun d hd x hx => ?_⟩
    -- no call that was made has this byte
    refine h.invariant (P := fun u => u x = m x) (fun e he u u' hkeeps hu => ?_) rfl
    rw [ht, List.map_append, List.map_map] at he
    have he' : e ∈ done ∨ e = c := by simpa using he
    rw [hkeeps x (calls_disjoint hcalls hd he' hx), hu]

end

/-! ## All ranks -/

section

variable [DecidableEq ι] {routine : Routine ι ο} {datatype : MpiDatatype} {buffer : ι → Nat}
  {combine : ο → MpiDatatype → (ι → Nat) → Nat} {w w' : ι → Mem} {n k : Nat}

theorem result_zero : routine.result combine datatype buffer 0 w = w := by
  cases routine with
  | bcast root => exact elementwise_zero
  | allReduce op => exact elementwise_zero
  | reduce op root => exact elementwise_zero

/-- One call after another on adjoining elements is one call on all of them. -/
theorem result_append : routine.result combine datatype (fun i => buffer i + n * datatype.size) k
      (routine.result combine datatype buffer n w) =
    routine.result combine datatype buffer (n + k) w := by
  cases routine with
  | bcast root => exact elementwise_append
  | allReduce op => exact elementwise_append
  | reduce op root => exact elementwise_append

theorem performs_iff {c : ι → Call ι ο} : Performs combine c w w' ↔
    ∃ (routine : Routine ι ο) (datatype : MpiDatatype) (buffer : ι → Nat) (n : Nat),
      c = (fun i => routine.call datatype i (buffer i) n) ∧
        w' = routine.result combine datatype buffer n w := by
  constructor
  · intro h
    cases h with
    | bcast buffer n datatype root => exact ⟨.bcast root, datatype, buffer, n, rfl, rfl⟩
    | allreduce buffer n datatype op => exact ⟨.allReduce op, datatype, buffer, n, rfl, rfl⟩
    | reduce buffer n datatype op root => exact ⟨.reduce op root, datatype, buffer, n, rfl, rfl⟩
  · rintro ⟨routine, datatype, buffer, n, rfl, rfl⟩
    cases routine with
    | bcast root => exact .bcast buffer n datatype root w
    | allReduce op => exact .allreduce buffer n datatype op w
    | reduce op root => exact .reduce buffer n datatype op root w

/-- What matching calls of all ranks leave is determined. -/
theorem performs_call [Nonempty ι] :
    Performs combine (fun i => routine.call datatype i (buffer i) n) w w' ↔
      w' = routine.result combine datatype buffer n w := by
  rw [performs_iff]
  constructor
  · rintro ⟨routine', datatype', buffer', n', hcalls, rfl⟩
    -- the addresses may differ from rank to rank, the other arguments are those of any rank
    have hbuffer : buffer = buffer' := by
      funext i
      have := congrArg Call.buffer (congrFun hcalls i)
      rwa [buffer_call, buffer_call, Option.some_inj] at this
    obtain ⟨i⟩ := ‹Nonempty ι›
    have harguments := congrArg Call.arguments (congrFun hcalls i)
    rw [arguments_call, arguments_call, Prod.mk.injEq, Prod.mk.injEq, Int.ofNat_inj] at harguments
    obtain ⟨rfl, rfl, rfl⟩ := harguments
    rw [hbuffer]
  · rintro rfl
    exact ⟨routine, datatype, buffer, n, rfl, rfl⟩

/-- What a collective leaves differs only in the data of the calls. -/
theorem performs_keeps {c : ι → Call ι ο} (h : Performs combine c w w') (i : ι) :
    (c i).Keeps (w i) (w' i) := by
  obtain ⟨routine, datatype, buffer, n, rfl, rfl⟩ := performs_iff.mp h
  intro x hx
  rw [touches_call] at hx
  unfold Routine.result
  cases routine with
  | bcast root => exact elementwise_out hx
  | allReduce op => exact elementwise_out hx
  | reduce op root => exact elementwise_out hx

/-- What the ranks do together, each of them can do alone. -/
theorem joint_run {p : ι → MpiProg ι ο (Option Int)} {code : ι → Option Int}
    (h : Joint (Performs combine) mpiSuccess p w code w') (i : ι) :
    ∃ t, Run Call.Keeps (p i) (w i) t (code i) (w' i) ∧ ∀ e ∈ t, e.2 = mpiSuccess :=
  h.run (fun _ _ _ => performs_keeps) i

/-- Together the ranks perform what one call on all elements performs. -/
theorem joint_iff [Nonempty ι] {count : Nat} {code : ι → Option Int} :
    Joint (Performs combine) mpiSuccess
        (fun i => inTurn mpiSuccess some (routine.calls datatype i (buffer i) (chunkSpans count)))
        w code w' ↔
      (∀ i, code i = some mpiSuccess) ∧ w' = routine.result combine datatype buffer count w := by
  have hfold : (chunks intMax count).foldl (fun w c => routine.result combine datatype
      (fun i => buffer i + c.1 * datatype.size) c.2 w) w =
      routine.result combine datatype (fun i => buffer i + 0 * datatype.size) count w :=
    foldl_chunks
      (fun w a n => routine.result combine datatype (fun i => buffer i + a * datatype.size) n w)
      (by decide) (fun _ => result_zero)
      (fun w a n k => by
        have hstart : (fun i => buffer i + (a + n) * datatype.size) =
            fun i => buffer i + a * datatype.size + n * datatype.size := by
          funext i
          rw [Nat.add_mul, ← Nat.add_assoc]
        rw [hstart]
        exact result_append) w
  simp only [Nat.zero_mul, Nat.add_zero] at hfold
  simp only [calls_chunkSpans]
  rw [joint_inTurn fun c _ w w' => performs_call, hfold]

/-- At one address, a broadcast of bytes is a chunked copy from the root. -/
theorem result_bcast {root i : ι} {addr : Nat} :
    (Routine.bcast root).result combine .byte (fun _ => addr) n w i =
      bcastRange (w root) addr n (w i) := by
  rw [bcastRange_eq]
  funext x
  show (if i ≠ root then Mem.writeElems (fun j => (w root).load (addr + j * 1) 1) addr 1 n (w i)
    else w i) x = _
  by_cases hi : i = root
  · rw [if_neg (not_not.mpr hi), hi, Mem.copyRange_eq rfl]
  · rw [if_pos hi]
    by_cases hx : addr ≤ x ∧ x < addr + n
    · have hread : Mem.writeElems (fun j => (w root).load (addr + j * 1) 1) addr 1 n (w i) x =
          w root (addr + (x - addr)) := Mem.writeElems_load (by omega)
      rw [Mem.copyRange_in hx, hread, Nat.add_sub_cancel' hx.1]
    · rw [Mem.copyRange_out hx, Mem.writeElems_out (by omega)]

/-- At one address, a reduction over the workers is that of a reduce area. -/
theorem result_reduce {fsum : FloatSum} {root : ι} {workers : List ι} {r : ReduceArea} :
    (Routine.reduce r.op root).result
        (fun op type v => workers.foldl (fun acc i => op.combine fsum type acc (v i)) (v root))
        r.type (fun _ => r.begin) r.count w root =
      r.reduce fsum (workers.map w) (w root) := by
  rw [reduce_apply, mpiReduce_eq]
  refine (if_pos rfl).trans (congrArg (fun f => Mem.writeElems f _ _ _ _) (funext fun j => ?_))
  rw [reducedElem, List.foldl_map]
  rfl

end

/-! ## The three functions -/

/-- For every buffer of at most `2 ^ 63` bytes: the loop counter and the offsets do not wrap,
the calls of each rank tile the elements with counts that fit an `int`, a failure is returned
at once, and if all calls succeed the ranks perform one call on all elements. -/
theorem chunked_collectives [DecidableEq ι] [Nonempty ι] (routine : Routine ι ο)
    (combine : ο → MpiDatatype → (ι → Nat) → Nat) (ndebug : Bool) {fuel count : Nat}
    {datatype : MpiDatatype} (buffer : ι → Nat) (hsize : 0 < datatype.size)
    (hcount : count * datatype.size ≤ 2 ^ 63) (hfuel : count < fuel) :
    (∀ sent < count,
      wrap (sent + intMax) = sent + intMax ∧
        wrap (sent * datatype.size) = sent * datatype.size) ∧
    ∃ (spans : List (Nat × Nat)) (prog : ι → MpiProg ι ο (Option Int)),
      Tiles 0 count spans ∧
      (∀ span ∈ spans, 1 ≤ span.2 - span.1 ∧ span.2 - span.1 ≤ intMax) ∧
      (∀ i, routine.bigmpi ndebug fuel i (buffer i) count datatype = .ok (prog i)) ∧
      (∀ i m t code m', Run Call.Keeps (prog i) m t code m' →
        Stops (routine.calls datatype i (buffer i) spans) m t code m') ∧
      (∀ w, ∃ code w', Joint (Performs combine) mpiSuccess prog w code w') ∧
      ∀ w code w', Joint (Performs combine) mpiSuccess prog w code w' ↔
        (∀ i, code i = some mpiSuccess) ∧
          Performs combine (fun i => routine.call datatype i (buffer i) count) w w' := by
  refine ⟨fun sent hlt => wrap_of_lt hsize hcount hlt, chunkSpans count,
    fun i => inTurn mpiSuccess some (routine.calls datatype i (buffer i) (chunkSpans count)),
    chunkSpans_tiles, fun span => chunkSpans_count, fun i => bigmpi_inTurn hsize hcount hfuel,
    fun i m t code m' => run_stops, fun w => ?_, fun w code w' => ?_⟩
  · exact ⟨fun _ => some mpiSuccess, routine.result combine datatype buffer count w,
      joint_iff.mpr ⟨fun _ => rfl, rfl⟩⟩
  · rw [joint_iff, performs_call]

/-- More `int`s than `INT_MAX`, added up on the first of two ranks. -/
theorem chunked_collectives_sum :
    ∃ (spans : List (Nat × Nat)) (prog : Bool → MpiProg Bool MpiOp (Option Int)),
      Tiles 0 (2 ^ 31 + 8) spans ∧
      (∀ i, (Routine.reduce MpiOp.sum false).bigmpi true (2 ^ 32) i (if i then 4096 else 8192)
        (2 ^ 31 + 8) .int = .ok (prog i)) ∧
      ∀ w, ∃ code w', Joint (Performs fun _ _ v => (v false + v true) % 2 ^ 32) mpiSuccess prog w
        code w' := by
  obtain ⟨-, spans, prog, htiles, -, hprog, -, hjoint, -⟩ :=
    chunked_collectives (Routine.reduce MpiOp.sum false)
      (fun _ _ v => (v false + v true) % 2 ^ 32) true (fun i => if i then 4096 else 8192)
      (by decide : 0 < MpiDatatype.int.size)
      (by decide : (2 ^ 31 + 8) * MpiDatatype.int.size ≤ 2 ^ 63) (by decide : 2 ^ 31 + 8 < 2 ^ 32)
  exact ⟨spans, prog, htiles, hprog, hjoint⟩

end SimpleParallel.Reduce
