import SimpleParallel.Lib.LTS
import SimpleParallel.Lib.Stacked
import SimpleParallel.Sync.Leader

/-!
# The areas of proxy_mmap

`get_reserved_heap` with the environment it reads, and `proxy_mmap` call after call, with
pointers and lengths of 64 bits and whatever the kernel answers to each `mmap`. The calls
come one at a time: the function holds a mutex.

* `attempts_spec`: the loop leaves with an area of the heap at the bump pointer, which
  only moved by whole steps, or without one and without a trace.
* `attempts_total`: it ends. A length that makes `begin + len` wrap around does not fit the
  user address space, so the kernel refuses it until the sum reaches the end of the heap.
* `exists_mmapLoop`: its results are among those of the leader's loop.
* `proxy_mmap_disjoint`: what the calls return over a run.
-/

namespace SimpleParallel.Sync

/-! ## The reserved heap -/

/-- The variables that `get_reserved_heap` reads. -/
structure HeapEnv where
  reservedHeapAddr : Option String
  reservedHeapSize : Option String

/-- `isspace`. -/
def isSpace (c : Char) : Bool := c.val = 32 || decide (9 ≤ c.val ∧ c.val ≤ 13)

/-- The value of a hexadecimal digit. -/
def hexDigit (c : Char) : Option Nat :=
  if '0' ≤ c ∧ c ≤ '9' then some (c.toNat - '0'.toNat)
  else if 'a' ≤ c ∧ c ≤ 'f' then some (c.toNat - 'a'.toNat + 10)
  else if 'A' ≤ c ∧ c ≤ 'F' then some (c.toNat - 'A'.toNat + 10)
  else none

/-- `std::stoull(s, nullptr, 16)`; `none` is an exception. What follows the digits is
ignored, and a minus sign negates the value in 64 bits. -/
def stoull (s : String) : Option Nat :=
  let s := s.toList.dropWhile isSpace
  let negative := s.head? = some '-'
  let s := if s.head? = some '-' ∨ s.head? = some '+' then s.tail else s
  let s :=
    match s with
    | '0' :: x :: digit :: rest =>
      if (x = 'x' ∨ x = 'X') ∧ (hexDigit digit).isSome then digit :: rest else s
    | _ => s
  let digits := (s.takeWhile fun c => (hexDigit c).isSome).filterMap hexDigit
  let value := digits.foldl (fun value digit => 16 * value + digit) 0
  if digits = [] ∨ 2 ^ 64 ≤ value then none
  else some (if negative then wrap (2 ^ 64 - value) else value)

/-- `get_reserved_heap`. -/
def getReservedHeap (env : HeapEnv) : Except String MemArea := do
  let start ← match env.reservedHeapAddr with
    | none => pure 0x410000000000
    | some userSetStart =>
      match stoull userSetStart with
      | some start => pure start
      | none => throw "Failed to parse SIMPLE_PARALLEL_RESERVED_HEAP_ADDR"
  let size ← match env.reservedHeapSize with
    | none => pure 0x100000000000
    | some userSetSize =>
      match stoull userSetSize with
      | some size => pure size
      | none => throw "Failed to parse SIMPLE_PARALLEL_RESERVED_HEAP_SIZE"
  pure ⟨start, size⟩

example : stoull " 0x7f" = some 127 := by decide

/-- The reserved heap is part of the user address space: the workers map it when they
start. -/
structure HeapSetup where
  userEnd : Nat
  userEnd_le : userEnd ≤ 2 ^ 56
  env : HeapEnv
  reservedHeap : MemArea
  heap_eq : getReservedHeap env = .ok reservedHeap
  heap_le : reservedHeap.data + reservedHeap.size ≤ userEnd

namespace HeapSetup

/-- Nothing is set in the environment, and pages have four levels. -/
def default : HeapSetup where
  userEnd := 2 ^ 47
  userEnd_le := by decide
  env := ⟨none, none⟩
  reservedHeap := ⟨0x410000000000, 0x100000000000⟩
  heap_eq := rfl
  heap_le := by decide

/-- `reserved_heap.end().base()`. -/
def heapEnd (S : HeapSetup) : Nat := wrap (S.reservedHeap.data + S.reservedHeap.size)

theorem heapEnd_eq (S : HeapSetup) :
    S.heapEnd = S.reservedHeap.data + S.reservedHeap.size := by
  have := S.heap_le
  have := S.userEnd_le
  exact Nat.mod_eq_of_lt (by omega)

theorem heapEnd_le (S : HeapSetup) : S.heapEnd ≤ 2 ^ 56 := by
  rw [heapEnd_eq]
  exact Nat.le_trans S.heap_le S.userEnd_le

end HeapSetup

/-! ## The calls -/

/-- The arguments of `proxy_mmap`, but for the address, which it does not use. -/
structure MmapCall where
  len : Nat
  prot : Nat
  flags : Nat
  fileDesc : Int
  offset : Int
  len_pos : 0 < len
  len_lt : len < 2 ^ 64

/-- What the kernel answers to each attempt of a call: `MAP_FAILED` or an address. -/
structure Kernel (userEnd len : Nat) where
  answer : Nat → Option Nat
  fits : ∀ n res, answer n = some res → len ≤ userEnd

/-- `returned` lists the calls that returned, with their areas. -/
structure MmapState where
  /-- the static `begin` -/
  begin : Nat
  memoryOperations : List MemOp
  /-- the mappings that were made and not undone, the last one first -/
  mapped : List MemArea
  returned : List (MmapCall × Nat)
  terminated : Bool

/-- The `while (true)` of `proxy_mmap` from the `n`-th attempt on, with the bump pointer and
the mappings: the result, `none` when the program terminates. -/
def attempts (S : HeapSetup) (len : Nat) (answer : Nat → Option Nat) :
    Nat → Nat → Nat → List MemArea → Option (Option Nat × Nat × List MemArea)
  | 0, _, _, _ => none
  | fuel + 1, n, begin, mapped =>
    if wrap (begin + len) > S.heapEnd then some (none, begin, mapped)
    else
      match answer n with
      | none => attempts S len answer fuel (n + 1) (wrap (begin + Leader.step)) mapped
      | some res =>
        let mapped := ⟨res, len⟩ :: mapped
        if res ≠ begin then
          -- `munmap(res, len)`
          attempts S len answer fuel (n + 1) (wrap (begin + Leader.step)) (mapped.erase ⟨res, len⟩)
        else some (some res, begin, mapped)

/-- `MAP_FIXED`. -/
def mapFixed : Nat := 0x10

namespace MmapCall

/-- The `BOOST_ASSERT`s of the debug build. -/
def asserts (ndebug : Bool) (call : MmapCall) : Bool :=
  ndebug || decide (call.flags &&& mapFixed = 0 ∧ call.fileDesc = -1)

def memOp (call : MmapCall) (res : Nat) : MemOp :=
  .mmap ⟨res, call.len, call.prot, call.flags, call.fileDesc, call.offset⟩

end MmapCall

/-- `proxy_mmap`, with its own log and bump pointer. -/
def proxyMmap (S : HeapSetup) (ndebug : Bool) (call : MmapCall) (answer : Nat → Option Nat)
    (fuel : Nat) (st : MmapState) : Option MmapState :=
  if call.asserts ndebug then do
    let (res, begin, mapped) ← attempts S call.len answer fuel 0 st.begin st.mapped
    match res with
    | none => some { st with begin, mapped, terminated := true }
    | some res => some { st with
        begin := wrap (begin + wrap (Leader.roundUp call.len Leader.step))
        memoryOperations := st.memoryOperations ++ [call.memOp res]
        mapped
        returned := st.returned ++ [(call, res)] }
  else some { st with terminated := true }

/-- The program calls `proxy_mmap` again and again. -/
def proxyCalls (S : HeapSetup) (ndebug : Bool) : LTS.Sys MmapState MmapCall where
  init st := st = ⟨S.reservedHeap.data, [], [], [], false⟩
  step st call st' := st.terminated = false ∧ ∃ kernel : Kernel S.userEnd call.len, ∃ fuel,
    proxyMmap S ndebug call kernel.answer fuel st = some st'

/-! ## One call -/

section

variable {S : HeapSetup} {len fuel n begin : Nat} {answer : Nat → Option Nat}
  {mapped : List MemArea} {r : Option Nat × Nat × List MemArea}

/-- What an attempt can do: give up, take the area, or go on behind it. The mapping of an
area that went elsewhere is gone. -/
theorem attempts_cases : attempts S len answer (fuel + 1) n begin mapped = some r ↔
    (wrap (begin + len) > S.heapEnd ∧ r = (none, begin, mapped)) ∨
    (¬ wrap (begin + len) > S.heapEnd ∧ answer n = some begin ∧
      r = (some begin, begin, ⟨begin, len⟩ :: mapped)) ∨
    (¬ wrap (begin + len) > S.heapEnd ∧ answer n ≠ some begin ∧
      attempts S len answer fuel (n + 1) (wrap (begin + Leader.step)) mapped = some r) := by
  rw [attempts]
  by_cases hcheck : wrap (begin + len) > S.heapEnd
  · simp [hcheck, eq_comm]
  · rw [if_neg hcheck]
    cases hanswer : answer n with
    | none => simp [hcheck]
    | some res =>
      by_cases hres : res = begin
      · subst hres
        simp [hcheck, eq_comm]
      · simp [hcheck, hres, List.erase_cons_head]

/-- A length that fits does not wrap around. -/
theorem check_of_fits (hlen : len ≤ S.userEnd) (hbegin : begin ≤ 2 ^ 57)
    (h : ¬ wrap (begin + len) > S.heapEnd) : begin + len ≤ S.heapEnd ∧
      wrap (begin + Leader.step) = begin + Leader.step ∧ begin + Leader.step ≤ 2 ^ 57 := by
  have hend := S.heapEnd_le
  have huser := S.userEnd_le
  have hstep : Leader.step = 2 ^ 30 := rfl
  have hsum : wrap (begin + len) = begin + len := Nat.mod_eq_of_lt (by omega)
  rw [hsum] at h
  exact ⟨by omega, Nat.mod_eq_of_lt (by omega), by omega⟩

/-- What the loop leaves: nothing but the area, at the bump pointer and inside the heap. -/
structure Attempted (S : HeapSetup) (len begin : Nat) (mapped : List MemArea)
    (r : Option Nat × Nat × List MemArea) : Prop where
  mapped : r.2.2 = (r.1.map fun res => MemArea.mk res len).toList ++ mapped
  area : ∀ res, r.1 = some res → r.2.1 = res ∧ len ≤ S.userEnd ∧ begin ≤ res ∧
    Leader.step ∣ res - begin ∧ res + len ≤ S.heapEnd

theorem attempts_spec (kernel : Kernel S.userEnd len) (hbegin : len ≤ S.userEnd → begin ≤ 2 ^ 57)
    (h : attempts S len kernel.answer fuel n begin mapped = some r) :
    Attempted S len begin mapped r := by
  induction fuel generalizing n begin with
  | zero => cases h
  | succ fuel ih =>
    rcases attempts_cases.mp h with ⟨-, rfl⟩ | ⟨hcheck, hplaced, rfl⟩ | ⟨hcheck, -, h⟩
    · exact ⟨rfl, fun res hres => by cases hres⟩
    · have hlen := kernel.fits n _ hplaced
      refine ⟨rfl, fun res hres => ?_⟩
      cases hres
      refine ⟨rfl, hlen, Nat.le_refl _, ?_, (check_of_fits hlen (hbegin hlen) hcheck).1⟩
      rw [Nat.sub_self]
      exact Nat.dvd_zero _
    · have hnext : len ≤ S.userEnd → wrap (begin + Leader.step) = begin + Leader.step ∧
          begin + Leader.step ≤ 2 ^ 57 := fun hlen =>
        (check_of_fits hlen (hbegin hlen) hcheck).2
      have hrest := ih (fun hlen => by rw [(hnext hlen).1]; exact (hnext hlen).2) h
      refine ⟨hrest.mapped, fun res hres => ?_⟩
      obtain ⟨hr, hlen, hle, hdvd, hend⟩ := hrest.area res hres
      rw [(hnext hlen).1] at hle hdvd
      have hsum : res - begin = res - (begin + Leader.step) + Leader.step := by omega
      exact ⟨hr, hlen, by omega, hsum ▸ Nat.dvd_add hdvd (Nat.dvd_refl _), hend⟩

/-- The loop of the leader has a run with the same result. -/
theorem exists_mmapLoop {P : Platform} (hheap : P.reservedHeap = S.reservedHeap)
    (kernel : Kernel S.userEnd len) (hbegin : len ≤ S.userEnd → begin ≤ 2 ^ 57)
    (h : attempts S len kernel.answer fuel n begin mapped = some r) {res : Nat}
    (hres : r.1 = some res) : ∃ answers, Leader.mmapLoop P len answers begin = some res := by
  induction fuel generalizing n begin with
  | zero => cases h
  | succ fuel ih =>
    have hlen := ((attempts_spec kernel hbegin h).area res hres).2.1
    rcases attempts_cases.mp h with ⟨-, rfl⟩ | ⟨hcheck, -, rfl⟩ | ⟨hcheck, -, h⟩
    · cases hres
    · cases hres
      obtain ⟨hend, -⟩ := check_of_fits hlen (hbegin hlen) hcheck
      rw [S.heapEnd_eq, ← hheap] at hend
      refine ⟨[.placed], ?_⟩
      rw [Leader.mmapLoop, if_neg (Nat.not_lt.mpr hend)]
    · obtain ⟨hend, hnext, hle⟩ := check_of_fits hlen (hbegin hlen) hcheck
      rw [S.heapEnd_eq, ← hheap] at hend
      rw [hnext] at h
      obtain ⟨answers, hloop⟩ := ih (fun _ => hle) h
      refine ⟨.failed :: answers, ?_⟩
      rw [Leader.mmapLoop, if_neg (Nat.not_lt.mpr hend)]
      exact hloop

/-- A longer run of the loop gives the same. -/
theorem attempts_mono {k : Nat} (h : attempts S len answer fuel n begin mapped = some r) :
    attempts S len answer (fuel + k) n begin mapped = some r := by
  induction fuel generalizing n begin with
  | zero => cases h
  | succ fuel ih =>
    rw [Nat.succ_add, attempts_cases]
    rcases attempts_cases.mp h with hstop | hplaced | ⟨hcheck, hanswer, h⟩
    · exact .inl hstop
    · exact .inr (.inl hplaced)
    · exact .inr (.inr ⟨hcheck, hanswer, ih h⟩)

/-- The loop takes the first area that is placed as requested, if it still fits then. -/
theorem attempts_placed (i : Nat) (hend : begin + i * Leader.step + len ≤ S.heapEnd)
    (hbefore : ∀ j < i, answer (n + j) ≠ some (begin + j * Leader.step))
    (hplaced : answer (n + i) = some (begin + i * Leader.step)) :
    attempts S len answer (i + 1) n begin mapped =
      some (some (begin + i * Leader.step), begin + i * Leader.step,
        ⟨begin + i * Leader.step, len⟩ :: mapped) := by
  have hheap := S.heapEnd_le
  have hcheck : ¬ wrap (begin + len) > S.heapEnd := by
    have hsum : wrap (begin + len) = begin + len := Nat.mod_eq_of_lt (by omega)
    omega
  induction i generalizing n begin with
  | zero =>
    rw [Nat.zero_mul, Nat.add_zero] at hplaced ⊢
    exact attempts_cases.mpr (.inr (.inl ⟨hcheck, hplaced, rfl⟩))
  | succ i ih =>
    have hnext : wrap (begin + Leader.step) = begin + Leader.step :=
      Nat.mod_eq_of_lt (by rw [Nat.succ_mul] at hend; omega)
    have hat : ∀ j, begin + Leader.step + j * Leader.step = begin + (j + 1) * Leader.step := by
      intro j
      rw [Nat.succ_mul]
      omega
    have hindex : ∀ j, n + 1 + j = n + (j + 1) := fun j => by omega
    refine attempts_cases.mpr (.inr (.inr ⟨hcheck, ?_, ?_⟩))
    · have hfirst := hbefore 0 (Nat.succ_pos i)
      rwa [Nat.zero_mul, Nat.add_zero, Nat.add_zero] at hfirst
    · have hrest : ∀ j < i, answer (n + 1 + j) ≠ some (begin + Leader.step + j * Leader.step) := by
        intro j hj
        rw [hindex j, hat j]
        exact hbefore (j + 1) (Nat.succ_lt_succ hj)
      rw [hnext, ← hat i]
      refine ih ?_ hrest ?_ ?_
      · rw [hat i]
        exact hend
      · rw [hindex i, hat i]
        exact hplaced
      · have hsum : wrap (begin + Leader.step + len) = begin + Leader.step + len :=
          Nat.mod_eq_of_lt (by rw [Nat.succ_mul] at hend; omega)
        rw [Nat.succ_mul] at hend
        omega

/-- Each retry brings the bump pointer nearer to the end: either the length does not make
the sum wrap around, or it is so large that it does from the start. -/
theorem attempts_total (hbegin : begin < 2 ^ 58) (hlen : len ≤ 2 ^ 56 ∨ 2 ^ 64 ≤ len + 2 ^ 57)
    (hlt : len < 2 ^ 64) (hfuel : 2 ^ 58 - begin < fuel) :
    ∃ r, attempts S len answer fuel n begin mapped = some r := by
  induction fuel generalizing n begin with
  | zero => exact absurd hfuel (Nat.not_lt_zero _)
  | succ fuel ih =>
    by_cases hcheck : wrap (begin + len) > S.heapEnd
    · exact ⟨_, attempts_cases.mpr (.inl ⟨hcheck, rfl⟩)⟩
    · by_cases hplaced : answer n = some begin
      · exact ⟨_, attempts_cases.mpr (.inr (.inl ⟨hcheck, hplaced, rfl⟩))⟩
      · have hend := S.heapEnd_le
        have hstep : Leader.step = 2 ^ 30 := rfl
        have hle : begin ≤ 2 ^ 56 + 2 ^ 57 := by
          unfold wrap at hcheck
          omega
        have hnext : wrap (begin + Leader.step) = begin + Leader.step :=
          Nat.mod_eq_of_lt (by omega)
        obtain ⟨r, hr⟩ : ∃ r, attempts S len answer fuel (n + 1) (begin + Leader.step) mapped =
            some r := ih (by omega) (by omega)
        exact ⟨r, attempts_cases.mpr (.inr (.inr ⟨hcheck, hplaced, hnext.symm ▸ hr⟩))⟩

/-- The loop ends. -/
theorem attempts_ends (hbegin : begin ≤ 2 ^ 57) (hlt : len < 2 ^ 64) :
    ∃ r k, ∀ fuel ≥ k, attempts S len answer fuel n begin mapped = some r := by
  suffices key : ∀ k, 2 ^ 58 < k → ∃ r, attempts S len answer k n begin mapped = some r by
    obtain ⟨k, hk⟩ : ∃ k, 2 ^ 58 < k := ⟨_, Nat.lt_succ_self _⟩
    obtain ⟨r, hr⟩ := key k hk
    refine ⟨r, k, fun fuel hfuel => ?_⟩
    obtain ⟨j, rfl⟩ := Nat.exists_eq_add_of_le hfuel
    exact attempts_mono hr
  intro k hk
  by_cases hlen : len ≤ 2 ^ 56 ∨ 2 ^ 64 ≤ len + 2 ^ 57
  · exact attempts_total (by omega) hlen hlt (by omega)
  · -- the first check fails
    have hend := S.heapEnd_le
    have hsum : wrap (begin + len) = begin + len := Nat.mod_eq_of_lt (by omega)
    cases k with
    | zero => exact absurd hk (Nat.not_lt_zero _)
    | succ k => exact ⟨_, attempts_cases.mpr (.inl ⟨by rw [hsum]; omega, rfl⟩)⟩

end

/-! ## A run -/

theorem roundUp_spec {m : Nat} (hm : 0 < m) (n : Nat) :
    n ≤ Leader.roundUp n m ∧ m ∣ Leader.roundUp n m ∧ Leader.roundUp n m ≤ n + m := by
  unfold Leader.roundUp
  rw [if_neg (by omega)]
  have hmod := Nat.mod_lt n hm
  by_cases hzero : n % m = 0
  · simp only [hzero, if_pos]
    exact ⟨Nat.le_refl _, Nat.dvd_of_mod_eq_zero hzero, by omega⟩
  · simp only [hzero, if_false]
    have hle := Nat.mod_le n m
    have hsum : n + m - n % m = m * (n / m) + m := by
      have := Nat.div_add_mod n m
      omega
    exact ⟨by omega, hsum ▸ Nat.dvd_add (Nat.dvd_mul_right _ _) (Nat.dvd_refl _), by omega⟩

namespace MmapState

/-- The areas returned, the first one first. -/
def areas (st : MmapState) : List MemArea := st.returned.map fun call => ⟨call.2, call.1.len⟩

end MmapState

def MemArea.span (area : MemArea) : Nat × Nat := (area.data, area.data + area.size)

/-- What holds between two calls. -/
structure ProxyInv (S : HeapSetup) (st : MmapState) : Prop where
  log : st.memoryOperations = st.returned.map fun call => call.1.memOp call.2
  mapped : st.mapped = st.areas.reverse
  stacked : Stacked S.reservedHeap.data S.heapEnd Leader.step (st.areas.map MemArea.span)
  /-- the bump pointer is behind them -/
  below : st.terminated = false →
    Stacked S.reservedHeap.data st.begin Leader.step (st.areas.map MemArea.span)
  begin : st.terminated = false → S.reservedHeap.data ≤ st.begin ∧ st.begin ≤ 2 ^ 57 ∧
    Leader.step ∣ st.begin - S.reservedHeap.data

section

variable {S : HeapSetup} {ndebug : Bool} {call : MmapCall} {fuel begin : Nat} {st st' : MmapState}
  {mapped : List MemArea}

theorem proxyInv_init (S : HeapSetup) :
    ProxyInv S ⟨S.reservedHeap.data, [], [], [], false⟩ where
  log := rfl
  mapped := rfl
  stacked := .nil _ _ _
  below _ := .nil _ _ _
  begin _ := by
    have := S.heap_le
    have := S.userEnd_le
    refine ⟨Nat.le_refl _, by show S.reservedHeap.data ≤ _; omega, ?_⟩
    show Leader.step ∣ S.reservedHeap.data - S.reservedHeap.data
    rw [Nat.sub_self]
    exact Nat.dvd_zero _

/-- The program terminates. -/
theorem ProxyInv.terminate (h : ProxyInv S st) (hmapped : mapped = st.mapped) :
    ProxyInv S { st with begin, mapped, terminated := true } where
  log := h.log
  mapped := hmapped.trans h.mapped
  stacked := h.stacked
  below ht := by cases ht
  begin ht := by cases ht

/-- Where the area of a call lies. -/
theorem ProxyInv.place {res : Nat} (h : ProxyInv S st) (hrun : st.terminated = false)
    (hattempted : Attempted S call.len st.begin st.mapped (some res, begin, mapped)) :
    begin = res ∧ st.begin ≤ res ∧ Leader.step ∣ res - S.reservedHeap.data ∧
      res + call.len ≤ S.heapEnd := by
  obtain ⟨hbegin, -, hle, hdvd, hend⟩ := hattempted.area res rfl
  obtain ⟨hlo, -, haligned⟩ := h.begin hrun
  have hsum : res - S.reservedHeap.data = res - st.begin + (st.begin - S.reservedHeap.data) := by
    omega
  exact ⟨hbegin, hle, hsum ▸ Nat.dvd_add hdvd haligned, hend⟩

/-- The bump pointer behind an area of the heap. -/
theorem next_begin {res : Nat} (hend : res + call.len ≤ S.heapEnd) :
    wrap (res + wrap (Leader.roundUp call.len Leader.step)) =
      res + Leader.roundUp call.len Leader.step ∧
    res + Leader.roundUp call.len Leader.step ≤ 2 ^ 57 := by
  have hround := (roundUp_spec (show 0 < Leader.step by decide) call.len).2.2
  have hheapEnd := S.heapEnd_le
  have hstep : Leader.step = 2 ^ 30 := rfl
  have hinner : wrap (Leader.roundUp call.len Leader.step) = Leader.roundUp call.len Leader.step :=
    Nat.mod_eq_of_lt (by omega)
  rw [hinner]
  exact ⟨Nat.mod_eq_of_lt (by omega), by omega⟩

theorem areas_append {res : Nat} (st : MmapState) (call : MmapCall) :
    (st.returned ++ [(call, res)]).map (fun call => MemArea.mk call.2 call.1.len) =
      st.areas ++ [⟨res, call.len⟩] := List.map_append

/-- A call returns an area. -/
theorem ProxyInv.give {res : Nat} (h : ProxyInv S st) (hrun : st.terminated = false)
    (hattempted : Attempted S call.len st.begin st.mapped (some res, begin, mapped)) :
    ProxyInv S { st with
      begin := wrap (begin + wrap (Leader.roundUp call.len Leader.step))
      memoryOperations := st.memoryOperations ++ [call.memOp res]
      mapped
      returned := st.returned ++ [(call, res)] } := by
  obtain ⟨rfl, hle, hoffset, hend⟩ := h.place hrun hattempted
  obtain ⟨hnext, hnextLe⟩ := next_begin hend
  obtain ⟨hround, hmultiple, -⟩ := roundUp_spec (show 0 < Leader.step by decide) call.len
  have hlo := (h.begin hrun).1
  have hpush := (h.below hrun).push (begin, begin + call.len) hlo hle
    (Nat.lt_add_of_pos_right call.len_pos) hoffset
  have hspans : (st.areas ++ [MemArea.mk begin call.len]).map MemArea.span =
      st.areas.map MemArea.span ++ [(begin, begin + call.len)] := List.map_append
  refine
    { log := ?log
      mapped := ?mapped
      stacked := ?stacked
      below := fun _ => ?below
      begin := fun _ => ?begin }
  case log =>
    show st.memoryOperations ++ _ = _
    rw [h.log, List.map_append]
    rfl
  case mapped =>
    show mapped = _
    rw [MmapState.areas, areas_append, List.reverse_append, ← h.mapped]
    exact hattempted.mapped
  case stacked =>
    rw [MmapState.areas, areas_append, hspans]
    exact hpush.mono hend
  case below =>
    rw [MmapState.areas, areas_append, hspans, hnext]
    exact hpush.mono (Nat.add_le_add_left hround begin)
  case begin =>
    rw [hnext]
    refine ⟨by show S.reservedHeap.data ≤ begin + _; omega, hnextLe, ?_⟩
    show Leader.step ∣ begin + Leader.roundUp call.len Leader.step - S.reservedHeap.data
    have hsum : begin + Leader.roundUp call.len Leader.step - S.reservedHeap.data =
        begin - S.reservedHeap.data + Leader.roundUp call.len Leader.step := by omega
    exact hsum ▸ Nat.dvd_add hoffset hmultiple

theorem ProxyInv.step (h : ProxyInv S st) (hs : (proxyCalls S ndebug).step st call st') :
    ProxyInv S st' := by
  obtain ⟨hrun, kernel, fuel, hcall⟩ := hs
  rw [proxyMmap] at hcall
  by_cases hassert : call.asserts ndebug
  · rw [if_pos hassert] at hcall
    obtain ⟨⟨res, begin, mapped⟩, hloop, hcall⟩ := Option.bind_eq_some_iff.mp hcall
    have hattempted := attempts_spec kernel (fun _ => (h.begin hrun).2.1) hloop
    cases res with
    | none =>
      cases hcall
      exact h.terminate hattempted.mapped
    | some res =>
      cases hcall
      exact h.give hrun hattempted
  · rw [if_neg hassert] at hcall
    cases hcall
    exact h.terminate rfl

theorem proxyInv (h : LTS.Reachable (proxyCalls S ndebug) st) : ProxyInv S st :=
  h.invariant (fun _ h0 => h0 ▸ proxyInv_init S) fun _ _ _ _ hi hs => hi.step hs

/-- A call returns an area, or the program terminates. -/
theorem proxyMmap_ends (h : ProxyInv S st) (hrun : st.terminated = false)
    (kernel : Kernel S.userEnd call.len) : ∃ st' k,
      (∀ fuel ≥ k, proxyMmap S ndebug call kernel.answer fuel st = some st') ∧
        ((st'.terminated = true ∧ st'.returned = st.returned) ∨
          (st'.terminated = false ∧ ∃ res, st'.returned = st.returned ++ [(call, res)])) := by
  by_cases hassert : call.asserts ndebug
  · obtain ⟨⟨res, begin, mapped⟩, k, hends⟩ : ∃ r k, ∀ fuel ≥ k,
        attempts S call.len kernel.answer fuel 0 st.begin st.mapped = some r :=
      attempts_ends (h.begin hrun).2.1 call.len_lt
    cases res with
    | none =>
      refine ⟨{ st with begin, mapped, terminated := true }, k, ?_, .inl ⟨rfl, rfl⟩⟩
      intro fuel hfuel
      rw [proxyMmap, if_pos hassert, hends fuel hfuel]
      rfl
    | some res =>
      refine ⟨{ st with
        begin := wrap (begin + wrap (Leader.roundUp call.len Leader.step))
        memoryOperations := st.memoryOperations ++ [call.memOp res]
        mapped
        returned := st.returned ++ [(call, res)] }, k, ?_, .inr ⟨hrun, res, rfl⟩⟩
      intro fuel hfuel
      rw [proxyMmap, if_pos hassert, hends fuel hfuel]
      rfl
  · refine ⟨{ st with terminated := true }, 0, fun fuel _ => ?_, .inl ⟨rfl, rfl⟩⟩
    rw [proxyMmap, if_neg hassert]

/-- An area that is placed as requested and fits is returned and logged. -/
theorem proxyMmap_placed (hassert : call.asserts ndebug = true) {answer : Nat → Option Nat} (i : Nat)
    (hbefore : ∀ j < i, answer j ≠ some (st.begin + j * Leader.step))
    (hplaced : answer i = some (st.begin + i * Leader.step))
    (hend : st.begin + i * Leader.step + call.len ≤ S.heapEnd) : ∃ st',
      (∀ fuel ≥ i + 1, proxyMmap S ndebug call answer fuel st = some st') ∧
        st'.terminated = st.terminated ∧
        st'.returned = st.returned ++ [(call, st.begin + i * Leader.step)] ∧
        st'.memoryOperations =
          st.memoryOperations ++ [call.memOp (st.begin + i * Leader.step)] := by
  refine ⟨{ st with
    begin := wrap (st.begin + i * Leader.step + wrap (Leader.roundUp call.len Leader.step))
    memoryOperations := st.memoryOperations ++ [call.memOp (st.begin + i * Leader.step)]
    mapped := ⟨st.begin + i * Leader.step, call.len⟩ :: st.mapped
    returned := st.returned ++ [(call, st.begin + i * Leader.step)] }, fun fuel hfuel => ?_,
    rfl, rfl, rfl⟩
  obtain ⟨k, rfl⟩ := Nat.exists_eq_add_of_le hfuel
  rw [proxyMmap, if_pos hassert, attempts_mono (attempts_placed i hend
    (fun j hj => by rw [Nat.zero_add]; exact hbefore j hj) (by rwa [Nat.zero_add]))]
  rfl

end

/-- `proxy_mmap` hands out disjoint areas of the heap, every call ends, and the first area
that the kernel places as requested is returned and logged, if it fits. -/
theorem proxy_mmap_disjoint (S : HeapSetup) (ndebug : Bool) {st : MmapState}
    (h : LTS.Reachable (proxyCalls S ndebug) st) :
    (st.areas.Pairwise fun a b => a.data < b.data ∧ ∀ x, ¬ (a.Mem x ∧ b.Mem x)) ∧
    (∀ area ∈ st.areas, S.reservedHeap.data ≤ area.data ∧
      area.data + area.size ≤ S.reservedHeap.data + S.reservedHeap.size ∧
      Leader.step ∣ area.data - S.reservedHeap.data) ∧
    (st.memoryOperations = st.returned.map fun call => call.1.memOp call.2) ∧
    st.memoryOperations.Nodup ∧ st.mapped = st.areas.reverse ∧
    (∀ (call : MmapCall) (kernel : Kernel S.userEnd call.len), st.terminated = false → ∃ st' k,
      (∀ fuel ≥ k, proxyMmap S ndebug call kernel.answer fuel st = some st') ∧
        ((st'.terminated = true ∧ st'.returned = st.returned) ∨
          (st'.terminated = false ∧ ∃ res, st'.returned = st.returned ++ [(call, res)]))) ∧
    ∀ (call : MmapCall) (kernel : Kernel S.userEnd call.len) (i : Nat),
      call.asserts ndebug = true →
      (∀ j < i, kernel.answer j ≠ some (st.begin + j * Leader.step)) →
      kernel.answer i = some (st.begin + i * Leader.step) →
      st.begin + i * Leader.step + call.len ≤ S.reservedHeap.data + S.reservedHeap.size → ∃ st',
        (∀ fuel ≥ i + 1, proxyMmap S ndebug call kernel.answer fuel st = some st') ∧
          st'.terminated = st.terminated ∧
          st'.returned = st.returned ++ [(call, st.begin + i * Leader.step)] ∧
          st'.memoryOperations =
            st.memoryOperations ++ [call.memOp (st.begin + i * Leader.step)] := by
  have hinv := proxyInv h
  have hincreasing := List.pairwise_map.mp hinv.stacked.increasing
  have hdisjoint := List.pairwise_map.mp hinv.stacked.disjoint
  refine ⟨hincreasing.and hdisjoint, fun area harea => ?_, hinv.log, ?_, hinv.mapped,
    fun call kernel hrun => proxyMmap_ends hinv hrun kernel,
    fun call kernel i hassert hbefore hplaced hend =>
      proxyMmap_placed hassert i hbefore hplaced (S.heapEnd_eq.symm ▸ hend)⟩
  · have hspan := List.mem_map_of_mem (f := MemArea.span) harea
    obtain ⟨hlo, hhi⟩ := hinv.stacked.bounds _ hspan
    rw [S.heapEnd_eq] at hhi
    exact ⟨hlo, hhi, hinv.stacked.aligned _ hspan⟩
  · rw [hinv.log]
    refine List.pairwise_map.mpr ((List.pairwise_map.mp hincreasing).imp fun hlt heq => ?_)
    simp only [MmapCall.memOp, MemOp.mmap.injEq, MmapParams.mk.injEq] at heq
    exact Nat.ne_of_lt hlt heq.1

/-- A page, as the allocator asks for it. -/
def pageCall : MmapCall where
  len := 4096
  prot := 3
  flags := 34
  fileDesc := -1
  offset := 0
  len_pos := by decide
  len_lt := by decide

/-- 1.25 GiB. -/
def largeCall : MmapCall where
  len := 0x50000000
  prot := 3
  flags := 34
  fileDesc := -1
  offset := 0
  len_pos := by decide
  len_lt := by decide

/-- The first attempt fails, the second is placed elsewhere, the third as requested. -/
def pageKernel : Kernel HeapSetup.default.userEnd pageCall.len where
  answer n := if n = 0 then none else if n = 1 then some 4096 else some 0x410080000000
  fits _ _ _ := by decide

/-- The first attempt is placed elsewhere, the second as requested. -/
def largeKernel : Kernel HeapSetup.default.userEnd largeCall.len where
  answer n := if n = 0 then some 8192 else some 0x410100000000
  fits _ _ _ := by decide

/-- Two calls, with an attempt placed elsewhere in each. -/
theorem proxy_mmap_disjoint_retried : ∃ st st' : MmapState,
    proxyMmap .default false pageCall pageKernel.answer 3 ⟨0x410000000000, [], [], [], false⟩ =
      some st ∧
    proxyMmap .default false largeCall largeKernel.answer 2 st = some st' ∧
    LTS.Reachable (proxyCalls .default false) st' ∧
    st'.areas = [⟨0x410080000000, 4096⟩, ⟨0x410100000000, 0x50000000⟩] ∧
    (st'.areas.Pairwise fun a b => a.data < b.data ∧ ∀ x, ¬ (a.Mem x ∧ b.Mem x)) ∧
    st'.memoryOperations = [pageCall.memOp 0x410080000000, largeCall.memOp 0x410100000000] ∧
    st'.mapped = st'.areas.reverse := by
  have hpage : LTS.Reachable (proxyCalls .default false)
      ⟨0x4100c0000000, [pageCall.memOp 0x410080000000], [⟨0x410080000000, 4096⟩],
        [(pageCall, 0x410080000000)], false⟩ :=
    .step (a := pageCall) (.init rfl) ⟨rfl, pageKernel, 3, rfl⟩
  have hlarge : LTS.Reachable (proxyCalls .default false) _ :=
    .step (a := largeCall) hpage ⟨rfl, largeKernel, 2, rfl⟩
  obtain ⟨hdisjoint, -, hlog, -, hmapped, -⟩ := proxy_mmap_disjoint .default false hlarge
  exact ⟨_, _, rfl, rfl, hlarge, rfl, hdisjoint, hlog, hmapped⟩

end SimpleParallel.Sync
