import SimpleParallel.Lib.Elementwise
import SimpleParallel.Sync.Bigmpi

/-!
# Reduce areas

`reduce_area` of `cxx/simple_parallel.h` and `leader.cc`, with the MPI datatypes
and operations it accepts: where an area lies, its initialisation on a worker,
the check that areas do not overlap, and the reduction onto the root through
`bigmpi::Reduce`.

Elements are little-endian numbers. A sum of integers is taken modulo `2^w`; a
sum of floating point numbers is a parameter (`FloatSum`).

* `initReduceAreaOnWorker_ok`: the areas that a worker initialises, and with
  which byte; `initAll_in`, `initAll_out`: all areas.
* `noOverlap_of_verify`: areas that pass the check share no byte.
* `reduce_apply`: the chunked reduction is one reduction; `reduceAll_out`: it
  changes no byte outside the areas.
-/

namespace SimpleParallel.Reduce

open Loops Sync

/-! ## Datatypes and operations -/

/-- The datatypes named in `init_reduce_area_on_worker`; `other` stands for the
rest, with its name and size. -/
inductive MpiDatatype
  | short | int | long | unsignedLong | longLongInt | longLong
  | float | double | longDouble
  | int8 | int16 | int32 | int64 | uint8 | uint16 | uint32 | uint64
  | cBool
  | other (name : String) (size : Nat)
  deriving DecidableEq

/-- The operations in `op_2_name`, and any other. -/
inductive MpiOp
  | null | max | min | sum | prod | land | band | lor | bor | lxor | bxor | minloc | maxloc
  | replace | other
  deriving DecidableEq

namespace MpiDatatype

/-- `MPI_Type_size`, in bytes. -/
def size : MpiDatatype → Nat
  | short | int16 | uint16 => 2
  | int | float | int32 | uint32 => 4
  | long | unsignedLong | longLongInt | longLong | double | int64 | uint64 => 8
  | longDouble => 16
  | int8 | uint8 | cBool => 1
  | other _ size => size

/-- `MPI_Type_get_name`. -/
def typeName : MpiDatatype → String
  | short => "MPI_SHORT"
  | int => "MPI_INT"
  | long => "MPI_LONG"
  | unsignedLong => "MPI_UNSIGNED_LONG"
  | longLongInt => "MPI_LONG_LONG_INT"
  | longLong => "MPI_LONG_LONG"
  | float => "MPI_FLOAT"
  | double => "MPI_DOUBLE"
  | longDouble => "MPI_LONG_DOUBLE"
  | int8 => "MPI_INT8_T"
  | int16 => "MPI_INT16_T"
  | int32 => "MPI_INT32_T"
  | int64 => "MPI_INT64_T"
  | uint8 => "MPI_UINT8_T"
  | uint16 => "MPI_UINT16_T"
  | uint32 => "MPI_UINT32_T"
  | uint64 => "MPI_UINT64_T"
  | cBool => "MPI_C_BOOL"
  | other name _ => name

/-- `zero_init_types`. -/
def zeroInitTypes : List MpiDatatype :=
  [short, int, long, unsignedLong, longLongInt, longLong, float, double, longDouble, int8, int16,
    int32, int64, uint8, uint16, uint32, uint64]

def floats : List MpiDatatype := [float, double, longDouble]

end MpiDatatype

/-- `op_2_name.at`; an operation that is not in the map makes `at` throw. -/
def MpiOp.opName : MpiOp → Except String String
  | null => .ok "MPI_OP_NULL"
  | max => .ok "MPI_MAX"
  | min => .ok "MPI_MIN"
  | sum => .ok "MPI_SUM"
  | prod => .ok "MPI_PROD"
  | land => .ok "MPI_LAND"
  | band => .ok "MPI_BAND"
  | lor => .ok "MPI_LOR"
  | bor => .ok "MPI_BOR"
  | lxor => .ok "MPI_LXOR"
  | bxor => .ok "MPI_BXOR"
  | minloc => .ok "MPI_MINLOC"
  | maxloc => .ok "MPI_MAXLOC"
  | replace => .ok "MPI_REPLACE"
  | other => .error "map::at"

/-- The sum of two floating point numbers of a size, as bit patterns. -/
abbrev FloatSum := Nat → Nat → Nat → Nat

/-- A truth value as an element. -/
def ofBool (b : Bool) : Nat := if b then 1 else 0

/-- What an operation does to two elements. The operations without a case of
their own are not reached: every worker refuses their areas at entry. -/
def MpiOp.combine (op : MpiOp) (fsum : FloatSum) (type : MpiDatatype) (x y : Nat) : Nat :=
  match op with
  | sum => (if type ∈ MpiDatatype.floats then fsum type.size x y else x + y) % 256 ^ type.size
  | land => ofBool (x ≠ 0 ∧ y ≠ 0)
  | lor => ofBool (x ≠ 0 ∨ y ≠ 0)
  | _ => x

/-! ## Areas -/

/-- `reduce_area`. Its `m_sizeof_type` is the size of its type, and its
`m_inner_pages` are computed once from the other members. -/
structure ReduceArea where
  begin : Nat
  count : Nat
  type : MpiDatatype
  op : MpiOp
  deriving DecidableEq

namespace ReduceArea

/-- `operator mem_area`. -/
def memArea (r : ReduceArea) : MemArea := ⟨r.begin, r.count * r.type.size⟩

/-- `m_inner_pages`, set by `init_inner_pages`. -/
def innerPages (r : ReduceArea) (pageSize : Nat) : Option PteRange :=
  memarea2innerpgrng pageSize r.memArea

/-- `not_support`. -/
def notSupport {α : Type} (r : ReduceArea) : Except String α := do
  let opName ← r.op.opName
  .error ("Error: Reduce " ++ r.type.typeName ++ " with MPI Operation " ++ opName ++
    " is not supported by simple_parallel. You can manually call " ++
    "`MPI_Reduce` to reduce your array/value.\n")

/-- `init_reduce_area_on_worker`. -/
def initReduceAreaOnWorker (r : ReduceArea) (m : Mem) : Except String Mem :=
  if r.type ∈ MpiDatatype.zeroInitTypes ∧ r.op = .sum then
    .ok (Mem.fillRange 0 r.begin (r.count * r.type.size) m)
  else if r.type = .cBool then
    match r.op with
    | .land => .ok (Mem.fillRange 1 r.begin (r.count * r.type.size) m)
    | .lor => .ok (Mem.fillRange 0 r.begin (r.count * r.type.size) m)
    | _ => r.notSupport
  else r.notSupport

/-- The areas that `init_reduce_area_on_worker` accepts. -/
def Supported (r : ReduceArea) : Prop :=
  (r.type ∈ MpiDatatype.zeroInitTypes ∧ r.op = .sum) ∨
    (r.type = .cBool ∧ (r.op = .land ∨ r.op = .lor))

instance (r : ReduceArea) : Decidable r.Supported := inferInstanceAs (Decidable (_ ∨ _))

/-- Every byte of the identity of the area's operation. -/
def identityByte (r : ReduceArea) : UInt8 := if r.op = .land then 1 else 0

/-- The loop over all areas in `do_enter_parallel`. -/
def initAll (reduces : List ReduceArea) (m : Mem) : Except String Mem :=
  reduces.foldlM (fun m r => r.initReduceAreaOnWorker m) m

section Init

variable {r : ReduceArea} {reduces : List ReduceArea} {m m' : Mem} {x : Nat}

theorem notSupport_ne_ok {α : Type} {a : α} : (r.notSupport : Except String α) ≠ .ok a := by
  unfold notSupport
  cases r.op.opName with
  | error e => nofun
  | ok name => nofun

/-- A worker initialises the supported areas, and every byte of them with the
same value. -/
theorem initReduceAreaOnWorker_ok : r.initReduceAreaOnWorker m = .ok m' ↔
    r.Supported ∧ m' = Mem.fillRange r.identityByte r.begin (r.count * r.type.size) m := by
  unfold initReduceAreaOnWorker
  by_cases hsum : r.type ∈ MpiDatatype.zeroInitTypes ∧ r.op = .sum
  · have hid : r.identityByte = 0 := by simp [identityByte, hsum.2]
    have hsupp : r.Supported := Or.inl hsum
    simp [hsum, hid, hsupp, eq_comm]
  · rw [if_neg hsum]
    by_cases hbool : r.type = .cBool
    · rw [if_pos hbool]
      cases hop : r.op with
      | land | lor =>
        have hsupp : r.Supported := Or.inr ⟨hbool, by simp [hop]⟩
        simp [identityByte, hop, hsupp, eq_comm]
      | _ =>
        refine iff_of_false notSupport_ne_ok ?_
        rintro ⟨h | ⟨-, h | h⟩, -⟩
        · exact hsum h
        · rw [hop] at h
          cases h
        · rw [hop] at h
          cases h
    · rw [if_neg hbool]
      refine iff_of_false notSupport_ne_ok ?_
      rintro ⟨h | h, -⟩
      · exact hsum h
      · exact hbool h.1

theorem initAll_cons : initAll (r :: reduces) m = .ok m' ↔ r.Supported ∧
    initAll reduces (Mem.fillRange r.identityByte r.begin (r.count * r.type.size) m) = .ok m' := by
  show (r.initReduceAreaOnWorker m >>= fun m => initAll reduces m) = .ok m' ↔ _
  constructor
  · intro h
    cases hr : r.initReduceAreaOnWorker m with
    | error e =>
      rw [hr] at h
      cases h
    | ok u =>
      obtain ⟨hsupp, rfl⟩ := initReduceAreaOnWorker_ok.mp hr
      rw [hr] at h
      exact ⟨hsupp, h⟩
  · rintro ⟨hsupp, h⟩
    rw [initReduceAreaOnWorker_ok.mpr ⟨hsupp, rfl⟩]
    exact h

/-- The initialisation succeeds exactly if all areas are supported. -/
theorem initAll_total : (∃ m', initAll reduces m = .ok m') ↔ ∀ r ∈ reduces, r.Supported := by
  induction reduces generalizing m with
  | nil => exact iff_of_true ⟨m, rfl⟩ nofun
  | cons r reduces ih =>
    simp only [initAll_cons, List.forall_mem_cons, exists_and_left, ih]

/-- It changes no byte outside the areas. -/
theorem initAll_out (h : initAll reduces m = .ok m') (hx : ∀ r ∈ reduces, ¬ r.memArea.Mem x) :
    m' x = m x := by
  induction reduces generalizing m with
  | nil =>
    cases h
    rfl
  | cons r reduces ih =>
    rw [ih (initAll_cons.mp h).2 fun a ha => hx a (List.mem_cons_of_mem _ ha)]
    exact Mem.fillRange_out (hx r List.mem_cons_self)

/-- No two areas share a byte. -/
def NoOverlap (reduces : List ReduceArea) : Prop :=
  reduces.Pairwise fun l r => ∀ x, l.memArea.Mem x → ¬ r.memArea.Mem x

/-- A byte of an area that shares none with the others gets the area's identity. -/
theorem initAll_in (h : initAll reduces m = .ok m') (hno : NoOverlap reduces) (hr : r ∈ reduces)
    (hx : r.memArea.Mem x) : m' x = r.identityByte := by
  induction reduces generalizing m with
  | nil => cases hr
  | cons a reduces ih =>
    obtain ⟨hfirst, hrest⟩ := List.pairwise_cons.mp hno
    have htail := (initAll_cons.mp h).2
    rcases List.mem_cons.mp hr with rfl | hr
    · rw [initAll_out htail fun b hb hbx => hfirst b hb x hx hbx]
      exact Mem.fillRange_in hx
    · exact ih htail hrest hr

end Init

end ReduceArea

/-! ## The check for overlaps -/

/-- `get_number_with_ordinal_suffix`. -/
def numberWithOrdinalSuffix (number : Nat) : String :=
  let suffix :=
    if number % 100 < 11 ∨ number % 100 > 13 then
      match number % 10 with
      | 1 => "st"
      | 2 => "nd"
      | 3 => "rd"
      | _ => "th"
    else "th"
  toString number ++ suffix

def overlapError (lhs rhs : Nat) : String :=
  "Error: the " ++ numberWithOrdinalSuffix (lhs + 1) ++ " reduce area and " ++
    numberWithOrdinalSuffix (rhs + 1) ++
    " reduce area overlaps. Please check your reduce input parameter.\n"

/-- The inner loop of `verify_reduces_no_overlap`: the area at index `lhs`
against those from index `rhs` on. -/
def verifyAgainst (lhs : Nat) (l : ReduceArea) : Nat → List ReduceArea → Except String Unit
  | _, [] => .ok ()
  | rhs, r :: rest =>
    if memAreaOverlap l.memArea r.memArea then .error (overlapError lhs rhs)
    else verifyAgainst lhs l (rhs + 1) rest

/-- The outer loop, from index `lhs` on. -/
def verifyFrom : Nat → List ReduceArea → Except String Unit
  | _, [] => .ok ()
  | lhs, l :: rest => do
    verifyAgainst lhs l (lhs + 1) rest
    verifyFrom (lhs + 1) rest

/-- `verify_reduces_no_overlap`. -/
def verifyReducesNoOverlap (reduces : List ReduceArea) : Except String Unit :=
  verifyFrom 0 reduces

theorem verifyAgainst_ok {lhs rhs : Nat} {l : ReduceArea} {rest : List ReduceArea} :
    verifyAgainst lhs l rhs rest = .ok () ↔
      ∀ r ∈ rest, memAreaOverlap l.memArea r.memArea = false := by
  induction rest generalizing rhs with
  | nil => simp [verifyAgainst]
  | cons r rest ih =>
    unfold verifyAgainst
    split
    · next h => simp [h]
    · next h => simp [ih, h]

/-- The check passes exactly if no two areas overlap. -/
theorem verifyReducesNoOverlap_ok {reduces : List ReduceArea} :
    verifyReducesNoOverlap reduces = .ok () ↔
      reduces.Pairwise fun l r => memAreaOverlap l.memArea r.memArea = false := by
  have hfrom : ∀ lhs, verifyFrom lhs reduces = .ok () ↔
      reduces.Pairwise fun l r => memAreaOverlap l.memArea r.memArea = false := by
    induction reduces with
    | nil => simp [verifyFrom]
    | cons l rest ih =>
      intro lhs
      have hagainst : verifyAgainst lhs l (lhs + 1) rest = .ok () ↔ _ := verifyAgainst_ok
      rw [List.pairwise_cons, ← hagainst, ← ih (lhs + 1)]
      simp only [verifyFrom]
      cases verifyAgainst lhs l (lhs + 1) rest with
      | error e => simp [bind, Except.bind]
      | ok u => simp [bind, Except.bind]
  exact hfrom 0

theorem noOverlap_of_verify {reduces : List ReduceArea}
    (h : verifyReducesNoOverlap reduces = .ok ()) : ReduceArea.NoOverlap reduces := by
  refine (verifyReducesNoOverlap_ok.mp h).imp fun {l r} hlr x hl hr => ?_
  have hover : memAreaOverlap l.memArea r.memArea = true :=
    (memAreaOverlap_iff (by have := hl.1; have := hl.2; omega)
      (by have := hr.1; have := hr.2; omega)).mpr ⟨x, hl, hr⟩
  rw [hlr] at hover
  cases hover

/-! ## The reduction -/

section Reduction

variable (fsum : FloatSum)

/-- Element `j` of a buffer at `addr`, combined over the root and the workers in
rank order. -/
def reducedElem (op : MpiOp) (type : MpiDatatype) (addr : Nat) (workers : List Mem) (root : Mem)
    (j : Nat) : Nat :=
  workers.foldl
    (fun acc w => op.combine fsum type acc (w.load (addr + j * type.size) type.size))
    (root.load (addr + j * type.size) type.size)

/-- `MPI_Reduce` of `count` elements at the same address on every rank, in
place on the root: the root's memory afterwards. -/
def mpiReduce (op : MpiOp) (type : MpiDatatype) (addr count : Nat) (workers : List Mem)
    (root : Mem) : Mem := fun x =>
  if addr ≤ x ∧ x < addr + count * type.size then
    Mem.byteAt (reducedElem fsum op type addr workers root ((x - addr) / type.size))
      ((x - addr) % type.size)
  else root x

/-- `bigmpi::Reduce`, called by `reduce_area::reduce`. -/
def ReduceArea.reduce (r : ReduceArea) (workers : List Mem) (root : Mem) : Mem :=
  (chunks intMax r.count).foldl (fun root c =>
    mpiReduce fsum r.op r.type (r.begin + c.1 * r.type.size) (narrowCastInt c.2).toNat workers
      root) root

/-- The loop over all areas in `do_exit_parallel`. -/
def reduceAll (reduces : List ReduceArea) (workers : List Mem) (root : Mem) : Mem :=
  reduces.foldl (fun root r => r.reduce fsum workers root) root

variable {fsum} {r : ReduceArea} {reduces : List ReduceArea} {workers : List Mem} {root : Mem}
  {op : MpiOp} {type : MpiDatatype} {addr count n k j x : Nat}

theorem mpiReduce_eq : mpiReduce fsum op type addr count workers root =
    root.writeElems (reducedElem fsum op type addr workers root) addr type.size count := rfl

theorem mpiReduce_in (hx : addr ≤ x ∧ x < addr + count * type.size) :
    mpiReduce fsum op type addr count workers root x =
      Mem.byteAt (reducedElem fsum op type addr workers root ((x - addr) / type.size))
        ((x - addr) % type.size) := Mem.writeElems_in hx

theorem mpiReduce_out (hx : ¬ (addr ≤ x ∧ x < addr + count * type.size)) :
    mpiReduce fsum op type addr count workers root x = root x := Mem.writeElems_out hx

/-- The elements after the first `n` are combined as if those had not been. -/
theorem reducedElem_append : reducedElem fsum op type (addr + n * type.size) workers
      (mpiReduce fsum op type addr n workers root) j =
    reducedElem fsum op type addr workers root (n + j) := by
  have hroot : (mpiReduce fsum op type addr n workers root).load
      (addr + n * type.size + j * type.size) type.size =
      root.load (addr + n * type.size + j * type.size) type.size :=
    Mem.load_congr fun i _ => mpiReduce_out (by omega)
  rw [reducedElem, reducedElem, hroot, Nat.add_mul, ← Nat.add_assoc]

/-- Two reductions of adjoining ranges are one. -/
theorem mpiReduce_append :
    mpiReduce fsum op type (addr + n * type.size) k workers
        (mpiReduce fsum op type addr n workers root) =
      mpiReduce fsum op type addr (n + k) workers root := by
  have helems : reducedElem fsum op type (addr + n * type.size) workers
      (mpiReduce fsum op type addr n workers root) =
      fun j => reducedElem fsum op type addr workers root (n + j) :=
    funext fun _ => reducedElem_append
  rw [mpiReduce_eq, helems]
  exact Mem.writeElems_append

/-- The chunked reduction is one reduction. -/
theorem reduce_apply :
    r.reduce fsum workers root = mpiReduce fsum r.op r.type r.begin r.count workers root := by
  have hcast : ∀ c ∈ chunks intMax r.count, ∀ root : Mem,
      mpiReduce fsum r.op r.type (r.begin + c.1 * r.type.size) (narrowCastInt c.2).toNat workers
        root = mpiReduce fsum r.op r.type (r.begin + c.1 * r.type.size) c.2 workers root := by
    intro c hc root
    rw [narrowCastInt_of_le (chunk_bounds (by decide) hc).2.2.1, Int.toNat_natCast]
  have hfold : (chunks intMax r.count).foldl (fun root c =>
      mpiReduce fsum r.op r.type (r.begin + c.1 * r.type.size) c.2 workers root) root =
      mpiReduce fsum r.op r.type (r.begin + 0 * r.type.size) r.count workers root :=
    foldl_chunks
      (fun root a n => mpiReduce fsum r.op r.type (r.begin + a * r.type.size) n workers root)
      (by decide) (fun root => funext fun x => mpiReduce_out (by omega))
      (fun root a n k => by
        rw [Nat.add_mul, ← Nat.add_assoc]
        exact mpiReduce_append) root
  rw [Nat.zero_mul, Nat.add_zero] at hfold
  rw [ReduceArea.reduce]
  exact (List.foldl_ext _ _ root fun root c hc => hcast c hc root).trans hfold

/-- The reduction changes no byte outside the areas. -/
theorem reduceAll_out (hx : ∀ r ∈ reduces, ¬ r.memArea.Mem x) :
    reduceAll fsum reduces workers root x = root x := by
  induction reduces generalizing root with
  | nil => rfl
  | cons r reduces ih =>
    show reduceAll fsum reduces workers (r.reduce fsum workers root) x = root x
    rw [ih fun a ha => hx a (List.mem_cons_of_mem _ ha), reduce_apply]
    exact mpiReduce_out (hx r List.mem_cons_self)

end Reduction

end SimpleParallel.Reduce
