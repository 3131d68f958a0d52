import SimpleParallel.Lib.Strides
import SimpleParallel.Reduce.Area

/-!
# Reduce areas of Fortran arrays

`add_reduce` of `fortran_binding.f90` and `s_p_f_ctx_add_reduce_area` of
`fortran_binding.cc`: the array arrives as a descriptor with an extent and a stride
multiplier for each dimension, and leaves as an address and a number of elements. The
values of the type macros are the compiler's (`header`).

* `len_eq`: the loop over the extents gives the number of elements.
* `areaIsArray_of_bytes`: an area with the bytes of the array is initialised and reduced
  there, and nowhere else.
* `fortran_area_iff`: an array that is not rejected becomes such an area exactly when its
  dimensions are packed; `fortran_area_not`: every second element of an array.
-/

namespace SimpleParallel.Reduce

open Strides Sync

/-! ## Types -/

/-- The macros `CFI_type_...` of `ISO_Fortran_binding.h` that the binding names. -/
inductive CfiTypeName
  | signedChar | short | int | long | longLong | sizeT
  | int8 | int16 | int32 | int64
  | intLeast8 | intLeast16 | intLeast32 | intLeast64
  | intFast8 | intFast16 | intFast32 | intFast64
  | intmax | intptr | ptrdiff
  | float | double | longDouble
  | floatComplex | doubleComplex | longDoubleComplex
  | bool | char | cptr | struct | other
  deriving DecidableEq

namespace CfiTypeName

/-- `cfi_type_2_mpi_type`. Where macros have one value the first entry counts. -/
def toMpiType : List (CfiTypeName × MpiDatatype) :=
  [(int, .int), (int8, .int8), (int16, .int16), (int32, .int32), (int64, .int64),
    (float, .float), (double, .double), (bool, .cBool)]

/-- The keys of `all_type_names`. -/
def allTypeNames : List CfiTypeName :=
  [signedChar, short, int, long, longLong, sizeT, int8, int16, int32, int64, intLeast8,
    intLeast16, intLeast32, intLeast64, intFast8, intFast16, intFast32, intFast64, intmax, intptr,
    ptrdiff, float, double, longDouble, floatComplex, doubleComplex, longDoubleComplex, bool, char,
    cptr, struct, other]

end CfiTypeName

/-- `ftype_2_mpi_type`. The message has the first letter of the name, which all names
share. -/
def ftype2MpiType (header : CfiTypeName → Int) (ftype : Int) : Except String MpiDatatype :=
  match CfiTypeName.toMpiType.find? fun entry => header entry.1 = ftype with
  | some entry => .ok entry.2
  | none =>
    match CfiTypeName.allTypeNames.find? fun name => header name = ftype with
    | some _ => .error "Error: simple_parallel does not support Fortran type C\n"
    | none => .error "Error: Unsupported Fortran type\n"

/-! ## Descriptors -/

/-- `CFI_dim_t`. -/
structure CfiDim where
  extent : Int
  sm : Int

/-- The dimensions as numbers of elements and strides. -/
def toDims (dim : List CfiDim) : List Dim := dim.map fun d => ⟨d.extent.toNat, d.sm⟩

/-- `CFI_cdesc_t` of an array in memory; `rank` is the length of `dim`. -/
structure CfiDesc (header : CfiTypeName → Int) where
  baseAddr : Nat
  elemLen : Nat
  type : Int
  dim : List CfiDim
  extent_pos : ∀ d ∈ dim, 0 < d.extent
  /-- the length of an element is that of its type -/
  elemLen_eq : ∀ entry ∈ CfiTypeName.toMpiType, header entry.1 = type → elemLen = entry.2.size
  size_lt : count (toDims dim) * elemLen < 2 ^ 64
  in_memory : ∀ o ∈ offsets (toDims dim), 0 ≤ (baseAddr : Int) + o

namespace CfiDesc

variable {header : CfiTypeName → Int}

def dims (array : CfiDesc header) : List Dim := toDims array.dim

/-- The byte at `x` belongs to an element of the array. -/
def ByteOf (array : CfiDesc header) (x : Nat) : Prop :=
  Covered array.elemLen (offsets array.dims) ((x : Int) - array.baseAddr)

/-- `len`, a `size_t`. -/
def len (array : CfiDesc header) : Nat :=
  array.dim.foldl (fun len d => wrap (len * (d.extent % 2 ^ 64).toNat)) 1

end CfiDesc

/-! ## Registering an area -/

/-- The context: the flags of the Fortran object, and the areas of the C++ one. -/
structure FortranCtx where
  isInParallel : Bool
  exitedParallel : Bool
  reduces : List ReduceArea

section

variable (header : CfiTypeName → Int) (ndebug : Bool)

/-- `s_p_f_ctx_add_reduce_area`. -/
def spfCtxAddReduceArea (ctx : FortranCtx) (array : CfiDesc header) (op : MpiOp) :
    Except String FortranCtx := do
  unless ndebug || decide (0 < array.len) do throw "BOOST_ASSERT(len > 0)"
  let type ← ftype2MpiType header array.type
  pure { ctx with reduces := ctx.reduces ++ [⟨array.baseAddr, array.len, type, op⟩] }

/-- `add_reduce`. -/
def addReduce (ctx : FortranCtx) (array : CfiDesc header) (op : MpiOp) :
    Except String FortranCtx := do
  if ctx.isInParallel then throw "Error: cannot add reduce area while in parallel"
  if ctx.exitedParallel then throw "Error: cannot add reduce area after exiting parallel"
  spfCtxAddReduceArea header ndebug ctx array op

end

/-- The area is the array: its bytes are those of the elements, and these are what the
initialisation on a worker and the reduction change. -/
structure AreaIsArray {header : CfiTypeName → Int} (array : CfiDesc header) (area : ReduceArea) :
    Prop where
  bytes : ∀ x, area.memArea.Mem x ↔ array.ByteOf x
  init : ∀ m m', area.initReduceAreaOnWorker m = .ok m' → ∀ x,
    (array.ByteOf x → m' x = area.identityByte) ∧ (¬ array.ByteOf x → m' x = m x)
  reduce : ∀ fsum workers root x,
    (array.ByteOf x → area.reduce fsum workers root x =
      Mem.byteAt (reducedElem fsum area.op area.type area.begin workers root
        ((x - area.begin) / area.type.size)) ((x - area.begin) % area.type.size)) ∧
    (¬ array.ByteOf x → area.reduce fsum workers root x = root x)

/-- An array is rejected, or registered as an area that is the array. -/
def RegistersArray (header : CfiTypeName → Int) (ndebug : Bool) (ctx : FortranCtx)
    (array : CfiDesc header) (op : MpiOp) : Prop :=
  ∀ ctx', addReduce header ndebug ctx array op = .ok ctx' →
    ∃ area, ctx'.reduces = ctx.reduces ++ [area] ∧ AreaIsArray array area

section

variable {header : CfiTypeName → Int} {ndebug : Bool} {ctx ctx' : FortranCtx}
  {array : CfiDesc header} {op : MpiOp} {type : MpiDatatype} {area : ReduceArea}

theorem ftype2MpiType_mem (h : ftype2MpiType header array.type = .ok type) :
    array.elemLen = type.size := by
  unfold ftype2MpiType at h
  split at h
  · next entry hfind =>
    cases h
    have hkey := List.find?_some hfind
    exact array.elemLen_eq entry (List.mem_of_find?_eq_some hfind) (by simpa using hkey)
  · split at h <;> cases h

theorem size_pos_of_ftype (h : ftype2MpiType header array.type = .ok type) : 0 < type.size := by
  unfold ftype2MpiType at h
  split at h
  · next entry hfind =>
    cases h
    have hall : ∀ entry ∈ CfiTypeName.toMpiType, 0 < entry.2.size := by decide
    exact hall entry (List.mem_of_find?_eq_some hfind)
  · split at h <;> cases h

theorem extent_pos_of_mem {d : Dim} (hd : d ∈ array.dims) : 0 < d.extent := by
  obtain ⟨c, hc, rfl⟩ := List.mem_map.mp hd
  have := array.extent_pos c hc
  show 0 < c.extent.toNat
  omega

theorem toDims_cons (d : CfiDim) (dim : List CfiDim) :
    toDims (d :: dim) = ⟨d.extent.toNat, d.sm⟩ :: toDims dim := rfl

/-- The loop multiplies the extents. -/
theorem foldl_extents (dim : List CfiDim) (hpos : ∀ d ∈ dim, 0 < d.extent) (a : Nat) :
    dim.foldl (fun len d => wrap (len * (d.extent % 2 ^ 64).toNat)) (wrap a) =
      wrap (a * count (toDims dim)) := by
  induction dim generalizing a with
  | nil => rw [List.foldl_nil, toDims, List.map_nil, count, Nat.mul_one]
  | cons d dim ih =>
    have hd := hpos d List.mem_cons_self
    have hextent : (d.extent % 2 ^ 64).toNat = wrap d.extent.toNat := by
      unfold wrap
      omega
    have hstep : wrap (wrap a * wrap d.extent.toNat) = wrap (a * d.extent.toNat) :=
      (Nat.mul_mod _ _ _).symm
    rw [List.foldl_cons, hextent, hstep, ih fun d' hd' => hpos d' (List.mem_cons_of_mem _ hd')]
    rw [toDims_cons, count, Nat.mul_assoc]

/-- The length is the number of elements. -/
theorem len_eq (hlen : 0 < array.elemLen) : array.len = count array.dims := by
  have hlt : count array.dims < 2 ^ 64 :=
    Nat.lt_of_le_of_lt (Nat.le_mul_of_pos_right _ hlen) array.size_lt
  have hfold := foldl_extents array.dim array.extent_pos 1
  rw [show wrap 1 = 1 from rfl, Nat.one_mul] at hfold
  exact hfold.trans (Nat.mod_eq_of_lt hlt)

theorem len_pos (hlen : 0 < array.elemLen) : 0 < array.len := by
  rw [len_eq hlen, ← length_offsets]
  exact List.length_pos_of_mem (zero_mem_offsets fun d hd => extent_pos_of_mem hd)

/-- Which arrays are registered, and as what. -/
theorem spfCtxAddReduceArea_ok : spfCtxAddReduceArea header ndebug ctx array op = .ok ctx' ↔
    ∃ type, ftype2MpiType header array.type = .ok type ∧
      ctx' = { ctx with reduces := ctx.reduces ++ [⟨array.baseAddr, array.len, type, op⟩] } := by
  unfold spfCtxAddReduceArea
  cases htype : ftype2MpiType header array.type with
  | error e =>
    refine iff_of_false ?_ fun ⟨_, h, _⟩ => by cases h
    split <;>
    · intro h
      cases h
  | ok type =>
    have hlen := len_pos (ftype2MpiType_mem htype ▸ size_pos_of_ftype htype)
    rw [decide_eq_true hlen, Bool.or_true]
    constructor
    · intro h
      cases h
      exact ⟨type, rfl, rfl⟩
    · rintro ⟨_, h, rfl⟩
      cases h
      rfl

theorem addReduce_ok : addReduce header ndebug ctx array op = .ok ctx' ↔
    ctx.isInParallel = false ∧ ctx.exitedParallel = false ∧
      ∃ type, ftype2MpiType header array.type = .ok type ∧
        ctx' = { ctx with reduces := ctx.reduces ++ [⟨array.baseAddr, array.len, type, op⟩] } := by
  have hspf : spfCtxAddReduceArea header ndebug ctx array op = .ok ctx' ↔ _ :=
    spfCtxAddReduceArea_ok
  rw [← hspf]
  clear hspf
  obtain ⟨inParallel, exitedParallel, reduces⟩ := ctx
  cases inParallel with
  | true => exact iff_of_false (by intro h; cases h) fun h => by cases h.1
  | false =>
    cases exitedParallel with
    | true => exact iff_of_false (by intro h; cases h) fun h => by cases h.2.1
    | false => exact ⟨fun h => ⟨rfl, rfl, h⟩, fun h => h.2.2⟩

/-- What the area covers is what the reduction and the initialisation change. -/
theorem areaIsArray_of_bytes (h : ∀ x, area.memArea.Mem x ↔ array.ByteOf x) :
    AreaIsArray array area where
  bytes := h
  init m m' hinit x := by
    obtain ⟨-, rfl⟩ := ReduceArea.initReduceAreaOnWorker_ok.mp hinit
    exact ⟨fun hx => Mem.fillRange_in ((h x).mpr hx),
      fun hx => Mem.fillRange_out fun hin => hx ((h x).mp hin)⟩
  reduce fsum workers root x := by
    rw [reduce_apply]
    exact ⟨fun hx => mpiReduce_in ((h x).mpr hx),
      fun hx => mpiReduce_out fun hin => hx ((h x).mp hin)⟩

/-- The area begins at the first element. -/
theorem bytes_iff_fills (op : MpiOp) (htype : array.elemLen = type.size) (hpos : 0 < type.size) :
    (∀ x, (ReduceArea.mk array.baseAddr array.len type op).memArea.Mem x ↔ array.ByteOf x) ↔
      Fills array.elemLen array.dims := by
  have harea : ∀ x : Nat, (ReduceArea.mk array.baseAddr array.len type op).memArea.Mem x ↔
      0 ≤ (x : Int) - array.baseAddr ∧
        (x : Int) - array.baseAddr < (count array.dims * array.elemLen : Nat) := by
    intro x
    rw [← len_eq (htype ▸ hpos), htype]
    show array.baseAddr ≤ x ∧ x < array.baseAddr + array.len * type.size ↔ _
    omega
  simp only [harea]
  constructor
  · intro h x
    by_cases hx : 0 ≤ (array.baseAddr : Int) + x
    · have := h ((array.baseAddr : Int) + x).toNat
      rw [CfiDesc.ByteOf, Int.toNat_of_nonneg hx, add_sub_cancel_left] at this
      exact this.symm
    · refine ⟨?_, fun hin => absurd hin.1 (by omega)⟩
      rintro ⟨o, ho, hle, -⟩
      have := array.in_memory o ho
      omega
  · exact fun h x => (h _).symm

/-- An area with the bytes of the array is one of a packed array. -/
theorem registersArray_iff (hin : ctx.isInParallel = false) (hout : ctx.exitedParallel = false)
    (htype : ftype2MpiType header array.type = .ok type) :
    RegistersArray header ndebug ctx array op ↔ Packed array.elemLen array.dims := by
  have hsize := ftype2MpiType_mem htype
  have hpos := size_pos_of_ftype htype
  rw [← fills_iff (hsize ▸ hpos) fun d hd => extent_pos_of_mem hd,
    ← bytes_iff_fills op hsize hpos]
  constructor
  · intro h
    obtain ⟨area, harea, harray⟩ := h _ (addReduce_ok.mpr ⟨hin, hout, type, htype, rfl⟩)
    rw [List.singleton_inj.mp (List.append_cancel_left harea)]
    exact harray.bytes
  · intro h ctx' hctx
    obtain ⟨-, -, type', htype', rfl⟩ := addReduce_ok.mp hctx
    rw [htype] at htype'
    cases htype'
    exact ⟨_, rfl, areaIsArray_of_bytes h⟩

end

/-- An array that is not rejected becomes the area that it is exactly when it is packed. -/
theorem fortran_area_iff (header : CfiTypeName → Int) (ndebug : Bool) (ctx : FortranCtx)
    (array : CfiDesc header) (op : MpiOp) :
    RegistersArray header ndebug ctx array op ↔
      (ctx.isInParallel = false → ctx.exitedParallel = false →
        (∃ type, ftype2MpiType header array.type = .ok type) →
          Packed array.elemLen array.dims) := by
  constructor
  · rintro h hin hout ⟨type, htype⟩
    exact (registersArray_iff hin hout htype).mp h
  · intro h ctx' hctx
    obtain ⟨hin, hout, type, htype, -⟩ := addReduce_ok.mp hctx
    exact (registersArray_iff hin hout htype).mpr (h hin hout ⟨type, htype⟩) ctx' hctx

/-- The values of the macros with one compiler. -/
def gfortran : CfiTypeName → Int
  | .signedChar | .int8 | .intLeast8 | .intFast8 => 257
  | .short | .int16 | .intLeast16 => 513
  | .int | .int32 | .intLeast32 => 1025
  | .long | .longLong | .sizeT | .int64 | .intLeast64 | .intFast16 | .intFast32 | .intFast64
  | .intmax | .intptr | .ptrdiff => 2049
  | .bool => 258
  | .float => 1027
  | .double => 2051
  | .longDouble => 2563
  | .floatComplex => 1028
  | .doubleComplex => 2052
  | .longDoubleComplex => 2564
  | .char => 261
  | .struct => 6
  | .cptr => 7
  | .other => -1

/-- `a(1:9:2)` of an array of doubles. -/
def everySecond : CfiDesc gfortran where
  baseAddr := 4096
  elemLen := 8
  type := 2051
  dim := [⟨5, 16⟩]
  extent_pos := by decide
  elemLen_eq := by decide
  size_lt := by decide
  in_memory := by decide

/-- The bytes between the elements would be overwritten. -/
theorem fortran_area_not :
    ¬ RegistersArray gfortran false ⟨false, false, []⟩ everySecond .sum := by
  intro h
  have htype : ftype2MpiType gfortran everySecond.type = .ok .double := rfl
  obtain ⟨order, hperm, hpacked⟩ := (registersArray_iff rfl rfl htype).mp h
  have horder : order = [⟨5, 16⟩] := List.perm_singleton.mp hperm
  rw [horder] at hpacked
  exact absurd hpacked.1 (by decide)

end SimpleParallel.Reduce
