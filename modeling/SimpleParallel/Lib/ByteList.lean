import SimpleParallel.Lib.Bytes
import SimpleParallel.Lib.Loops

/-!
# Byte strings

Numbers and arrays of records as lists of bytes, and a buffer that is filled
part by part.

* `toNat_ofNat`: a number that was written is read back.
* `fields_ofFields`, `elements_array`: so are the fields of a record and the
  elements of an array.
* `overwrite_chunks`: parts that are written one after the other fill a buffer.
-/

abbrev ByteList := List UInt8

namespace ByteList

/-! ## Numbers -/

/-- The `n` bytes of a number, in little-endian order. -/
def ofNat (n k : Nat) : ByteList := (List.range n).map (Mem.byteAt k)

def toNat (l : ByteList) : Nat := Mem.load (fun i => l.getD i 0) 0 l.length

@[simp] theorem length_ofNat (n k : Nat) : (ofNat n k).length = n := by simp [ofNat]

theorem toNat_ofNat {n k : Nat} (h : k < 256 ^ n) : toNat (ofNat n k) = k := by
  rw [toNat, length_ofNat]
  refine Mem.load_eq h fun i hi => ?_
  simp [ofNat, hi]

/-- The bytes of a memory from `a` on. -/
def ofMem (m : Mem) (a n : Nat) : ByteList := (List.range n).map fun i => m (a + i)

@[simp] theorem length_ofMem (m : Mem) (a n : Nat) : (ofMem m a n).length = n := by simp [ofMem]

/-- The memory with these bytes from `a` on. -/
def toMem (l : ByteList) (a : Nat) (m : Mem) : Mem := fun x =>
  if a ≤ x ∧ x < a + l.length then l.getD (x - a) 0 else m x

theorem toMem_ofMem (src m : Mem) (a n : Nat) :
    toMem (ofMem src a n) a m = Mem.copyRange src a n m := by
  funext x
  unfold toMem Mem.copyRange
  rw [length_ofMem]
  by_cases hx : a ≤ x ∧ x < a + n
  · rw [if_pos hx, if_pos hx, ofMem, List.getD_eq_getElem?_getD,
      List.getElem?_map, List.getElem?_range (by omega), Option.map_some, Option.getD_some,
      Nat.add_sub_cancel' hx.1]
  · rw [if_neg hx, if_neg hx]

/-! ## Records -/

/-- Fields one after the other, each of a width and with a value. -/
def ofFields (fields : List (Nat × Nat)) : ByteList := fields.flatMap fun p => ofNat p.1 p.2

/-- The values of fields of these widths. -/
def fields : List Nat → ByteList → List Nat
  | [], _ => []
  | n :: widths, l => toNat (l.take n) :: fields widths (l.drop n)

theorem fields_ofFields {l : List (Nat × Nat)} (h : ∀ p ∈ l, p.2 < 256 ^ p.1) :
    fields (l.map Prod.fst) (ofFields l) = l.map Prod.snd := by
  induction l with
  | nil => rfl
  | cons p l ih =>
    rw [List.map_cons, fields, ofFields, List.flatMap_cons, List.take_left' (length_ofNat p.1 p.2),
      List.drop_left' (length_ofNat p.1 p.2), toNat_ofNat (h p List.mem_cons_self), ← ofFields,
      ih fun q hq => h q (List.mem_cons_of_mem _ hq), List.map_cons]

/-- How values of a type lie in memory: their bytes, and the values that are read
back. -/
structure Layout (α : Type) where
  width : Nat
  encode : α → ByteList
  decode : ByteList → α
  length_encode : ∀ a, (encode a).length = width

namespace Layout

variable {α : Type} (layout : Layout α)

/-- An array. -/
def array (as : List α) : ByteList := as.flatMap layout.encode

/-- The first `n` elements of an array. -/
def elements : Nat → ByteList → List α
  | 0, _ => []
  | n + 1, l => layout.decode (l.take layout.width) :: elements n (l.drop layout.width)

variable {layout} {as : List α}

theorem length_array : (layout.array as).length = layout.width * as.length := by
  simp [array, List.length_flatMap, layout.length_encode, List.map_const', Nat.mul_comm]

theorem elements_array (h : ∀ a ∈ as, layout.decode (layout.encode a) = a) :
    layout.elements as.length (layout.array as) = as := by
  induction as with
  | nil => rfl
  | cons a as ih =>
    rw [List.length_cons, array, List.flatMap_cons, elements,
      List.take_left' (layout.length_encode a), List.drop_left' (layout.length_encode a),
      h a List.mem_cons_self, ← array, ih fun b hb => h b (List.mem_cons_of_mem _ hb)]

end Layout

/-! ## Buffers -/

/-- The buffer with `part` written at `i`. -/
def overwrite (buffer : ByteList) (i : Nat) (part : ByteList) : ByteList :=
  buffer.take i ++ part ++ buffer.drop (i + part.length)

theorem length_overwrite {buffer part : ByteList} {i : Nat} (h : i + part.length ≤ buffer.length) :
    (overwrite buffer i part).length = buffer.length := by
  simp only [overwrite, List.length_append, List.length_take, List.length_drop]
  omega

/-- A buffer that agrees with `whole` up to `i` agrees with it up to the end of
the part that is written next. -/
theorem overwrite_take {buffer whole : ByteList} {i n : Nat}
    (hlength : buffer.length = whole.length) (hfits : i + n ≤ whole.length)
    (h : buffer.take i = whole.take i) :
    (overwrite buffer i ((whole.drop i).take n)).take (i + n) = whole.take (i + n) := by
  have hpart : ((whole.drop i).take n).length = n := by
    rw [List.length_take, List.length_drop]
    omega
  have hfirst : (buffer.take i).length = i := by
    rw [List.length_take]
    omega
  rw [overwrite, List.take_left' (by rw [List.length_append, hfirst, hpart]), h, List.take_add]

/-- Writing what a buffer holds changes nothing. -/
theorem overwrite_same {whole : ByteList} {i n : Nat} :
    overwrite whole i ((whole.drop i).take n) = whole := by
  have hrest : (whole.drop i).drop ((whole.drop i).take n).length = (whole.drop i).drop n := by
    rw [List.drop_eq_drop_iff, List.length_take]
    omega
  rw [overwrite, List.append_assoc, ← List.drop_drop, hrest, List.take_append_drop,
    List.take_append_drop]

/-- Writing the whole buffer. -/
theorem overwrite_all {buffer whole : ByteList} (h : buffer.length = whole.length) :
    overwrite buffer 0 ((whole.drop 0).take whole.length) = whole := by
  rw [List.drop_zero, List.take_length, overwrite, List.take_zero, List.nil_append, Nat.zero_add,
    List.drop_of_length_le (Nat.le_of_eq h), List.append_nil]

/-- Writing all chunks of `whole` one after the other gives `whole`. -/
theorem overwrite_chunks {buffer whole : ByteList} {max : Nat} (hmax : 0 < max)
    (hlength : buffer.length = whole.length) :
    (Loops.chunks max whole.length).foldl
      (fun b c => overwrite b c.1 ((whole.drop c.1).take c.2)) buffer = whole := by
  suffices ∀ sent, ∀ b : ByteList, b.length = whole.length → b.take sent = whole.take sent →
      (Loops.chunksFrom max sent whole.length).foldl
        (fun b c => overwrite b c.1 ((whole.drop c.1).take c.2)) b = whole from
    this 0 buffer hlength rfl
  intro sent
  induction sent using Loops.chunksFrom.induct max whole.length with
  | case1 sent hlt ih =>
    intro b hb hsame
    rw [Loops.chunksFrom_cons hlt.1 hmax, List.foldl_cons]
    obtain ⟨n, hn⟩ : ∃ n, n = min max (whole.length - sent) := ⟨_, rfl⟩
    have hpart : ((whole.drop sent).take n).length = n := by
      rw [List.length_take, List.length_drop]
      omega
    obtain ⟨next, hnext⟩ : ∃ next, next = overwrite b sent ((whole.drop sent).take n) := ⟨_, rfl⟩
    have hb' : next.length = whole.length := by
      rw [hnext, length_overwrite (by omega), hb]
    have htake : next.take (sent + n) = whole.take (sent + n) := by
      rw [hnext]
      exact overwrite_take hb (by omega) hsame
    simp only [← hn, ← hnext]
    refine ih next hb' ?_
    by_cases hend : n = max
    · rwa [hend] at htake
    · -- the last chunk
      rw [List.take_of_length_le (by omega), List.take_of_length_le (by omega)] at htake ⊢
      exact htake
  | case2 sent hnot =>
    intro b hb hsame
    rw [Loops.chunksFrom_nil (by omega), List.foldl_nil]
    rwa [List.take_of_length_le (by omega), List.take_of_length_le (by omega)] at hsame

end ByteList
