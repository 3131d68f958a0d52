import SimpleParallel.Lib.Accumulate
import SimpleParallel.Sync.Agreement

/-!
# The reduction law

A section in which every rank only combines values into elements of its areas
leaves on the leader what the leader alone would have computed.

The proof follows what a reduction would leave if it took place now
(`reduced`): after the entry it is the leader's memory before it, since the
workers hold identities, and every contribution of any rank changes it as the
same contribution changes the leader's memory.

* `load_reduceAll`: the elements after the reduction of all areas.
* `reduced_contribute`: one contribution; `reduced_body`: a whole body.
* `reduction_law`: entry, body and exit.
-/

namespace SimpleParallel.Reduce

open Sync

/-! ## Elements -/

namespace ReduceArea

/-- An integer type with `MPI_SUM`, or `MPI_C_BOOL` with `MPI_LAND` or
`MPI_LOR`. -/
def ExactPair (r : ReduceArea) : Prop :=
  (r.type ∈ MpiDatatype.zeroInitTypes ∧ r.type ∉ MpiDatatype.floats ∧ r.op = .sum) ∨
    (r.type = .cBool ∧ (r.op = .land ∨ r.op = .lor))

instance (r : ReduceArea) : Decidable r.ExactPair := inferInstanceAs (Decidable (_ ∨ _))

/-- The address of element `j`. -/
def elem (r : ReduceArea) (j : Nat) : Nat := r.begin + j * r.type.size

/-- The identity of the area's operation, as an element. -/
def identity (r : ReduceArea) : Nat := if r.op = .land then 1 else 0

variable {r : ReduceArea} {fsum : FloatSum} {m : Mem} {i j x y : Nat}

theorem elem_mem (hj : j < r.count) (hi : i < r.type.size) : r.memArea.Mem (r.elem j + i) := by
  have hle : (j + 1) * r.type.size ≤ r.count * r.type.size := Nat.mul_le_mul_right _ hj
  rw [Nat.add_mul, Nat.one_mul] at hle
  simp only [MemArea.Mem, memArea, elem]
  omega

/-- Every byte of an area belongs to an element. -/
theorem exists_elem (hx : r.memArea.Mem x) :
    ∃ j i, j < r.count ∧ i < r.type.size ∧ x = r.elem j + i := by
  obtain ⟨hlo, hhi⟩ := hx
  simp only [memArea] at hlo hhi
  have hpos : 0 < r.type.size := Nat.pos_of_ne_zero fun h0 => by rw [h0] at hhi; omega
  refine ⟨(x - r.begin) / r.type.size, (x - r.begin) % r.type.size, ?_, Nat.mod_lt _ hpos, ?_⟩
  · exact Nat.div_lt_of_lt_mul (by rw [Nat.mul_comm]; omega)
  · have := Nat.div_add_mod' (x - r.begin) r.type.size
    unfold elem
    omega

/-- Memories with the same elements in all areas, and the same bytes outside, are equal. -/
theorem mem_ext (reduces : List ReduceArea) {m m' : Mem}
    (hin : ∀ r ∈ reduces, ∀ j < r.count,
      m.load (r.elem j) r.type.size = m'.load (r.elem j) r.type.size)
    (hout : ∀ x, (∀ r ∈ reduces, ¬ r.memArea.Mem x) → m x = m' x) : m = m' := by
  funext x
  by_cases hx : ∃ r ∈ reduces, r.memArea.Mem x
  · obtain ⟨r, hr, hxr⟩ := hx
    obtain ⟨j, i, hj, hi, rfl⟩ := exists_elem hxr
    exact Mem.eq_of_load_eq (hin r hr j hj) hi
  · exact hout x fun r hr hxr => hx ⟨r, hr, hxr⟩

/-- Two elements of an area are equal or apart. -/
theorem elem_apart {k : Nat} (h : j ≠ k) :
    r.elem j + r.type.size ≤ r.elem k ∨ r.elem k + r.type.size ≤ r.elem j := by
  unfold elem
  rcases Nat.lt_or_gt_of_ne h with h | h
  · have := Nat.mul_le_mul_right r.type.size h
    rw [Nat.succ_mul] at this
    omega
  · have := Nat.mul_le_mul_right r.type.size h
    rw [Nat.succ_mul] at this
    omega

/-! ## The operations -/

theorem ofBool_eq_zero {b : Bool} : ofBool b = 0 ↔ b = false := by
  cases b <;> decide

/-- Exact operations combine values in any order. -/
theorem ExactPair.accumulates (h : r.ExactPair) : Accumulates (r.op.combine fsum r.type) := by
  rcases h with ⟨-, hint, hop⟩ | ⟨-, hop | hop⟩
  · have hsum : ∀ a b, r.op.combine fsum r.type a b = (a + b) % 256 ^ r.type.size := by
      intro a b
      rw [hop]
      simp only [MpiOp.combine, if_neg hint]
    refine ⟨fun a b c => ?_, fun a b => ?_⟩
    · rw [hsum, hsum, hsum, hsum, Nat.mod_add_mod, Nat.add_mod_mod, Nat.add_assoc]
    · rw [hsum, hsum, Nat.add_comm]
  · rw [hop]
    refine ⟨fun a b c => ?_, fun a b => ?_⟩
    · simp [MpiOp.combine, ofBool_eq_zero, and_assoc]
    · simp [MpiOp.combine, and_comm]
  · rw [hop]
    refine ⟨fun a b c => ?_, fun a b => ?_⟩
    · simp [MpiOp.combine, ofBool_eq_zero, Bool.or_assoc]
    · simp [MpiOp.combine, or_comm]

theorem ExactPair.supported (h : r.ExactPair) : r.Supported :=
  h.imp_left fun h => ⟨h.1, h.2.2⟩

/-- They stay inside the element. -/
theorem ExactPair.combine_lt (h : r.ExactPair) :
    r.op.combine fsum r.type x y < 256 ^ r.type.size := by
  have hbool : ∀ b, ofBool b < 256 ^ MpiDatatype.cBool.size := by decide
  rcases h with ⟨-, -, hop⟩ | ⟨htype, hop | hop⟩
  · rw [hop]
    exact Nat.mod_lt _ (Nat.pow_pos (by decide))
  · rw [hop, htype]
    exact hbool _
  · rw [hop, htype]
    exact hbool _

/-- The area holds values of its type before the section: a truth value is 0
or 1. -/
def Valid (r : ReduceArea) (m : Mem) : Prop :=
  r.type = .cBool → ∀ x, r.memArea.Mem x → m x = 0 ∨ m x = 1

/-- The identity changes no value. -/
theorem ExactPair.combine_identity (h : r.ExactPair) (hx : x < 256 ^ r.type.size)
    (hbool : r.type = .cBool → x = 0 ∨ x = 1) : r.op.combine fsum r.type x r.identity = x := by
  rcases h with ⟨-, hint, hop⟩ | ⟨htype, hop | hop⟩
  · simp only [hop, MpiOp.combine, if_neg hint, identity]
    exact Nat.mod_eq_of_lt hx
  · rcases hbool htype with rfl | rfl <;> simp [hop, MpiOp.combine, identity, ofBool]
  · rcases hbool htype with rfl | rfl <;> simp [hop, MpiOp.combine, identity, ofBool]

/-- An element whose bytes are identity bytes is the identity. -/
theorem load_identity (hr : r.Supported)
    (h : ∀ i < r.type.size, m (r.elem j + i) = r.identityByte) :
    m.load (r.elem j) r.type.size = r.identity := by
  by_cases hop : r.op = .land
  · have htype : r.type = .cBool := by
      rcases hr with ⟨-, h⟩ | ⟨h, -⟩
      · rw [hop] at h
        cases h
      · exact h
    have hbyte := h 0 (by rw [htype]; decide)
    rw [identityByte, if_pos hop, Nat.add_zero] at hbyte
    rw [htype, identity, if_pos hop]
    show m.load _ 1 = 1
    simp [Mem.load, hbyte]
  · rw [identity, if_neg hop]
    refine Mem.load_eq (Nat.pow_pos (by decide)) fun i hi => ?_
    rw [h i hi, identityByte, if_neg hop, Mem.byteAt, Nat.zero_div]
    rfl

end ReduceArea

/-! ## The reduction of all areas -/

section Elements

variable {fsum : FloatSum} {reduces : List ReduceArea} {r : ReduceArea} {workers : List Mem}
  {root : Mem} {j : Nat}

/-- Element `j` of an area, combined over all ranks. -/
def reducedValue (fsum : FloatSum) (r : ReduceArea) (workers : List Mem) (root : Mem) (j : Nat) :
    Nat := reducedElem fsum r.op r.type r.begin workers root j

theorem reducedValue_eq : reducedValue fsum r workers root j =
    (workers.map fun w => w.load (r.elem j) r.type.size).foldl (r.op.combine fsum r.type)
      (root.load (r.elem j) r.type.size) := by
  rw [List.foldl_map]
  rfl

theorem reducedValue_lt (h : r.ExactPair) :
    reducedValue fsum r workers root j < 256 ^ r.type.size := by
  rw [reducedValue_eq]
  have hfold : ∀ (l : List Nat) (a : Nat), a < 256 ^ r.type.size →
      l.foldl (r.op.combine fsum r.type) a < 256 ^ r.type.size := by
    intro l
    induction l with
    | nil => exact fun _ ha => ha
    | cons b l ih => exact fun a _ => ih _ h.combine_lt
  exact hfold _ _ (Mem.load_lt _ _ _)

theorem load_reduce (h : r.ExactPair) (hj : j < r.count) :
    (r.reduce fsum workers root).load (r.elem j) r.type.size =
      reducedValue fsum r workers root j := by
  refine Mem.load_eq (reducedValue_lt h) fun i hi => ?_
  have hmem : r.begin ≤ r.elem j + i ∧ r.elem j + i < r.begin + r.count * r.type.size :=
    ReduceArea.elem_mem hj hi
  have hsub : r.elem j + i - r.begin = i + j * r.type.size := by
    unfold ReduceArea.elem
    omega
  have hpos : 0 < r.type.size := by omega
  rw [reduce_apply, mpiReduce_in hmem, hsub, Nat.add_mul_div_right _ _ hpos,
    Nat.div_eq_of_lt hi, Nat.zero_add, Nat.add_mul_mod_self_right, Nat.mod_eq_of_lt hi]
  rfl

/-- The elements after the reduction of areas that share no byte. -/
theorem load_reduceAll (hno : ReduceArea.NoOverlap reduces) (hr : r ∈ reduces)
    (h : r.ExactPair) (hj : j < r.count) :
    (reduceAll fsum reduces workers root).load (r.elem j) r.type.size =
      reducedValue fsum r workers root j := by
  induction reduces generalizing root with
  | nil => cases hr
  | cons a reduces ih =>
    obtain ⟨hfirst, hrest⟩ := List.pairwise_cons.mp hno
    show (reduceAll fsum reduces workers (a.reduce fsum workers root)).load _ _ = _
    rcases List.mem_cons.mp hr with rfl | hr
    · rw [← load_reduce h hj]
      exact Mem.load_congr fun i hi => reduceAll_out fun b hb hx =>
        hfirst b hb _ (ReduceArea.elem_mem hj hi) hx
    · rw [ih hrest hr]
      -- the area `a` does not reach this element of the root
      have hsame : (a.reduce fsum workers root).load (r.elem j) r.type.size =
          root.load (r.elem j) r.type.size := by
        refine Mem.load_congr fun i hi => ?_
        rw [reduce_apply]
        exact mpiReduce_out fun hx => hfirst r hr _ hx (ReduceArea.elem_mem hj hi)
      rw [reducedValue_eq, reducedValue_eq, hsame]

end Elements

/-! ## Contributions -/

/-- The memories of the leader and its workers. -/
structure Memories (W : Nat) where
  leader : Mem
  workers : Fin W → Mem

/-- A rank combines a value into an element of an area; the rank is a worker or
the leader. -/
structure Contribution (W : Nat) where
  rank : Option (Fin W)
  area : ReduceArea
  index : Nat
  value : Nat

variable {W : Nat}

namespace Contribution

/-- The effect on the memory of the rank. -/
def apply (fsum : FloatSum) (c : Contribution W) (m : Mem) : Mem :=
  m.store (c.area.op.combine fsum c.area.type (m.load (c.area.elem c.index) c.area.type.size)
    c.value) (c.area.elem c.index) c.area.type.size

/-- The element exists. -/
structure Into (reduces : List ReduceArea) (c : Contribution W) : Prop where
  area : c.area ∈ reduces
  index : c.index < c.area.count

end Contribution

/-- The body of a section takes one contribution. -/
def Memories.contribute (fsum : FloatSum) (ms : Memories W) (c : Contribution W) : Memories W :=
  match c.rank with
  | none => { ms with leader := c.apply fsum ms.leader }
  | some w => { ms with workers := Function.update ms.workers w (c.apply fsum (ms.workers w)) }

/-- What a reduction would leave on the leader now. -/
def Memories.reduced (fsum : FloatSum) (reduces : List ReduceArea) (ms : Memories W) : Mem :=
  reduceAll fsum reduces (List.ofFn ms.workers) ms.leader

section Body

variable {fsum : FloatSum} {reduces : List ReduceArea} {r : ReduceArea} {c : Contribution W}
  {ms : Memories W} {m : Mem} {j x : Nat}

theorem ReduceArea.ExactPair.size_pos (h : r.ExactPair) : 0 < r.type.size := by
  have hall : ∀ type ∈ MpiDatatype.zeroInitTypes, 0 < type.size := by decide
  rcases h with ⟨h, -, -⟩ | ⟨h, -⟩
  · exact hall _ h
  · rw [h]
    decide

/-- Elements of different areas are apart. -/
theorem elem_apart_of_ne {a : ReduceArea} {k : Nat} (hno : ReduceArea.NoOverlap reduces)
    (ha : a ∈ reduces) (hr : r ∈ reduces) (hne : a ≠ r) (hapos : 0 < a.type.size)
    (hrpos : 0 < r.type.size) (hk : k < a.count) (hj : j < r.count) :
    a.elem k + a.type.size ≤ r.elem j ∨ r.elem j + r.type.size ≤ a.elem k := by
  have hdisjoint : ∀ x, a.memArea.Mem x → ¬ r.memArea.Mem x := by
    have hsymm : Std.Symm fun l r : ReduceArea => ∀ x, l.memArea.Mem x → ¬ r.memArea.Mem x :=
      ⟨fun l r h x hr hl => h x hl hr⟩
    exact hno.forall ha hr hne
  by_contra hclose
  rcases Nat.le_total (a.elem k) (r.elem j) with h | h
  · have hx := ReduceArea.elem_mem (i := r.elem j - a.elem k) hk (by omega)
    rw [Nat.add_sub_cancel' h] at hx
    exact hdisjoint _ hx (ReduceArea.elem_mem (i := 0) hj hrpos)
  · have hx := ReduceArea.elem_mem (i := a.elem k - r.elem j) hj (by omega)
    rw [Nat.add_sub_cancel' h] at hx
    exact hdisjoint _ (ReduceArea.elem_mem (i := 0) hk hapos) hx

/-- A contribution combines its value into its element. -/
theorem load_apply_same (h : c.area.ExactPair) :
    (c.apply fsum m).load (c.area.elem c.index) c.area.type.size =
      c.area.op.combine fsum c.area.type (m.load (c.area.elem c.index) c.area.type.size) c.value :=
  Mem.load_store h.combine_lt

/-- It leaves the other elements alone. -/
theorem load_apply_other (hno : ReduceArea.NoOverlap reduces)
    (hexact : ∀ r ∈ reduces, r.ExactPair) (hc : c.Into reduces) (hr : r ∈ reduces)
    (hj : j < r.count) (hne : ¬ (c.area = r ∧ c.index = j)) :
    (c.apply fsum m).load (r.elem j) r.type.size = m.load (r.elem j) r.type.size := by
  refine Mem.load_store_other ?_
  by_cases harea : c.area = r
  · have hindex : j ≠ c.index := fun h => hne ⟨harea, h.symm⟩
    rw [harea]
    exact ReduceArea.elem_apart hindex
  · exact (elem_apart_of_ne hno hc.area hr harea (hexact _ hc.area).size_pos
      (hexact _ hr).size_pos hc.index hj).symm

theorem apply_out (hc : c.Into reduces) (hx : ∀ r ∈ reduces, ¬ r.memArea.Mem x) :
    c.apply fsum m x = m x := by
  refine Mem.store_out fun hin => hx c.area hc.area ?_
  have hmem := ReduceArea.elem_mem (i := x - c.area.elem c.index) hc.index (by omega)
  rwa [Nat.add_sub_cancel' hin.1] at hmem

/-- The reduced value of the element grows by the contribution, whichever rank
made it. -/
theorem reducedValue_same (h : c.area.ExactPair) :
    reducedValue fsum c.area (List.ofFn (ms.contribute fsum c).workers)
        (ms.contribute fsum c).leader c.index =
      c.area.op.combine fsum c.area.type
        (reducedValue fsum c.area (List.ofFn ms.workers) ms.leader c.index) c.value := by
  have hop : Accumulates (c.area.op.combine fsum c.area.type) := h.accumulates
  rw [reducedValue_eq, reducedValue_eq, List.map_ofFn, List.map_ofFn]
  unfold Memories.contribute
  cases c.rank with
  | none => rw [load_apply_same h, hop.foldl_op]
  | some w =>
    rw [← hop.foldl_update _ w]
    congr 2
    funext w'
    by_cases hw : w' = w
    · subst hw
      simp only [Function.comp, Function.update_self]
      exact load_apply_same h
    · simp only [Function.comp, Function.update_of_ne hw]

theorem reducedValue_other (hno : ReduceArea.NoOverlap reduces)
    (hexact : ∀ r ∈ reduces, r.ExactPair) (hc : c.Into reduces) (hr : r ∈ reduces)
    (hj : j < r.count) (hne : ¬ (c.area = r ∧ c.index = j)) :
    reducedValue fsum r (List.ofFn (ms.contribute fsum c).workers) (ms.contribute fsum c).leader j =
      reducedValue fsum r (List.ofFn ms.workers) ms.leader j := by
  have hkeep : ∀ m : Mem, (c.apply fsum m).load (r.elem j) r.type.size =
      m.load (r.elem j) r.type.size := fun m => load_apply_other hno hexact hc hr hj hne
  rw [reducedValue_eq, reducedValue_eq, List.map_ofFn, List.map_ofFn]
  unfold Memories.contribute
  cases c.rank with
  | none => rw [hkeep]
  | some w =>
    congr 2
    funext w'
    by_cases hw : w' = w
    · subst hw
      simp only [Function.comp, Function.update_self]
      exact hkeep _
    · simp only [Function.comp, Function.update_of_ne hw]

/-- A contribution of any rank changes what a reduction would leave as it
changes the leader's memory. -/
theorem reduced_contribute (hno : ReduceArea.NoOverlap reduces)
    (hexact : ∀ r ∈ reduces, r.ExactPair) (hc : c.Into reduces) :
    (ms.contribute fsum c).reduced fsum reduces = c.apply fsum (ms.reduced fsum reduces) := by
  refine ReduceArea.mem_ext reduces (fun r hr j hj => ?_) fun x hout => ?_
  · have hreduced : ∀ ms : Memories W, (ms.reduced fsum reduces).load (r.elem j) r.type.size =
        reducedValue fsum r (List.ofFn ms.workers) ms.leader j :=
      fun ms => load_reduceAll hno hr (hexact r hr) hj
    rw [hreduced]
    by_cases hsame : c.area = r ∧ c.index = j
    · obtain ⟨rfl, rfl⟩ := hsame
      rw [load_apply_same (hexact _ hr), hreduced, reducedValue_same (hexact _ hr)]
    · rw [load_apply_other hno hexact hc hr hj hsame, hreduced,
        reducedValue_other hno hexact hc hr hj hsame]
  · rw [apply_out hc hout, Memories.reduced, Memories.reduced, reduceAll_out hout,
      reduceAll_out hout]
    unfold Memories.contribute
    cases c.rank with
    | none => exact apply_out hc hout
    | some w => rfl

/-- So does a whole body. -/
theorem reduced_body {body : List (Contribution W)} (hno : ReduceArea.NoOverlap reduces)
    (hexact : ∀ r ∈ reduces, r.ExactPair) (hbody : ∀ c ∈ body, c.Into reduces) :
    (body.foldl (Memories.contribute fsum) ms).reduced fsum reduces =
      body.foldl (fun m c => c.apply fsum m) (ms.reduced fsum reduces) := by
  induction body generalizing ms with
  | nil => rfl
  | cons c body ih =>
    rw [List.foldl_cons, List.foldl_cons, ih fun d hd => hbody d (List.mem_cons_of_mem _ hd),
      reduced_contribute hno hexact (hbody c List.mem_cons_self)]

/-- The value that a contribution brings to element `j` of `r`. -/
def Contribution.valueFor (r : ReduceArea) (j : Nat) (c : Contribution W) : Option Nat :=
  if c.area = r ∧ c.index = j then some c.value else none

/-- The elements of a memory that takes all contributions. -/
theorem load_foldl_apply {body : List (Contribution W)} (hno : ReduceArea.NoOverlap reduces)
    (hexact : ∀ r ∈ reduces, r.ExactPair) (hbody : ∀ c ∈ body, c.Into reduces) (hr : r ∈ reduces)
    (hj : j < r.count) :
    (body.foldl (fun m c => c.apply fsum m) m).load (r.elem j) r.type.size =
      (body.filterMap (·.valueFor r j)).foldl (r.op.combine fsum r.type)
        (m.load (r.elem j) r.type.size) := by
  induction body generalizing m with
  | nil => rfl
  | cons c body ih =>
    rw [List.foldl_cons, ih fun d hd => hbody d (List.mem_cons_of_mem _ hd)]
    by_cases hsame : c.area = r ∧ c.index = j
    · rw [List.filterMap_cons_some (b := c.value) (by simp [Contribution.valueFor, hsame]),
        List.foldl_cons]
      obtain ⟨rfl, rfl⟩ := hsame
      rw [load_apply_same (hexact _ hr)]
    · rw [List.filterMap_cons_none (by simp [Contribution.valueFor, hsame]),
        load_apply_other hno hexact (hbody c List.mem_cons_self) hr hj hsame]

theorem foldl_apply_out {body : List (Contribution W)} (hbody : ∀ c ∈ body, c.Into reduces)
    (hx : ∀ r ∈ reduces, ¬ r.memArea.Mem x) :
    body.foldl (fun m c => c.apply fsum m) m x = m x := by
  induction body generalizing m with
  | nil => rfl
  | cons c body ih =>
    rw [List.foldl_cons, ih fun d hd => hbody d (List.mem_cons_of_mem _ hd)]
    exact apply_out (hbody c List.mem_cons_self) hx

end Body

/-! ## Entry, body and exit -/

/-- The memories of all processes. -/
def memories (s : State W) : Memories W :=
  ⟨s.leader.space.mem, fun w => (s.workers w).space.mem⟩

/-- An address space with other contents. -/
def withMem (m : Mem) (v : AddressSpace) : AddressSpace := { v with mem := m }

/-- The effect of a contribution on the memories of the processes. -/
def contribute (P : Platform) (s : State W) (c : Contribution W) : State W :=
  match c.rank with
  | none =>
    let space := withMem (c.apply P.floatSum s.leader.space.mem) s.leader.space
    { s with leader := { s.leader with space } }
  | some w =>
    let space := withMem (c.apply P.floatSum (s.workers w).space.mem) (s.workers w).space
    { s with workers := Function.update s.workers w { s.workers w with space } }

variable {P : Platform} {s s' t : State W} {reduces : List ReduceArea}

theorem memories_contribute {c : Contribution W} :
    memories (contribute P s c) = (memories s).contribute P.floatSum c := by
  unfold contribute Memories.contribute memories
  cases c.rank with
  | none => rfl
  | some w =>
    refine congrArg (Memories.mk _) (funext fun w' => ?_)
    by_cases hw : w' = w
    · subst hw
      simp only [Function.update_self]
      rfl
    · simp only [Function.update_of_ne hw]

theorem contribute_body (P : Platform) (s : State W) (body : List (Contribution W)) :
    memories (body.foldl (contribute P) s) =
        body.foldl (Memories.contribute P.floatSum) (memories s) ∧
      (body.foldl (contribute P) s).reduces = s.reduces := by
  induction body generalizing s with
  | nil => exact ⟨rfl, rfl⟩
  | cons c body ih =>
    obtain ⟨hmem, hreduces⟩ := ih (contribute P s c)
    rw [List.foldl_cons, List.foldl_cons, hmem, memories_contribute, hreduces]
    refine ⟨rfl, ?_⟩
    unfold contribute
    cases c.rank <;> rfl

/-- After an entry a reduction would leave the leader's memory as it was. -/
theorem reduced_entered (henter : Step P s (.enter reduces) s')
    (hexact : ∀ r ∈ reduces, r.ExactPair)
    (hvars : ∀ r ∈ reduces, ∀ x, r.memArea.Mem x → ¬ Worker.FortranByte P x)
    (hvalid : ∀ r ∈ reduces, r.Valid s.leader.space.mem) :
    (memories s').reduced P.floatSum reduces = s.leader.space.mem := by
  cases henter with
  | @enter _ spaces _ hverify _ h =>
    have hno := noOverlap_of_verify hverify
    refine ReduceArea.mem_ext reduces (fun r hr j hj => ?_) fun x hout => ?_
    · rw [Memories.reduced, load_reduceAll hno hr (hexact r hr) hj, reducedValue_eq]
      refine Accumulates.foldl_identity fun b hb => ?_
      -- every worker holds the identity in this element
      obtain ⟨m, hm, rfl⟩ := List.mem_map.mp hb
      obtain ⟨w, rfl⟩ := (List.mem_ofFn' _ _).mp hm
      have hid : (spaces w).mem.load (r.elem j) r.type.size = r.identity :=
        ReduceArea.load_identity (hexact r hr).supported fun k hk =>
          Worker.doEnterParallel_area (h w) hno hr (ReduceArea.elem_mem hj hk)
            (hvars r hr _ (ReduceArea.elem_mem hj hk))
      show r.op.combine P.floatSum r.type _ ((spaces w).mem.load _ _) = _
      rw [hid]
      refine (hexact r hr).combine_identity (Mem.load_lt _ _ _) fun htype => ?_
      have hbyte := hvalid r hr htype _ (ReduceArea.elem_mem (i := 0) hj (by rw [htype]; decide))
      rw [Nat.add_zero] at hbyte
      rw [htype]
      show s.leader.space.mem.load _ 1 = 0 ∨ s.leader.space.mem.load _ 1 = 1
      rcases hbyte with hbyte | hbyte <;> simp [Mem.load, hbyte]
    · exact reduceAll_out hout

theorem enter_reduces (henter : Step P s (.enter reduces) s') : s'.reduces = some reduces := by
  cases henter
  rfl

/-- Entry, a body of contributions, and exit: the leader's memory is as if the
leader alone had made all contributions. Each element is its value before the
entry combined with all values contributed to it, and no byte outside the areas
is changed. -/
theorem reduction_law {body : List (Contribution W)} (henter : Step P s (.enter reduces) s')
    (hexact : ∀ r ∈ reduces, r.ExactPair)
    (hvars : ∀ r ∈ reduces, ∀ x, r.memArea.Mem x → ¬ Worker.FortranByte P x)
    (hvalid : ∀ r ∈ reduces, r.Valid s.leader.space.mem) (hbody : ∀ c ∈ body, c.Into reduces)
    (hexit : Step P (body.foldl (contribute P) s') .exit t) :
    t.leader.space.mem = body.foldl (fun m c => c.apply P.floatSum m) s.leader.space.mem ∧
    (∀ r ∈ reduces, ∀ j < r.count, t.leader.space.mem.load (r.elem j) r.type.size =
      (body.filterMap (·.valueFor r j)).foldl (r.op.combine P.floatSum r.type)
        (s.leader.space.mem.load (r.elem j) r.type.size)) ∧
    ∀ x, (∀ r ∈ reduces, ¬ r.memArea.Mem x) → t.leader.space.mem x = s.leader.space.mem x := by
  have hno : ReduceArea.NoOverlap reduces := by
    cases henter with
    | enter _ hverify _ _ => exact noOverlap_of_verify hverify
  obtain ⟨hmem, hsection⟩ := contribute_body P s' body
  have hmemory : t.leader.space.mem =
      body.foldl (fun m c => c.apply P.floatSum m) s.leader.space.mem := by
    cases hexit with
    | @exit reduces' hs =>
      rw [hsection, enter_reduces henter] at hs
      cases hs
      show (memories (body.foldl (contribute P) s')).reduced P.floatSum reduces = _
      rw [hmem, reduced_body hno hexact hbody, reduced_entered henter hexact hvars hvalid]
  rw [hmemory]
  exact ⟨rfl, fun r hr j hj => load_foldl_apply hno hexact hbody hr hj,
    fun x hx => foldl_apply_out hbody hx⟩

/-- One `int`, to be added up. -/
def oneInt : ReduceArea := ⟨2 ^ 41, 1, .int, .sum⟩

/-- The leader adds 3 to it and the worker adds 4. -/
def addBoth : List (Contribution 1) := [⟨none, oneInt, 0, 3⟩, ⟨some 0, oneInt, 0, 4⟩]

theorem reduction_law_oneInt : ∃ s' t : State 1,
    Step (smallPlatform true []) (start (smallPlatform true []) 1) (.enter [oneInt]) s' ∧
    Step (smallPlatform true []) (addBoth.foldl (contribute (smallPlatform true [])) s') .exit t ∧
    t.leader.space.mem.load (2 ^ 41) 4 = 7 := by
  have hexact : ∀ r ∈ [oneInt], r.ExactPair := by decide
  have hvalid : ∀ r ∈ [oneInt], r.Valid (start (smallPlatform true []) 1).leader.space.mem := by
    intro r hr htype
    rw [List.mem_singleton.mp hr] at htype
    cases htype
  have hbody : ∀ c ∈ addBoth, c.Into [oneInt] := by
    intro c hc
    rcases List.mem_cons.mp hc with rfl | hc
    · exact ⟨List.mem_singleton_self _, by decide⟩
    · rw [List.mem_singleton.mp hc]
      exact ⟨List.mem_singleton_self _, by decide⟩
  obtain ⟨s', henter⟩ : ∃ s', Step (smallPlatform true []) (start (smallPlatform true []) 1)
      (.enter [oneInt]) s' := by
    obtain ⟨spaces, -, h⟩ := enter_total (.init start_init)
      (show sizeofMemOps * 0 < intMax by decide) rfl
      (rfl : verifyReducesNoOverlap [oneInt] = .ok ()) (by decide)
      fun r hr => (hexact r hr).supported
    exact ⟨_, h⟩
  obtain ⟨t, hexit⟩ : ∃ t, Step (smallPlatform true [])
      (addBoth.foldl (contribute (smallPlatform true [])) s') .exit t :=
    ⟨_, .exit ((contribute_body (smallPlatform true []) s' addBoth).2.trans
      (enter_reduces henter))⟩
  have hvars : ∀ x, ¬ Worker.FortranByte (smallPlatform true []) x := fun _ ⟨_, h, _⟩ => nomatch h
  exact ⟨s', t, henter, hexit, (reduction_law henter hexact (fun _ _ x _ => hvars x) hvalid hbody
    hexit).2.1 oneInt (List.mem_singleton_self _) 0 (by decide)⟩

end SimpleParallel.Reduce
