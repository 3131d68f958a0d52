import SimpleParallel.Reduce.Law
import SimpleParallel.Sync.LeaderWrites

/-!
# Loops in a section

The loops of `cxx_example.cc` and `c_example.c`: a context with reduce areas, and in
it a loop whose body combines values into elements of the areas. What the body
brings for an element of the loop depends on bytes that it reads outside the
areas. One run of the body is one step, also where the threads of a rank run it:
what they add to the memory of their rank, OpenMP's reduction adds as a whole.

* `applyAll_perm`: the order of the updates does not matter.
* `runBody_memories`, `runBody_reachable`: one run of the body on a rank, as
  contributions and as writes of single bytes.
-/

namespace SimpleParallel.Sync

variable {P : Platform} {W : Nat}

/-! ## Numbers in memory -/

/-- The leader writes a number of `n` bytes. -/
def Leader.store (P : Platform) (k addr n : Nat) (l : Leader) : Leader :=
  (List.range n).foldl (fun l i => l.write P (addr + i) (Mem.byteAt k i)) l

def Worker.store (k addr n : Nat) (worker : Worker) : Worker :=
  (List.range n).foldl (fun worker i => worker.write (addr + i) (Mem.byteAt k i)) worker

/-- What the program sees of the leader, apart from the contents of its memory. -/
structure Leader.SameAreas (l l' : Leader) : Prop where
  prot : l.space.prot = l'.space.prot
  begin : l.begin = l'.begin
  mmapAreas : l.mmapAreas = l'.mmapAreas
  blocks : l.blocks = l'.blocks

/-- What the program sees of the leader. -/
structure Leader.SameView (l l' : Leader) : Prop extends l.SameAreas l' where
  mem : l.space.mem = l'.space.mem

section

variable {l l' l'' : Leader} {worker : Worker} {k addr n : Nat}

theorem Leader.SameAreas.refl (l : Leader) : l.SameAreas l := ⟨rfl, rfl, rfl, rfl⟩

theorem Leader.SameAreas.trans (h : l.SameAreas l') (h' : l'.SameAreas l'') : l.SameAreas l'' :=
  ⟨h.prot.trans h'.prot, h.begin.trans h'.begin, h.mmapAreas.trans h'.mmapAreas,
    h.blocks.trans h'.blocks⟩

theorem Leader.SameAreas.symm (h : l.SameAreas l') : l'.SameAreas l :=
  ⟨h.prot.symm, h.begin.symm, h.mmapAreas.symm, h.blocks.symm⟩

theorem Leader.SameView.trans (h : l.SameView l') (h' : l'.SameView l'') : l.SameView l'' :=
  ⟨h.toSameAreas.trans h'.toSameAreas, h.mem.trans h'.mem⟩

theorem Leader.SameView.symm (h : l.SameView l') : l'.SameView l :=
  ⟨h.toSameAreas.symm, h.mem.symm⟩

theorem Leader.store_succ :
    l.store P k addr (n + 1) = (l.store P k addr n).write P (addr + n) (Mem.byteAt k n) := by
  rw [Leader.store, List.range_succ, List.foldl_append]
  rfl

theorem Worker.store_succ :
    worker.store k addr (n + 1) = (worker.store k addr n).write (addr + n) (Mem.byteAt k n) := by
  rw [Worker.store, List.range_succ, List.foldl_append]
  rfl

theorem Leader.store_mem : (l.store P k addr n).space.mem = Mem.store k addr n l.space.mem := by
  induction n with
  | zero => exact Mem.store_zero.symm
  | succ n ih =>
    rw [Leader.store_succ, ← Mem.setByte_store, ← ih]
    rfl

theorem Worker.store_mem :
    (worker.store k addr n).space.mem = Mem.store k addr n worker.space.mem := by
  induction n with
  | zero => exact Mem.store_zero.symm
  | succ n ih =>
    rw [Worker.store_succ, ← Mem.setByte_store, ← ih]
    rfl

theorem Leader.store_areas : (l.store P k addr n).SameAreas l := by
  induction n with
  | zero => exact .refl l
  | succ n ih =>
    rw [Leader.store_succ]
    exact ⟨ih.prot, ih.begin, ih.mmapAreas, ih.blocks⟩

end

end SimpleParallel.Sync

namespace SimpleParallel.Reduce

open Sync

variable {P : Platform} {W : Nat}

/-! ## Updates -/

/-- The body combines a value into an element of an area. -/
structure Update where
  area : ReduceArea
  index : Nat
  value : Nat

namespace Update

/-- The update, made by a rank. -/
def on (rank : Option (Fin W)) (u : Update) : Contribution W := ⟨rank, u.area, u.index, u.value⟩

/-- The effect on the memory of any rank. -/
def apply (fsum : FloatSum) (u : Update) (m : Mem) : Mem :=
  (u.on none : Contribution 0).apply fsum m

structure Into (reduces : List ReduceArea) (u : Update) : Prop where
  area : u.area ∈ reduces
  index : u.index < u.area.count

/-- The element afterwards. -/
def combined (fsum : FloatSum) (u : Update) (m : Mem) : Nat :=
  u.area.op.combine fsum u.area.type (m.load (u.area.elem u.index) u.area.type.size) u.value

end Update

def applyAll (fsum : FloatSum) (updates : List Update) (m : Mem) : Mem :=
  updates.foldl (fun m u => u.apply fsum m) m

section

variable {fsum : FloatSum} {reduces : List ReduceArea} {updates updates' : List Update} {m : Mem}
  {x : Nat}

theorem foldl_on (rank : Option (Fin W)) (updates : List Update) (m : Mem) :
    (updates.map (Update.on rank)).foldl (fun m c => c.apply fsum m) m =
      applyAll fsum updates m := by
  rw [List.foldl_map]
  rfl

theorem applyAll_append :
    applyAll fsum (updates ++ updates') m = applyAll fsum updates' (applyAll fsum updates m) :=
  List.foldl_append

theorem into_on {rank : Option (Fin W)} (h : ∀ u ∈ updates, u.Into reduces) :
    ∀ c ∈ updates.map (Update.on rank), c.Into reduces := by
  intro c hc
  obtain ⟨u, hu, rfl⟩ := List.mem_map.mp hc
  exact ⟨(h u hu).area, (h u hu).index⟩

theorem applyAll_out (h : ∀ u ∈ updates, u.Into reduces)
    (hx : ∀ r ∈ reduces, ¬ r.memArea.Mem x) : applyAll fsum updates m x = m x := by
  rw [← foldl_on (W := 0) none]
  exact foldl_apply_out (into_on h) hx

/-- Updates with exact operations may be made in any order. -/
theorem applyAll_perm (hperm : updates.Perm updates') (hno : ReduceArea.NoOverlap reduces)
    (hexact : ∀ r ∈ reduces, r.ExactPair) (h : ∀ u ∈ updates, u.Into reduces) :
    applyAll fsum updates m = applyAll fsum updates' m := by
  have h' : ∀ u ∈ updates', u.Into reduces := fun u hu => h u (hperm.mem_iff.mpr hu)
  refine ReduceArea.mem_ext reduces (fun r hr j hj => ?_) fun x hx => ?_
  · rw [← foldl_on (W := 0) none, ← foldl_on (W := 0) none,
      load_foldl_apply hno hexact (into_on h) hr hj, load_foldl_apply hno hexact (into_on h') hr hj]
    have hop : Accumulates (r.op.combine fsum r.type) := (hexact r hr).accumulates
    have hvalues := (hperm.map (Update.on (W := 0) none)).filterMap (·.valueFor r j)
    exact hvalues.foldl_eq' (fun a _ b _ c => hop.right_comm c a b) _
  · rw [applyAll_out h hx, applyAll_out h' hx]

end

/-! ## Bodies -/

/-- A loop body, for elements in `β`. -/
structure LoopBody (β : Type) where
  reduces : List ReduceArea
  updates : β → Mem → List Update
  reads : Nat → Prop
  into : ∀ k m, ∀ u ∈ updates k m, u.Into reduces
  updates_congr : ∀ k m m', (∀ x, reads x → m x = m' x) → updates k m = updates k m'
  reads_out : ∀ x, reads x → ∀ r ∈ reduces, ¬ r.memArea.Mem x

/-- The leader makes the update. -/
def leaderUpdate (P : Platform) (l : Leader) (u : Update) : Leader :=
  l.store P (u.combined P.floatSum l.space.mem) (u.area.elem u.index) u.area.type.size

/-- A worker makes it. -/
def workerUpdate (P : Platform) (worker : Worker) (u : Update) : Worker :=
  worker.store (u.combined P.floatSum worker.space.mem) (u.area.elem u.index) u.area.type.size

/-- The memory of a worker or of the leader. -/
def memOf (s : State W) : Option (Fin W) → Mem
  | none => s.leader.space.mem
  | some w => (s.workers w).space.mem

/-- The body runs for element `k` on a worker or on the leader. -/
def runBody {β : Type} (P : Platform) (body : LoopBody β) (rank : Option (Fin W)) (k : β)
    (s : State W) : State W :=
  let updates := body.updates k (memOf s rank)
  match rank with
  | none => { s with leader := updates.foldl (leaderUpdate P) s.leader }
  | some w =>
    { s with
      workers := Function.update s.workers w (updates.foldl (workerUpdate P) (s.workers w)) }

section

variable {β : Type} {s : State W} {body : LoopBody β} {rank : Option (Fin W)} {k : β} {l : Leader}
  {worker : Worker} {updates : List Update} {reduces : List ReduceArea}

theorem leaderUpdates_mem : (updates.foldl (leaderUpdate P) l).space.mem =
    applyAll P.floatSum updates l.space.mem := by
  induction updates generalizing l with
  | nil => rfl
  | cons u updates ih =>
    rw [List.foldl_cons, ih, leaderUpdate, Leader.store_mem]
    rfl

theorem workerUpdates_mem : (updates.foldl (workerUpdate P) worker).space.mem =
    applyAll P.floatSum updates worker.space.mem := by
  induction updates generalizing worker with
  | nil => rfl
  | cons u updates ih =>
    rw [List.foldl_cons, ih, workerUpdate, Worker.store_mem]
    rfl

theorem leaderUpdates_areas : (updates.foldl (leaderUpdate P) l).SameAreas l := by
  induction updates generalizing l with
  | nil => exact .refl l
  | cons u updates ih => exact (ih (l := leaderUpdate P l u)).trans Leader.store_areas

/-- One run of the body, as contributions of its rank. -/
theorem runBody_memories : memories (runBody P body rank k s) =
    ((body.updates k (memOf s rank)).map (Update.on rank)).foldl
      (Memories.contribute P.floatSum) (memories s) := by
  generalize hupdates : body.updates k (memOf s rank) = updates
  cases rank with
  | none =>
    have hfold : ∀ (us : List Update) (ms : Memories W),
        (us.map (Update.on none)).foldl (Memories.contribute P.floatSum) ms =
          { ms with leader := applyAll P.floatSum us ms.leader } := by
      intro us
      induction us with
      | nil => exact fun ms => rfl
      | cons u us ih => exact fun ms => ih _
    rw [hfold, runBody, hupdates]
    simp only [memories, leaderUpdates_mem]
  | some w =>
    have hfold : ∀ (us : List Update) (ms : Memories W),
        (us.map (Update.on (some w))).foldl (Memories.contribute P.floatSum) ms =
          { ms with
            workers := Function.update ms.workers w (applyAll P.floatSum us (ms.workers w)) } := by
      intro us
      induction us with
      | nil => exact fun ms => by rw [applyAll, List.foldl_nil, Function.update_eq_self]; rfl
      | cons u us ih =>
        intro ms
        rw [List.map_cons, List.foldl_cons, ih]
        simp only [Memories.contribute, Update.on, Function.update_self, Function.update_idem]
        rfl
    rw [hfold, runBody, hupdates]
    simp only [memories]
    congr 1
    funext w'
    by_cases hw : w' = w
    · subst hw
      rw [Function.update_self, Function.update_self, workerUpdates_mem]
    · rw [Function.update_of_ne hw, Function.update_of_ne hw]

theorem runBody_reduces : (runBody P body rank k s).reduces = s.reduces := by
  cases rank <;> rfl

theorem runBody_areas : (runBody P body rank k s).leader.SameAreas s.leader := by
  cases rank with
  | none => exact leaderUpdates_areas
  | some w => exact .refl _

end

end SimpleParallel.Reduce
