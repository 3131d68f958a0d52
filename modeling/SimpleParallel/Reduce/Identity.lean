import SimpleParallel.Reduce.Law

/-!
# The workers' initial values

A worker initialises the reduce areas before the Fortran variables arrive, so
an area inside such a variable ends up with the leader's bytes.

* `starts_from_identity`: every element of every area holds its identity exactly
  if the leader holds the identity in all bytes that arrive with a Fortran
  variable.
* `fortran_area_overwritten`: an area where it does not.
-/

namespace SimpleParallel.Reduce

open Sync

variable {W : Nat} {P : Platform} {s s' : State W} {reduces : List ReduceArea} {r : ReduceArea}

/-- The bytes of an identity. -/
theorem byteAt_identity {i : Nat} (hr : r.Supported) (hi : i < r.type.size) :
    Mem.byteAt r.identity i = r.identityByte := by
  by_cases hop : r.op = .land
  · have htype : r.type = .cBool := by
      rcases hr with ⟨-, h⟩ | ⟨h, -⟩
      · rw [hop] at h
        cases h
      · exact h
    rw [htype] at hi
    obtain rfl : i = 0 := Nat.lt_one_iff.mp hi
    rw [ReduceArea.identity, ReduceArea.identityByte, if_pos hop, if_pos hop]
    rfl
  · rw [ReduceArea.identity, ReduceArea.identityByte, if_neg hop, if_neg hop, Mem.byteAt,
      Nat.zero_div]
    rfl

/-- An entry succeeds only with supported areas. -/
theorem supported_of_enter {l : Leader} {v v' : AddressSpace}
    (h : Worker.doEnterParallel P l reduces v = some v') (hr : r ∈ reduces) : r.Supported := by
  obtain ⟨u, m, -, hinit, -⟩ := Worker.doEnterParallel_eq_some.mp h
  exact ReduceArea.initAll_total.mp ⟨m, hinit⟩ r hr

/-- When an entry returns on a worker, every element of every area holds the
identity of its operation, exactly if the leader has the identity's byte wherever
a Fortran variable is broadcast over an area. -/
theorem starts_from_identity (henter : Step P s (.enter reduces) s') (w : Fin W) :
    (∀ r ∈ reduces, ∀ j < r.count,
      (s'.workers w).space.mem.load (r.elem j) r.type.size = r.identity) ↔
    ∀ r ∈ reduces, ∀ x, r.memArea.Mem x → Worker.FortranByte P x →
      s.leader.space.mem x = r.identityByte := by
  cases henter with
  | @enter _ spaces _ hverify _ h =>
    have hno := noOverlap_of_verify hverify
    constructor
    · intro hid r hr x hx hvar
      obtain ⟨j, i, hj, hi, rfl⟩ := ReduceArea.exists_elem hx
      have hload : (spaces w).mem.load (r.elem j) r.type.size = r.identity := hid r hr j hj
      have hbyte : Mem.byteAt ((spaces w).mem.load (r.elem j) r.type.size) i =
          (spaces w).mem (r.elem j + i) := Mem.byteAt_load hi
      rw [← Worker.doEnterParallel_bcast (h w) hvar, ← hbyte, hload]
      exact byteAt_identity (supported_of_enter (h w) hr) hi
    · intro hleader r hr j hj
      refine ReduceArea.load_identity (supported_of_enter (h w) hr) fun i hi => ?_
      have hmem := ReduceArea.elem_mem hj hi
      show (spaces w).mem _ = _
      by_cases hvar : Worker.FortranByte P (r.elem j + i)
      · rw [Worker.doEnterParallel_bcast (h w) hvar]
        exact hleader r hr _ hmem hvar
      · exact Worker.doEnterParallel_area (h w) hno hr hmem hvar

/-- The platform with a Fortran variable of four bytes where `oneInt` lies. -/
def fortranPlatform : Platform := smallPlatform true [⟨2 ^ 41, 4⟩]

/-- From every reachable state a section with the area `oneInt` can be entered. -/
theorem enter_oneInt {s : State 1} (h : LTS.Reachable (sys fortranPlatform 1) s)
    (hs : s.reduces = none) (hlog : s.leader.memoryOperations = []) :
    ∃ s', Step fortranPlatform s (.enter [oneInt]) s' := by
  have hshort : sizeofMemOps * s.leader.memoryOperations.length < intMax := by
    rw [hlog]
    decide
  obtain ⟨spaces, -, henter⟩ := enter_total h hshort hs
    (rfl : verifyReducesNoOverlap [oneInt] = .ok ()) (by decide) (by decide)
  exact ⟨_, henter⟩

/-- A variable that is zero on the leader. -/
theorem starts_from_identity_start : ∃ s' : State 1,
    Step fortranPlatform (start fortranPlatform 1) (.enter [oneInt]) s' ∧
      (s'.workers 0).space.mem.load (2 ^ 41) 4 = 0 := by
  obtain ⟨s', henter⟩ := enter_oneInt (.init start_init) rfl rfl
  exact ⟨s', henter, (starts_from_identity henter 0).mpr (fun r hr x _ _ => by
    rw [List.mem_singleton.mp hr]
    rfl) oneInt (List.mem_singleton_self _) 0 (by decide)⟩

/-- The variable holds 5 on the leader when the section is entered; the worker
starts from 5. -/
theorem fortran_area_overwritten :
    ¬ ∀ s s' : State 1, LTS.Reachable (sys fortranPlatform 1) s →
      Step fortranPlatform s (.enter [oneInt]) s' →
      ∀ r ∈ [oneInt], ∀ j < r.count,
        (s'.workers 0).space.mem.load (r.elem j) r.type.size = r.identity := by
  intro hall
  have hreach : LTS.Reachable (sys fortranPlatform 1)
      { start fortranPlatform 1 with
        leader := (start fortranPlatform 1).leader.write fortranPlatform (2 ^ 41) 5 } :=
    (LTS.Reachable.init start_init).step (a := .write (2 ^ 41) 5) Step.write
  obtain ⟨s', henter⟩ := enter_oneInt hreach rfl rfl
  have hload := hall _ s' hreach henter oneInt (List.mem_singleton_self _) 0 (by decide)
  cases henter with
  | @enter _ spaces _ _ _ h =>
    have hvar : Worker.FortranByte fortranPlatform (2 ^ 41) :=
      ⟨⟨2 ^ 41, 4⟩, List.mem_singleton_self _, by decide⟩
    have hfive : (spaces 0).mem (2 ^ 41) = 5 :=
      (Worker.doEnterParallel_bcast (h 0) hvar).trans Leader.write_mem_self
    have hbyte : Mem.byteAt ((spaces 0).mem.load (2 ^ 41) 4) 0 = (spaces 0).mem (2 ^ 41) :=
      Mem.byteAt_load (by decide)
    have hzero : (spaces 0).mem.load (2 ^ 41) 4 = 0 := hload
    rw [hzero, hfive] at hbyte
    exact absurd hbyte (by decide)

end SimpleParallel.Reduce
