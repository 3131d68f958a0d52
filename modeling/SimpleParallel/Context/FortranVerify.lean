import SimpleParallel.Lib.Gather
import SimpleParallel.Context.Protocol

/-!
# Comparing the Fortran global variables

`verify_fortran_global_variables_synced` of the debug build, on all ranks at once: each
compares its own list with what every other gathers, first the count, then the variables
one by one.

* `verifyFrom_joint`: the loop, by induction on the common length.
* `fortran_verified_iff`: all ranks go on, or all fail the same assertion; none is left in
  a call.
-/

namespace SimpleParallel.Context

open Gather Protocol

/-- The calls: the count, or one variable. -/
inductive VerifyCall
  | allGatherCount
  | allgatherInfo
  deriving DecidableEq

/-- What is gathered. -/
inductive Gathered
  | count (n : Nat)
  | info (i : GlobalVariableInfo)

abbrev Verify (n : Nat) : Type := Prog (Fin n) VerifyCall Gathered String Unit

/-- The first assertion that fails on one variable of another rank: the name is compared by
its address. -/
def infoDiffers (i : GlobalVariableInfo) : Gathered → Option String
  | .info j =>
    if i.area.data ≠ j.area.data then some "i.area.data() == j.area.data()"
    else if i.area.size ≠ j.area.size then some "i.area.size_bytes() == j.area.size_bytes()"
    else if i.name.data ≠ j.name.data then some "i.name.data() == j.name.data()"
    else if i.name.size ≠ j.name.size then some "i.name.size() == j.name.size()"
    else none
  | .count _ => none

section

variable {n : Nat}

/-- Goes on unless an assertion fails. -/
def asserting (failed : Option String) (p : Verify n) : Verify n :=
  match failed with
  | some expr => .fail expr
  | none => p

/-- `for (const auto &j : all_process_info)`: the first rank that differs. -/
def firstDiffering (i : GlobalVariableInfo) (allProcessInfo : Fin n → Gathered) : Option String :=
  (List.finRange n).findSome? fun j => infoDiffers i (allProcessInfo j)

/-- The loop over the variables of a rank. -/
def verifyFrom : List GlobalVariableInfo → Verify n
  | [] => .pure ()
  | i :: vars => .call .allgatherInfo (.info i) fun allProcessInfo =>
      asserting (firstDiffering i allProcessInfo) (verifyFrom vars)

def Gathered.isCount (n : Nat) : Gathered → Bool
  | .count e => e = n
  | .info _ => false

/-- The assertion on the counts. -/
def countsDiffer (varCount : Nat) (allProcessVarCount : Fin n → Gathered) : Option String :=
  if ∀ j, (allProcessVarCount j).isCount varCount = true then none
  else some ("std::ranges::all_of(all_process_var_count, [&](size_t e) " ++
    "\x7b return e == var_count; \x7d)")

/-- `verify_fortran_global_variables_synced`. -/
def verifySynced (vars : List GlobalVariableInfo) : Verify n :=
  .call .allGatherCount (.count vars.length) fun allProcessVarCount =>
    asserting (countsDiffer vars.length allProcessVarCount) (verifyFrom vars)

/-- The assertions hold if and only if the variables are the same. -/
theorem infoDiffers_eq_none {i j : GlobalVariableInfo} :
    infoDiffers i (.info j) = none ↔ i = j := by
  obtain ⟨⟨iname, inameSize⟩, ⟨idata, isize⟩⟩ := i
  obtain ⟨⟨jname, jnameSize⟩, ⟨jdata, jsize⟩⟩ := j
  simp only [infoDiffers, GlobalVariableInfo.mk.injEq, Sync.MemArea.mk.injEq]
  by_cases hdata : idata = jdata <;> by_cases hsize : isize = jsize <;>
    by_cases hname : iname = jname <;> by_cases hlen : inameSize = jnameSize <;>
    simp [hdata, hsize, hname, hlen]

theorem firstDiffering_eq_none {i : GlobalVariableInfo} {v : Fin n → GlobalVariableInfo} :
    firstDiffering i (fun j => .info (v j)) = none ↔ ∀ j, i = v j := by
  simp only [firstDiffering, List.findSome?_eq_none_iff, List.mem_finRange, true_imp_iff,
    infoDiffers_eq_none]

/-- All ranks stop at once. -/
theorem joint_all_fail [Nonempty (Fin n)] (expr : Fin n → String) :
    Joint (fun i => (.fail (expr i) : Verify n)) fun i => ⟨[], some (.error (expr i))⟩ :=
  .apart fun ⟨_, hc⟩ => nomatch hc (Classical.arbitrary _)

/-- One round: all ranks find the contributions equal, or none does. -/
theorem joint_round [Nonempty (Fin n)] {c : VerifyCall} {mine : Fin n → Gathered}
    {test : Fin n → (Fin n → Gathered) → Option String} {k : Fin n → Verify n} {same : Prop}
    (hsame : ∀ i, test i mine = none ↔ same) :
    (∀ r, same → Joint k r →
      Joint (fun i => .call c (mine i) fun all => asserting (test i all) (k i)) r) ∧
    (¬ same → ∃ expr : Fin n → String,
      Joint (fun i => .call c (mine i) fun all => asserting (test i all) (k i))
        fun i => ⟨[], some (.error (expr i))⟩) := by
  constructor
  · intro r h hr
    have hrest : Joint (fun i => asserting (test i mine) (k i)) r := by
      simp only [(hsame _).mpr h]
      exact hr
    exact .meet (fun _ => rfl) hrest
  · intro h
    choose expr hexpr using fun i => Option.ne_none_iff_exists'.mp (mt (hsame i).mp h)
    have hrest : Joint (fun i => asserting (test i mine) (k i))
        fun i => ⟨[], some (.error (expr i))⟩ := by
      simp only [hexpr]
      exact joint_all_fail expr
    have hround := Joint.meet (p := fun i => .call c (mine i) fun all => asserting (test i all) (k i))
      (fun _ => rfl) hrest
    exact ⟨expr, hround⟩

/-- The loop, for lists of the same length. -/
theorem verifyFrom_joint [Nonempty (Fin n)] {vars : Fin n → List GlobalVariableInfo} {len : Nat}
    (hlen : ∀ i, (vars i).length = len) :
    ((∀ i j, vars i = vars j) →
      Joint (fun i => verifyFrom (vars i)) fun _ => ⟨[], some (.ok ())⟩) ∧
    ((¬ ∀ i j, vars i = vars j) → ∃ expr : Fin n → String,
      Joint (fun i => verifyFrom (vars i)) fun i => ⟨[], some (.error (expr i))⟩) := by
  induction len generalizing vars with
  | zero =>
    have hnil : vars = fun _ => [] := funext fun i => List.length_eq_zero_iff.mp (hlen i)
    subst hnil
    exact ⟨fun _ => .apart fun ⟨_, hc⟩ => (nomatch hc (Classical.arbitrary _)),
      fun h => absurd (fun _ _ => rfl) h⟩
  | succ len ih =>
    have hcons : ∀ i, ∃ v rest, vars i = v :: rest := fun i =>
      List.exists_cons_of_length_eq_add_one (hlen i)
    choose v rest hvars using hcons
    have hrest : ∀ i, (rest i).length = len := fun i => by
      have h := hlen i
      rw [hvars] at h
      exact Nat.succ.inj h
    have heads : ∀ i, firstDiffering (v i) (fun j => .info (v j)) = none ↔ ∀ i j, v i = v j := by
      refine fun i => firstDiffering_eq_none.trans ⟨fun h j k => ?_, fun h j => h i j⟩
      exact (h j).symm.trans (h k)
    have hall : (∀ i j, vars i = vars j) ↔ (∀ i j, v i = v j) ∧ ∀ i j, rest i = rest j := by
      simp only [hvars, List.cons.injEq, forall_and]
    obtain rfl : vars = fun i => v i :: rest i := funext hvars
    have hround := joint_round (c := .allgatherInfo) (k := fun i => verifyFrom (rest i)) heads
    refine ⟨fun h => hround.1 _ (hall.mp h).1 ((ih hrest).1 (hall.mp h).2), fun h => ?_⟩
    rcases Classical.em (∀ i j, v i = v j) with hv | hv
    · obtain ⟨expr, hjoint⟩ := (ih hrest).2 fun hr => h (hall.mpr ⟨hv, hr⟩)
      exact ⟨expr, hround.1 _ hv hjoint⟩
    · exact hround.2 hv

/-- In the debug build all ranks go on if and only if they found the same variables, with
the names at the same addresses; otherwise all of them fail an assertion after the same
call, each the first that fails there. No rank waits for another. -/
theorem fortran_verified_iff {vars : Fin (n + 1) → List GlobalVariableInfo} :
    ((∀ i j, vars i = vars j) →
      Joint (fun i => verifySynced (vars i)) fun _ => ⟨[], some (.ok ())⟩) ∧
    ((¬ ∀ i j, vars i = vars j) → ∃ expr : Fin (n + 1) → String,
      Joint (fun i => verifySynced (vars i)) fun i => ⟨[], some (.error (expr i))⟩) := by
  have counts : ∀ i, countsDiffer (vars i).length (fun j => .count (vars j).length) = none ↔
      ∀ i j, (vars i).length = (vars j).length := by
    intro i
    simp only [countsDiffer, Gathered.isCount, decide_eq_true_eq, ite_eq_left_iff, reduceCtorEq,
      imp_false, not_not]
    exact ⟨fun h j k => (h j).trans (h k).symm, fun h j => h j i⟩
  have hlen : (∀ i j, (vars i).length = (vars j).length) →
      ∀ i, (vars i).length = (vars (Classical.arbitrary _)).length := fun h i => h i _
  have hround := joint_round (c := .allGatherCount) (k := fun i => verifyFrom (vars i)) counts
  refine ⟨fun h => ?_, fun h => ?_⟩
  · have hc : ∀ i j, (vars i).length = (vars j).length := fun i j => congrArg List.length (h i j)
    exact hround.1 _ hc ((verifyFrom_joint (hlen hc)).1 h)
  · rcases Classical.em (∀ i j, (vars i).length = (vars j).length) with hc | hc
    · obtain ⟨expr, hjoint⟩ := (verifyFrom_joint (hlen hc)).2 h
      exact ⟨expr, hround.1 _ hc hjoint⟩
    · exact hround.2 hc

end

end SimpleParallel.Context
