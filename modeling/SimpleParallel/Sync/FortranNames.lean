import SimpleParallel.Sync.FortranGlobals

/-!
# The names of Fortran arrays

`get_array_addr` (`fortran_binding.cc`) looks a module array up under the names that three
compilers give it. `is_fortran_global_variable`, which decides what is synchronised, knows
the names by three patterns.

* `gfortran_recognised_iff`: the patterns accept the first name of a module array, unless
  it is one of the two of libgfortran.
* `arraySyms_recognised`: they accept all names, and so whatever is looked up.
-/

namespace SimpleParallel.Sync

open Pattern

/-! ## The names -/

def getGfortranArraySym (module arrayName : String) : String :=
  "__" ++ module ++ "_MOD_" ++ arrayName

def getIfxArraySym (module arrayName : String) : String := module ++ "_mp_" ++ arrayName ++ "_"

def getFlangArraySym (module arrayName : String) : String := "_QM" ++ module ++ "E" ++ arrayName

/-- `boost::to_lower`, in the "C" locale. -/
def toLower (s : String) : String := .ofList (s.toList.map Char.toLower)

/-- `get_array_addr`. -/
def getArrayAddr (L : Libraries) (moduleName arrayName : String) : Except Failure Nat :=
  let moduleName := toLower moduleName
  let arrayName := toLower arrayName
  match L.symbolName2Addr (getGfortranArraySym moduleName arrayName) with
  | some gfortArrayAddr => .ok gfortArrayAddr
  | none =>
    match L.symbolName2Addr (getIfxArraySym moduleName arrayName) with
    | some ifxArrayAddr => .ok ifxArrayAddr
    | none =>
      match L.lookUp (getFlangArraySym moduleName arrayName) with
      | (some flangArrayAddr, _) => .ok flangArrayAddr
      | (none, pending) => runtimeError (dlerror pending).1

/-- The names that `get_array_addr` tries. -/
def arraySyms (moduleName arrayName : String) : List String :=
  [getGfortranArraySym (toLower moduleName) (toLower arrayName),
    getIfxArraySym (toLower moduleName) (toLower arrayName),
    getFlangArraySym (toLower moduleName) (toLower arrayName)]

/-- A letter, followed by letters, digits or underscores. -/
def IsIdentifier (name : String) : Prop :=
  ∃ c rest, name.toList = c :: rest ∧ c.isAlpha = true ∧
    ∀ d ∈ rest, d.isAlphanum = true ∨ d = '_'

/-- The module variables of libgfortran that are left out. -/
def IsLibgfortran (moduleName arrayName : String) : Prop :=
  toLower moduleName = "ieee_exceptions" ∧
    (toLower arrayName = "ieee_usual" ∨ toLower arrayName = "ieee_all")

/-! ## Lower case -/

/-- An upper case letter becomes a character from `'a'` on, any other stays. -/
theorem toLower_cases (c : Char) :
    (65 ≤ c.val.toNat ∧ c.val.toNat ≤ 90 ∧ c.toLower.val.toNat = c.val.toNat + 32) ∨
      (¬ ('A' ≤ c ∧ c ≤ 'Z') ∧ c.toLower = c) := by
  unfold Char.toLower
  split
  · next h =>
    have hge : 65 ≤ c.val.toNat := UInt32.le_iff_toNat_le.mp h.1
    have hle : c.val.toNat ≤ 90 := UInt32.le_iff_toNat_le.mp h.2
    have hlt : c.val.toNat + 32 < 2 ^ 32 := by omega
    exact .inl ⟨hge, hle, (UInt32.toNat_add _ _).trans (Nat.mod_eq_of_lt hlt)⟩
  · next h => exact .inr ⟨h, rfl⟩

theorem notUpper_toLower (c : Char) : notUpper c.toLower = true := by
  rw [notUpper, Bool.not_eq_true', decide_eq_false_iff_not]
  rcases toLower_cases c with ⟨hge, -, hval⟩ | ⟨hnot, heq⟩
  · rintro ⟨-, hz⟩
    have hle : c.toLower.val.toNat ≤ 90 := UInt32.le_iff_toNat_le.mp hz
    omega
  · rwa [heq]

theorem toLower_ne {c : Char} (h : c.isAlpha = true) : c.toLower ≠ '_' := by
  rcases toLower_cases c with ⟨hge, -, hval⟩ | ⟨-, heq⟩
  · intro hc
    have hval' : c.toLower.val.toNat = 95 := congrArg (fun c => c.val.toNat) hc
    omega
  · rw [heq]
    rintro rfl
    exact absurd h (by decide)
section

variable {name module arrayName moduleName : String}

theorem toList_toLower : (toLower name).toList = name.toList.map Char.toLower :=
  String.toList_ofList

theorem notUpper_of_mem_toLower {c : Char} (h : c ∈ (toLower name).toList) : notUpper c = true := by
  rw [toList_toLower] at h
  obtain ⟨d, -, rfl⟩ := List.mem_map.mp h
  exact notUpper_toLower d

/-- An identifier in lower case is what the patterns take for one. -/
theorem isIdentifier_of_all {c : Char} {rest : List Char} (h : name.toList = c :: rest)
    (hc : c.isAlpha = true) (hrest : (rest.all fun d => d.isAlphanum || d == '_') = true) :
    IsIdentifier name := by
  refine ⟨c, rest, h, hc, fun d hd => ?_⟩
  have hword := List.all_eq_true.mp hrest d hd
  rwa [Bool.or_eq_true, beq_iff_eq] at hword

theorem IsIdentifier.matches_toLower (h : IsIdentifier name) :
    Matches identifier (toLower name).toList := by
  obtain ⟨c, rest, hname, hc, -⟩ := h
  have hlower : (toLower name).toList = c.toLower :: rest.map Char.toLower := by
    rw [toList_toLower, hname, List.map_cons]
  have hfirst : notUnderscoreUpper c.toLower = true := by
    rw [notUnderscoreUpper, notUpper_toLower, Bool.and_true]
    exact bne_iff_ne.mpr (toLower_ne hc)
  rw [hlower]
  refine Matches.cons hfirst (matches_many fun d hd => ?_)
  obtain ⟨e, -, rfl⟩ := List.mem_map.mp hd
  exact notUpper_toLower e

/-! ## Recognised names -/

theorem gfortran_matches (hm : IsIdentifier moduleName) (ha : IsIdentifier arrayName) :
    Matches gfortGlobalVarSymReg
      (getGfortranArraySym (toLower moduleName) (toLower arrayName)).toList := by
  rw [getGfortranArraySym, String.toList_append, String.toList_append, String.toList_append]
  exact (((matches_literal "__").append hm.matches_toLower).append
    (matches_literal "_MOD_")).append ha.matches_toLower

theorem ifx_matches (hm : IsIdentifier moduleName) (ha : IsIdentifier arrayName) :
    Matches ifxGlobalVarSymReg
      (getIfxArraySym (toLower moduleName) (toLower arrayName)).toList := by
  rw [getIfxArraySym, String.toList_append, String.toList_append, String.toList_append]
  exact ((hm.matches_toLower.append (matches_literal "_mp_")).append
    ha.matches_toLower).append (matches_literal "_")

theorem flang_matches (hm : IsIdentifier moduleName) (ha : IsIdentifier arrayName) :
    Matches flangGlobalVarSymReg
      (getFlangArraySym (toLower moduleName) (toLower arrayName)).toList := by
  rw [getFlangArraySym, String.toList_append, String.toList_append, String.toList_append]
  exact (((matches_literal "_QM").append hm.matches_toLower).append
    (matches_literal "E")).append ha.matches_toLower

/-- The list of a name of gfortran, cut at the `M`. -/
theorem toList_gfortran (module arrayName : String) :
    (getGfortranArraySym module arrayName).toList =
      ('_' :: '_' :: (module.toList ++ ['_'])) ++
        'M' :: ('O' :: 'D' :: '_' :: arrayName.toList) := by
  have hmod : "_MOD_".toList = ['_', 'M', 'O', 'D', '_'] := by decide
  rw [getGfortranArraySym, String.toList_append, String.toList_append, String.toList_append,
    show "__".toList = ['_', '_'] by decide, hmod]
  simp

/-- A name of gfortran in lower case can be read in one way only. -/
theorem gfortran_inj {module' arrayName' : String} (hm : ∀ c ∈ module.toList, notUpper c = true)
    (ha : ∀ c ∈ arrayName.toList, notUpper c = true) :
    getGfortranArraySym module arrayName = getGfortranArraySym module' arrayName' ↔
      module = module' ∧ arrayName = arrayName' := by
  constructor
  · intro h
    have hlist := congrArg String.toList h
    have hmodule : 'M' ∉ module.toList := fun hmem => absurd (hm _ hmem) (by decide)
    have harray : 'M' ∉ arrayName.toList := fun hmem => absurd (ha _ hmem) (by decide)
    rw [toList_gfortran, toList_gfortran, List.append_cons_inj_of_notMem (by simp [hmodule])
      (by simp [harray])] at hlist
    obtain ⟨hleft, -, hright⟩ := hlist
    simp only [List.cons.injEq, true_and] at hleft hright
    exact ⟨String.toList_inj.mp (List.append_cancel_right hleft), String.toList_inj.mp hright⟩
  · rintro ⟨rfl, rfl⟩
    rfl

/-- The patterns accept the name that gfortran gives to a module array, unless it is one of
the two of libgfortran. -/
theorem gfortran_recognised_iff (hm : IsIdentifier moduleName) (ha : IsIdentifier arrayName) :
    isFortranGlobalVariable (getGfortranArraySym (toLower moduleName) (toLower arrayName)) = true ↔
      ¬ IsLibgfortran moduleName arrayName := by
  have heq : ∀ array, getGfortranArraySym (toLower moduleName) (toLower arrayName) =
      getGfortranArraySym "ieee_exceptions" array ↔
        toLower moduleName = "ieee_exceptions" ∧ toLower arrayName = array := fun array =>
    gfortran_inj (fun _ => notUpper_of_mem_toLower) fun _ => notUpper_of_mem_toLower
  have husual : "__ieee_exceptions_MOD_ieee_usual" =
      getGfortranArraySym "ieee_exceptions" "ieee_usual" := by decide
  have hall : "__ieee_exceptions_MOD_ieee_all" =
      getGfortranArraySym "ieee_exceptions" "ieee_all" := by decide
  rw [isFortranGlobalVariable_iff, husual, hall, Ne, Ne, heq, heq, ← not_or, ← and_or_left]
  exact and_iff_left (.inl (gfortran_matches hm ha))

/-- Any other name that begins with two underscores is not taken for one of libgfortran. -/
theorem recognised_of_not_prefix (hname : ¬ ['_', '_'] <+: name.toList)
    (h : Matches ifxGlobalVarSymReg name.toList ∨ Matches flangGlobalVarSymReg name.toList) :
    isFortranGlobalVariable name = true := by
  refine isFortranGlobalVariable_iff.mpr ⟨⟨?_, ?_⟩, .inr h⟩
  · rintro rfl
    exact hname (by decide)
  · rintro rfl
    exact hname (by decide)

theorem ifx_recognised (hm : IsIdentifier moduleName) (ha : IsIdentifier arrayName) :
    isFortranGlobalVariable (getIfxArraySym (toLower moduleName) (toLower arrayName)) = true := by
  refine recognised_of_not_prefix ?_ (.inl (ifx_matches hm ha))
  obtain ⟨c, rest, hname, hc, -⟩ := hm
  rw [getIfxArraySym, String.toList_append, String.toList_append, String.toList_append,
    toList_toLower, hname, List.map_cons]
  rintro ⟨t, ht⟩
  exact toLower_ne hc (List.cons.inj ht).1.symm

theorem flang_recognised (hm : IsIdentifier moduleName) (ha : IsIdentifier arrayName) :
    isFortranGlobalVariable (getFlangArraySym (toLower moduleName) (toLower arrayName)) = true := by
  refine recognised_of_not_prefix ?_ (.inr (flang_matches hm ha))
  rw [getFlangArraySym, String.toList_append, String.toList_append, String.toList_append,
    show "_QM".toList = ['_', 'Q', 'M'] by decide]
  rintro ⟨t, ht⟩
  exact absurd (List.cons.inj (List.cons.inj ht).2).1 (by decide)

/-- What `get_array_addr` returns is the address of one of the names. -/
theorem getArrayAddr_ok {L : Libraries} {addr : Nat}
    (h : getArrayAddr L moduleName arrayName = .ok addr) :
    ∃ sym ∈ arraySyms moduleName arrayName, L.symbolName2Addr sym = some addr := by
  simp only [getArrayAddr] at h
  split at h
  · next hsym =>
    cases h
    exact ⟨_, by simp [arraySyms], hsym⟩
  · split at h
    · next hsym =>
      cases h
      exact ⟨_, by simp [arraySyms], hsym⟩
    · rw [L.lookUp_eq] at h
      split at h
      · next hsym =>
        cases h
        obtain ⟨hsym, -⟩ := Prod.mk.inj hsym
        exact ⟨_, by simp [arraySyms], (L.symbolName2Addr_eq _).trans hsym⟩
      · next hsym =>
        obtain ⟨-, rfl⟩ := Prod.mk.inj hsym
        cases h

end

/-- Every name under which `get_array_addr` looks an array up is the name of a Fortran
global variable. -/
theorem arraySyms_recognised (moduleName arrayName : String) (hm : IsIdentifier moduleName)
    (ha : IsIdentifier arrayName) (hlib : ¬ IsLibgfortran moduleName arrayName) :
    (∀ sym ∈ arraySyms moduleName arrayName, isFortranGlobalVariable sym = true) ∧
    ∀ (L : Libraries) (addr : Nat), getArrayAddr L moduleName arrayName = .ok addr →
      ∃ sym, isFortranGlobalVariable sym = true ∧ L.symbolName2Addr sym = some addr := by
  have hall : ∀ sym ∈ arraySyms moduleName arrayName, isFortranGlobalVariable sym = true := by
    intro sym hsym
    simp only [arraySyms, List.mem_cons, List.not_mem_nil, or_false] at hsym
    rcases hsym with rfl | rfl | rfl
    · exact (gfortran_recognised_iff hm ha).mpr hlib
    · exact ifx_recognised hm ha
    · exact flang_recognised hm ha
  refine ⟨hall, fun L addr h => ?_⟩
  obtain ⟨sym, hsym, haddr⟩ := getArrayAddr_ok h
  exact ⟨sym, hall sym hsym, haddr⟩

/-- A module and a variable with the separators in their names. -/
theorem arraySyms_recognised_separators :
    isFortranGlobalVariable (getIfxArraySym "a_mp_b_" "c_mp_") = true := by
  have hm : IsIdentifier "A_mp_B_" :=
    isIdentifier_of_all (by decide : _ = 'A' :: "_mp_B_".toList) (by decide) (by decide)
  have ha : IsIdentifier "C_MP_" :=
    isIdentifier_of_all (by decide : _ = 'C' :: "_MP_".toList) (by decide) (by decide)
  have hsym : getIfxArraySym "a_mp_b_" "c_mp_" ∈ arraySyms "A_mp_B_" "C_MP_" := by decide
  exact (arraySyms_recognised _ _ hm ha fun h => absurd h.1 (by decide)).1 _ hsym

end SimpleParallel.Sync
