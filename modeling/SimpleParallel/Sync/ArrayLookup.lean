import SimpleParallel.Sync.FortranNames

/-!
# Looking Fortran arrays up

`get_array_addr` finds the arrays of a program by the names that their compilers gave them,
without regard to case. It tries one compiler after the other. Its answers are those of a
table of the arrays, except that ifx gives one name to several arrays.

* `linked_iff`: what the linker finds under the name of one compiler.
* `getArrayAddr_spec`: what `get_array_addr` finds.
-/

namespace SimpleParallel.Sync

open Pattern

/-! ## Programs -/

inductive Compiler
  | gfortran
  | ifx
  | flang
  deriving DecidableEq

/-- The order in which `get_array_addr` tries the compilers. -/
def Compiler.turn : Compiler → Nat
  | gfortran => 0
  | ifx => 1
  | flang => 2

def Compiler.sym : Compiler → String → String → String
  | gfortran => getGfortranArraySym
  | ifx => getIfxArraySym
  | flang => getFlangArraySym

/-- An array of a module. -/
structure ModuleArray where
  compiler : Compiler
  moduleName : String
  arrayName : String
  addr : Nat
  module_ident : IsIdentifier moduleName
  array_ident : IsIdentifier arrayName

namespace ModuleArray

def sym (x : ModuleArray) : String := x.compiler.sym (toLower x.moduleName) (toLower x.arrayName)

/-- The array has these names. -/
def Named (x : ModuleArray) (moduleName arrayName : String) : Prop :=
  toLower x.moduleName = toLower moduleName ∧ toLower x.arrayName = toLower arrayName

/-- A look-up of these names may find the array. -/
def Answers (x : ModuleArray) (moduleName arrayName : String) : Prop :=
  x.Named moduleName arrayName ∨ x.compiler = .ifx ∧
    toLower x.moduleName ++ "_mp_" ++ toLower x.arrayName =
      toLower moduleName ++ "_mp_" ++ toLower arrayName

end ModuleArray

/-- The program has the symbols of its arrays, and no others that are like them. -/
structure Linked (arrays : List ModuleArray) (L : Libraries) : Prop where
  found : ∀ x ∈ arrays, L.symbolName2Addr x.sym = some x.addr
  only : ∀ moduleName arrayName, IsIdentifier moduleName → IsIdentifier arrayName →
    ∀ sym ∈ arraySyms moduleName arrayName, ∀ addr, L.symbolName2Addr sym = some addr →
      ∃ x ∈ arrays, x.sym = sym

/-- With ifx the name shows where the name of the module ends. -/
def ModuleSeparated (moduleName : String) : Prop :=
  Separated "_mp_".toList (toLower moduleName).toList

/-! ## Symbols -/

section

variable {moduleName arrayName moduleName' arrayName' : String}

/-- The compiler that a symbol is of. -/
def Compiler.ofSym : List Char → Compiler
  | '_' :: 'Q' :: _ => flang
  | '_' :: _ => gfortran
  | _ => ifx

theorem Compiler.ofSym_sym (c : Compiler) (hm : IsIdentifier moduleName) (arrayName : String) :
    ofSym (c.sym (toLower moduleName) arrayName).toList = c := by
  cases c with
  | gfortran =>
    rw [sym, toList_gfortran]
    rfl
  | ifx =>
    obtain ⟨c, rest, hname, hc, -⟩ := hm
    have hlist : (getIfxArraySym (toLower moduleName) arrayName).toList =
        c.toLower ::
          (rest.map Char.toLower ++ "_mp_".toList ++ arrayName.toList ++ "_".toList) := by
      rw [getIfxArraySym, String.toList_append, String.toList_append, String.toList_append,
        toList_toLower, hname]
      rfl
    rw [sym, hlist, ofSym]
    · rintro rest' hrest'
      exact toLower_ne hc (List.cons.inj hrest').1
    · rintro rest' hrest'
      exact toLower_ne hc (List.cons.inj hrest').1
  | flang =>
    rw [sym, getFlangArraySym, String.toList_append, String.toList_append, String.toList_append]
    rfl

/-- A name of flang in lower case can be read in one way only. -/
theorem flang_inj (h : getFlangArraySym (toLower moduleName) (toLower arrayName) =
    getFlangArraySym (toLower moduleName') (toLower arrayName')) :
    toLower moduleName = toLower moduleName' ∧ toLower arrayName = toLower arrayName' := by
  have hupper : ∀ name, 'E' ∉ (toLower name).toList := fun name hmem =>
    absurd (notUpper_of_mem_toLower hmem) (by decide)
  have hlist := congrArg String.toList h
  simp only [getFlangArraySym, String.toList_append, List.append_assoc,
    List.append_cancel_left_eq] at hlist
  rw [show "E".toList = ['E'] by decide] at hlist
  obtain ⟨hmodule, -, harray⟩ :=
    (List.append_cons_inj_of_notMem (hupper moduleName) (hupper arrayName)).mp hlist
  exact ⟨String.toList_inj.mp hmodule, String.toList_inj.mp harray⟩

/-- The arrays under the name that a compiler gives. -/
theorem ModuleArray.sym_iff {x : ModuleArray} {c : Compiler} (hm : IsIdentifier moduleName) :
    x.sym = c.sym (toLower moduleName) (toLower arrayName) ↔
      x.compiler = c ∧ x.Answers moduleName arrayName := by
  constructor
  · intro h
    have hc : x.compiler = c := by
      rw [← x.compiler.ofSym_sym x.module_ident (toLower x.arrayName),
        ← c.ofSym_sym hm (toLower arrayName)]
      exact congrArg (fun s => Compiler.ofSym s.toList) h
    subst hc
    refine ⟨rfl, ?_⟩
    unfold ModuleArray.sym at h
    cases hcompiler : x.compiler with
    | gfortran =>
      rw [hcompiler] at h
      exact .inl ((gfortran_inj (fun _ => notUpper_of_mem_toLower)
        fun _ => notUpper_of_mem_toLower).mp h)
    | ifx =>
      rw [hcompiler] at h
      exact .inr ⟨hcompiler, (String.append_left_inj "_").mp h⟩
    | flang =>
      rw [hcompiler] at h
      exact .inl (flang_inj h)
  · rintro ⟨rfl, ⟨hmodule, harray⟩ | ⟨hifx, heq⟩⟩
    · rw [ModuleArray.sym, hmodule, harray]
    · rw [ModuleArray.sym, hifx]
      exact congrArg (· ++ "_") heq

/-- Names that ifx gives can be read in one way if they show where the module's name ends. -/
theorem ModuleArray.answers_iff {x : ModuleArray}
    (hsep : x.compiler = .ifx → ModuleSeparated x.moduleName ∧ ModuleSeparated moduleName) :
    x.Answers moduleName arrayName ↔ x.Named moduleName arrayName := by
  refine or_iff_left_of_imp ?_
  rintro ⟨hifx, heq⟩
  obtain ⟨hx, hm⟩ := hsep hifx
  have hlist := congrArg String.toList heq
  simp only [String.toList_append] at hlist
  obtain ⟨hmodule, harray⟩ := hx.inj hm hlist
  exact ⟨String.toList_inj.mp hmodule, String.toList_inj.mp harray⟩

end

/-! ## The look-up -/

section

variable {arrays : List ModuleArray} {L : Libraries} {moduleName arrayName : String} {addr : Nat}

/-- The array comes first among those that a look-up may find. -/
def ModuleArray.First (x : ModuleArray) (arrays : List ModuleArray)
    (moduleName arrayName : String) : Prop :=
  x.Answers moduleName arrayName ∧
    ∀ y ∈ arrays, y.Answers moduleName arrayName → x.compiler.turn ≤ y.compiler.turn

theorem linked_iff (h : Linked arrays L) (hm : IsIdentifier moduleName)
    (ha : IsIdentifier arrayName) (c : Compiler) :
    L.symbolName2Addr (c.sym (toLower moduleName) (toLower arrayName)) = some addr ↔
      ∃ x ∈ arrays, x.compiler = c ∧ x.Answers moduleName arrayName ∧ x.addr = addr := by
  constructor
  · intro hsym
    have hmem :
        c.sym (toLower moduleName) (toLower arrayName) ∈ arraySyms moduleName arrayName := by
      cases c <;> simp [Compiler.sym, arraySyms]
    obtain ⟨x, hx, heq⟩ := h.only moduleName arrayName hm ha _ hmem addr hsym
    obtain ⟨hc, hanswers⟩ := (ModuleArray.sym_iff hm).mp heq
    have haddr := h.found x hx
    rw [heq, hsym] at haddr
    exact ⟨x, hx, hc, hanswers, (Option.some.inj haddr).symm⟩
  · rintro ⟨x, hx, hc, hanswers, rfl⟩
    rw [← (ModuleArray.sym_iff hm).mpr ⟨hc, hanswers⟩]
    exact h.found x hx

theorem linked_none (h : Linked arrays L) (hm : IsIdentifier moduleName)
    (ha : IsIdentifier arrayName) {c : Compiler}
    (hnone : ∀ x ∈ arrays, x.Answers moduleName arrayName → x.compiler ≠ c) :
    L.symbolName2Addr (c.sym (toLower moduleName) (toLower arrayName)) = none := by
  refine Option.eq_none_iff_forall_ne_some.mpr fun addr hsym => ?_
  obtain ⟨x, hx, hc, hanswers, -⟩ := (linked_iff h hm ha c).mp hsym
  exact hnone x hx hanswers hc

theorem getArrayAddr_none (h : Linked arrays L) (hm : IsIdentifier moduleName)
    (ha : IsIdentifier arrayName) (hnone : ∀ x ∈ arrays, ¬ x.Answers moduleName arrayName) :
    getArrayAddr L moduleName arrayName = .error .nullWhat := by
  have hsym : ∀ c : Compiler,
      L.symbolName2Addr (c.sym (toLower moduleName) (toLower arrayName)) = none := fun c =>
    linked_none h hm ha fun x hx hanswers => absurd hanswers (hnone x hx)
  have hgfort := hsym .gfortran
  have hifx := hsym .ifx
  have hflang := hsym .flang
  simp only [Compiler.sym] at hgfort hifx hflang
  rw [L.symbolName2Addr_eq] at hflang
  simp only [getArrayAddr, hgfort, hifx, L.lookUp_eq, hflang]
  rfl

/-- The array that comes first is the one that is found. -/
theorem getArrayAddr_first (h : Linked arrays L) (hm : IsIdentifier moduleName)
    (ha : IsIdentifier arrayName) {x : ModuleArray} (hx : x ∈ arrays)
    (hfirst : x.First arrays moduleName arrayName) :
    getArrayAddr L moduleName arrayName = .ok x.addr := by
  obtain ⟨hanswers, hle⟩ := hfirst
  have hfound := (linked_iff h hm ha x.compiler).mpr ⟨x, hx, rfl, hanswers, rfl⟩
  -- the compilers before it
  have hbefore : ∀ c : Compiler, c.turn < x.compiler.turn →
      L.symbolName2Addr (c.sym (toLower moduleName) (toLower arrayName)) = none := fun c hlt =>
    linked_none h hm ha fun y hy hy' hc => absurd (hc ▸ hle y hy hy') (Nat.not_le.mpr hlt)
  cases hcompiler : x.compiler with
  | gfortran =>
    rw [hcompiler] at hfound
    simp only [Compiler.sym] at hfound
    simp only [getArrayAddr, hfound]
  | ifx =>
    rw [hcompiler] at hfound hbefore
    have hgfort := hbefore .gfortran (by decide)
    simp only [Compiler.sym] at hfound hgfort
    simp only [getArrayAddr, hgfort, hfound]
  | flang =>
    rw [hcompiler] at hfound hbefore
    have hgfort := hbefore .gfortran (by decide)
    have hifx := hbefore .ifx (by decide)
    simp only [Compiler.sym] at hfound hgfort hifx
    rw [L.symbolName2Addr_eq] at hfound
    simp only [getArrayAddr, hgfort, hifx, L.lookUp_eq, hfound]

theorem exists_first {x : ModuleArray} (hx : x ∈ arrays)
    (hanswers : x.Answers moduleName arrayName) :
    ∃ y ∈ arrays, y.First arrays moduleName arrayName := by
  obtain ⟨y, ⟨hy, hyanswers⟩, hmin⟩ :=
    (measure fun x : ModuleArray => x.compiler.turn).wf.has_min
      {x | x ∈ arrays ∧ x.Answers moduleName arrayName} ⟨x, hx, hanswers⟩
  exact ⟨y, hy, hyanswers, fun z hz hzanswers => Nat.not_lt.mp (hmin z ⟨hz, hzanswers⟩)⟩

/-- The look-up finds an array exactly if the program has one that answers to the names,
and then the one whose compiler is tried first. Where there is none, the error of the
look-up has already been taken, and the exception is made of a null pointer. The array
found has the names, unless ifx compiled it and its module's name or the one asked for
hides the separator. -/
theorem getArrayAddr_spec (h : Linked arrays L) (hm : IsIdentifier moduleName)
    (ha : IsIdentifier arrayName) :
    (∀ addr, getArrayAddr L moduleName arrayName = .ok addr ↔
      ∃ x ∈ arrays, x.First arrays moduleName arrayName ∧ x.addr = addr) ∧
    (getArrayAddr L moduleName arrayName = .error .nullWhat ↔
      ∀ x ∈ arrays, ¬ x.Answers moduleName arrayName) ∧
    ∀ x ∈ arrays, (x.compiler = .ifx → ModuleSeparated x.moduleName ∧ ModuleSeparated moduleName) →
      (x.Answers moduleName arrayName ↔ x.Named moduleName arrayName) := by
  refine ⟨fun addr => ⟨fun hok => ?_, ?_⟩, ⟨fun herror x hx hanswers => ?_, ?_⟩,
    fun x _ hsep => ModuleArray.answers_iff hsep⟩
  · rcases Classical.em (∃ x ∈ arrays, x.Answers moduleName arrayName) with
      ⟨x, hx, hanswers⟩ | hnone
    · obtain ⟨y, hy, hfirst⟩ := exists_first hx hanswers
      rw [getArrayAddr_first h hm ha hy hfirst] at hok
      exact ⟨y, hy, hfirst, Except.ok.inj hok⟩
    · rw [getArrayAddr_none h hm ha fun x hx hanswers => hnone ⟨x, hx, hanswers⟩] at hok
      cases hok
  · rintro ⟨x, hx, hfirst, rfl⟩
    exact getArrayAddr_first h hm ha hx hfirst
  · obtain ⟨y, hy, hfirst⟩ := exists_first hx hanswers
    rw [getArrayAddr_first h hm ha hy hfirst] at herror
    cases herror
  · exact getArrayAddr_none h hm ha

/-- The array `c` of the module `a_mp_b`, as ifx compiles it. -/
def hidden : ModuleArray where
  compiler := .ifx
  moduleName := "a_mp_b"
  arrayName := "c"
  addr := 4096
  module_ident :=
    isIdentifier_of_all (by decide : _ = 'a' :: "_mp_b".toList) (by decide) (by decide)
  array_ident := isIdentifier_of_all (by decide : _ = 'c' :: []) (by decide) (by decide)

/-- A look-up of `b_mp_c` in the module `A` finds it. -/
theorem getArrayAddr_spec_hidden : ∃ L, Linked [hidden] L ∧
    getArrayAddr L "A" "b_mp_c" = .ok hidden.addr ∧ ¬ hidden.Named "A" "b_mp_c" := by
  let L : Libraries :=
    { sampleLibraries with symbols := fun s => if s = hidden.sym then some 4096 else none }
  have hlinked : Linked [hidden] L := by
    refine ⟨fun x hx => ?_, fun m a _ _ sym _ addr hsym => ?_⟩
    · obtain rfl := List.mem_singleton.mp hx
      show (if hidden.sym = hidden.sym then some 4096 else none) = some 4096
      exact if_pos rfl
    · refine ⟨hidden, List.mem_singleton_self _, ?_⟩
      by_contra hne
      rw [L.symbolName2Addr_eq] at hsym
      change (if sym = hidden.sym then some 4096 else none) = some addr at hsym
      rw [if_neg (Ne.symm hne)] at hsym
      cases hsym
  have hm : IsIdentifier "A" :=
    isIdentifier_of_all (by decide : _ = 'A' :: []) (by decide) (by decide)
  have ha : IsIdentifier "b_mp_c" :=
    isIdentifier_of_all (by decide : _ = 'b' :: "_mp_c".toList) (by decide) (by decide)
  have hanswers : hidden.Answers "A" "b_mp_c" := .inr ⟨rfl, by decide⟩
  refine ⟨L, hlinked, ((getArrayAddr_spec hlinked hm ha).1 _).mpr
    ⟨hidden, List.mem_singleton_self _,
    ⟨hanswers, fun y hy _ => ?_⟩, rfl⟩, fun hnamed => absurd hnamed.1 (by decide)⟩
  rw [List.mem_singleton.mp hy]

end

end SimpleParallel.Sync
