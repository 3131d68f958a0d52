import Mathlib.Data.List.Infix
import SimpleParallel.Lib.Loops
import SimpleParallel.Lib.Pattern
import SimpleParallel.Sync.Pagemap

/-!
# Finding the Fortran global variables

`get_all_fortran_global_varaibles` walks over the loaded objects and their dynamic symbol
tables. A symbol is kept when it is an object, its section number is one of
`shndx_to_include` and its name is that of a Fortran global variable. The numbers come from
the section header table of the executable, whatever object the symbol is in.

The count of a symbol table that has a `DT_GNU_HASH` only is `get_sym_num_from_gnu_hash`,
given here with the segment.

* `mem_getDesiredSectionNum`: the numbers of the sections in the executable.
* `getAllFortranGlobalVariables_ok`: what is collected, object by object.
* `fortran_globals_iff`: for each symbol this is what its own object says exactly when the
  tables agree on its number; `fortran_globals_not`: a library with other sections.
-/

namespace SimpleParallel.Sync

open Pattern

/-! ## Names -/

/-- `[^A-Z]`. -/
def notUpper (c : Char) : Bool := !decide ('A' ≤ c ∧ c ≤ 'Z')

/-- `[^_A-Z]`. -/
def notUnderscoreUpper (c : Char) : Bool := c != '_' && notUpper c

/-- `[^_A-Z][^A-Z]*`. -/
def identifier : List Item := [.one notUnderscoreUpper, .many notUpper]

/-- `gfort_global_var_sym_reg`. -/
def gfortGlobalVarSymReg : List Item :=
  literal "__" ++ identifier ++ literal "_MOD_" ++ identifier

/-- `ifx_global_var_sym_reg`. -/
def ifxGlobalVarSymReg : List Item := identifier ++ literal "_mp_" ++ identifier ++ literal "_"

/-- `flang_global_var_sym_reg`. -/
def flangGlobalVarSymReg : List Item := literal "_QM" ++ identifier ++ literal "E" ++ identifier

def isFortranGlobalVariable (symbolName : String) : Bool :=
  if symbolName = "__ieee_exceptions_MOD_ieee_usual" ∨
      symbolName = "__ieee_exceptions_MOD_ieee_all" then false
  else fullMatch gfortGlobalVarSymReg symbolName.toList ||
    fullMatch ifxGlobalVarSymReg symbolName.toList ||
    fullMatch flangGlobalVarSymReg symbolName.toList

/-- Which strings are names of variables. -/
theorem isFortranGlobalVariable_iff {symbolName : String} :
    isFortranGlobalVariable symbolName = true ↔
      (symbolName ≠ "__ieee_exceptions_MOD_ieee_usual" ∧
        symbolName ≠ "__ieee_exceptions_MOD_ieee_all") ∧
      (Matches gfortGlobalVarSymReg symbolName.toList ∨
        Matches ifxGlobalVarSymReg symbolName.toList ∨
        Matches flangGlobalVarSymReg symbolName.toList) := by
  unfold isFortranGlobalVariable
  rw [← not_or, ← fullMatch_iff, ← fullMatch_iff, ← fullMatch_iff]
  by_cases hieee : symbolName = "__ieee_exceptions_MOD_ieee_usual" ∨
      symbolName = "__ieee_exceptions_MOD_ieee_all"
  · rw [if_pos hieee]
    exact iff_of_false (by decide) fun h => h.1 hieee
  · rw [if_neg hieee, Bool.or_eq_true, Bool.or_eq_true, or_assoc]
    exact (and_iff_right hieee).symm

example : isFortranGlobalVariable "__test_module_MOD_tttt" = true := by decide

/-! ## Objects -/

/-- `ElfW(Sym)`. -/
structure Sym where
  stName : Nat
  stInfo : Nat
  stShndx : Nat
  stSize : Nat
  deriving DecidableEq

/-- `ELF64_ST_TYPE(st_info) == STT_OBJECT`. -/
def Sym.isGlobalVariable (sym : Sym) : Bool := sym.stInfo &&& 0xf == 1

/-- What the tags of a dynamic segment lead to. -/
structure DynamicSegment where
  /-- the second word of the `DT_HASH` table -/
  hash : Option Nat
  /-- `get_sym_num_from_gnu_hash` of the `DT_GNU_HASH` table -/
  gnuHash : Option Nat
  symtab : Option (Nat → Sym)
  strtab : Option (Nat → String)

/-- `dl_phdr_info`, with the section header table of the file. -/
structure LoadedObject where
  name : String
  /-- the type of each program header, and the segment there -/
  phdrs : List (Nat × DynamicSegment)
  /-- the names of the sections by number; 0 is no section -/
  sections : List String

/-- `.data`, `.bss` or `.dynamic`. -/
def desiredSection (name : String) : Bool := name == ".data" || name == ".bss" || name == ".dynamic"

/-- Reading `/proc/self/exe` can fail. -/
inductive ElfFailure
  | version | openExe | begin | kind | shdrstrndx | shdr | strptr

/-- The texts of `get_desired_section_num`; `reason` is `elf_errmsg` or `strerror`. -/
def ElfFailure.message (reason : String) : ElfFailure → String
  | version => "ELF library initialization failed: " ++ reason ++ "\n"
  | openExe => "Failed to open /proc/self/exe, reason: " ++ reason
  | begin => "elf_begin() failed: " ++ reason ++ "\n"
  | kind => "/proc/self/exe is not an ELF object."
  | shdrstrndx => "elf_getshdrstrndx() failed: " ++ reason ++ "\n"
  | shdr => "getshdr() failed: " ++ reason ++ "\n"
  | strptr => "elf_strptr() failed: " ++ reason ++ "\n"

/-- What the calls into the libraries give. -/
structure Libraries where
  ndebug : Bool
  /-- before the sections are read, and for the section of a number -/
  elfFails : Option ElfFailure
  elfFailsAt : Nat → Option ElfFailure
  elfReason : String
  /-- the addresses that `dlsym` finds -/
  symbols : String → Option Nat
  /-- the error when it finds none -/
  notFound : String → String

/-- How a call ends that does not return. -/
inductive Failure
  | exception (what : String)
  | assertion (expr : String)
  /-- `std::runtime_error` of a null pointer, which is undefined -/
  | nullWhat
  deriving DecidableEq

/-- `throw std::runtime_error(what)`. -/
def runtimeError {α : Type} : Option String → Except Failure α
  | some what => .error (.exception what)
  | none => .error .nullWhat

/-- `dlerror()`, of the error that is pending. None is afterwards. -/
def dlerror (pending : Option String) : Option String × Option String := (pending, none)

namespace Libraries

variable (L : Libraries)

/-- `dlsym(RTLD_DEFAULT, name)`, with the error that is pending after it. -/
def dlsym (name : String) : Nat × Option String :=
  match L.symbols name with
  | some addr => (addr, none)
  | none => (0, some (L.notFound name))

/-- `symbol_name_2_addr`, with the error that is pending after it. -/
def lookUp (name : String) : Option Nat × Option String :=
  let (addr, pending) := L.dlsym name
  if addr = 0 then
    let (dlerrorRet, pending) := dlerror pending
    (if dlerrorRet.isSome then none else some addr, pending)
  else (some addr, pending)

/-- `symbol_name_2_addr`. -/
def symbolName2Addr (name : String) : Option Nat := (L.lookUp name).1

/-- It takes the error itself, so that none is left for its callers. -/
theorem lookUp_eq (name : String) : L.lookUp name = (L.symbols name, none) := by
  unfold lookUp dlsym
  cases L.symbols name with
  | none => rfl
  | some addr => by_cases haddr : addr = 0 <;> simp [haddr, dlerror]

@[simp] theorem symbolName2Addr_eq (name : String) : L.symbolName2Addr name = L.symbols name :=
  congrArg Prod.fst (L.lookUp_eq name)

end Libraries

/-- `global_variable_info`. -/
structure GlobalVariable where
  name : String
  area : MemArea
  deriving DecidableEq

/-- The executable and the libraries, in the order of `dl_iterate_phdr`. -/
structure Process where
  exe : LoadedObject
  libs : List LoadedObject

def Process.objects (process : Process) : List LoadedObject := process.exe :: process.libs

/-! ## The walk -/

section

variable (L : Libraries)

/-- The loop over the sections of the executable, from number `i` on. -/
def desiredFrom : Nat → List String → List Nat → Except Failure (List Nat)
  | _, [], ret => .ok ret
  | i, name :: names, ret =>
    match L.elfFailsAt i with
    | some failure => .error (.exception (failure.message L.elfReason))
    | none =>
      -- `gsl::narrow_cast<ElfW(Section)>` keeps 16 bits
      desiredFrom (i + 1) names (if desiredSection name then ret ++ [i % 2 ^ 16] else ret)

/-- `get_desired_section_num`. The first section read is number 1. -/
def getDesiredSectionNum (exe : LoadedObject) : Except Failure (List Nat) :=
  match L.elfFails with
  | some failure => .error (.exception (failure.message L.elfReason))
  | none => desiredFrom L 1 exe.sections.tail []

/-- One symbol in the loop of `get_symbol_from_symtab`. -/
def addSymbol (shndxToInclude : List Nat) (strtab : Nat → String) (vars : List GlobalVariable)
    (sym : Sym) : Except Failure (List GlobalVariable) :=
  if sym.stShndx ∉ shndxToInclude then .ok vars
  else if L.ndebug = false ∧ sym.stName = 0 then .error (.assertion "name_offset != 0")
  else
    let symName := strtab sym.stName
    if isFortranGlobalVariable symName then
      match L.lookUp symName with
      | (none, pending) => runtimeError (dlerror pending).1
      | (some addr, _) => .ok (vars ++ [⟨symName, ⟨addr, sym.stSize⟩⟩])
    else .ok vars

/-- `get_symbol_from_symtab`; `shndx_to_include` is computed once, from the executable. -/
def getSymbolFromSymtab (exe : LoadedObject) (symtab : List Sym) (strtab : Nat → String)
    (vars : List GlobalVariable) : Except Failure (List GlobalVariable) := do
  let shndxToInclude ← getDesiredSectionNum L exe
  (symtab.filter Sym.isGlobalVariable).foldlM (addSymbol L shndxToInclude strtab) vars

/-- `get_sym_cnt`. -/
def getSymCnt (segment : DynamicSegment) : Except Failure Nat :=
  match segment.hash <|> segment.gnuHash with
  | none => .error (.exception "DT_HASH and DT_GNU_HASH does not present in dynamic_tags")
  | some symCnt =>
    if L.ndebug = false ∧ symCnt = 0 then .error (.assertion "sym_cnt > 0") else .ok symCnt

/-- `get_symbol_from_dynamic_tags`. -/
def getSymbolFromDynamicTags (exe : LoadedObject) (vars : List GlobalVariable)
    (segment : DynamicSegment) : Except Failure (List GlobalVariable) := do
  let symCnt ← getSymCnt L segment
  match segment.symtab with
  | none => throw (.exception "DT_SYMTAB does not present in dynamic_tags")
  | some symtab =>
    match segment.strtab with
    | none => throw (.exception "DT_STRTAB does not present in dynamic_tags")
    | some strtab => getSymbolFromSymtab L exe ((List.range symCnt).map symtab) strtab vars

/-- The vdso and libgfortran are left out. -/
def LoadedObject.skipped (object : LoadedObject) : Bool :=
  object.name == "linux-vdso.so.1" ||
    decide ("/libgfortran.so".toList <:+: object.name.toList)

/-- `PT_DYNAMIC`. -/
def ptDynamic : Nat := 2

def LoadedObject.segments (object : LoadedObject) : List DynamicSegment :=
  (object.phdrs.filter fun phdr => phdr.1 == ptDynamic).map Prod.snd

/-- `retrieve_symbolnames`. -/
def retrieveSymbolnames (exe : LoadedObject) (vars : List GlobalVariable) (object : LoadedObject) :
    Except Failure (List GlobalVariable) :=
  if object.skipped then .ok vars
  else object.segments.foldlM (getSymbolFromDynamicTags L exe) vars

/-- `get_all_fortran_global_varaibles`. -/
def getAllFortranGlobalVariables (process : Process) : Except Failure (List GlobalVariable) :=
  process.objects.foldlM (retrieveSymbolnames L process.exe) []

end

/-! ## What is collected -/

/-- The symbols of a segment, with their strings. -/
def DynamicSegment.symbols (segment : DynamicSegment) : List Sym :=
  match segment.symtab with
  | none => []
  | some symtab => (List.range ((segment.hash <|> segment.gnuHash).getD 0)).map symtab

def DynamicSegment.symName (segment : DynamicSegment) (sym : Sym) : String :=
  match segment.strtab with
  | none => ""
  | some strtab => strtab sym.stName

/-- The numbers of the sections with one of the names, the first one being `i`. -/
def desiredNums : Nat → List String → List Nat
  | _, [] => []
  | i, name :: names =>
    if desiredSection name then i % 2 ^ 16 :: desiredNums (i + 1) names
    else desiredNums (i + 1) names

/-- The symbols that the walk collects. -/
def Process.collects (process : Process) (segment : DynamicSegment) (sym : Sym) : Bool :=
  sym.isGlobalVariable && decide (sym.stShndx ∈ desiredNums 1 process.exe.sections.tail) &&
    isFortranGlobalVariable (segment.symName sym)

/-- The entry for a symbol. -/
def Libraries.entry (L : Libraries) (segment : DynamicSegment) (sym : Sym) : GlobalVariable :=
  ⟨segment.symName sym, ⟨(L.symbolName2Addr (segment.symName sym)).getD 0, sym.stSize⟩⟩

def Process.visited (process : Process) : List LoadedObject :=
  process.objects.filter fun object => !object.skipped

/-- A section of the executable has the number, in 16 bits, and one of the names. -/
def Process.Included (process : Process) (shndx : Nat) : Prop :=
  ∃ i name, 0 < i ∧ process.exe.sections[i]? = some name ∧ desiredSection name = true ∧
    i % 2 ^ 16 = shndx

/-- The symbol is defined in a section of the object with one of the names. The numbers
from `SHN_LORESERVE` on are not sections. -/
def LoadedObject.DefinedIn (object : LoadedObject) (sym : Sym) : Prop :=
  0 < sym.stShndx ∧ sym.stShndx < 0xff00 ∧
    ∃ name, object.sections[sym.stShndx]? = some name ∧ desiredSection name = true

/-- The symbol is a Fortran global variable of the object. -/
def LoadedObject.Selected (object : LoadedObject) (segment : DynamicSegment) (sym : Sym) : Prop :=
  sym.isGlobalVariable = true ∧ isFortranGlobalVariable (segment.symName sym) = true ∧
    object.DefinedIn sym

section

variable {L : Libraries} {process : Process} {segment : DynamicSegment} {sym : Sym}
  {vars vars' : List GlobalVariable}

theorem desiredFrom_ok {i : Nat} {names : List String} {ret shndx : List Nat}
    (h : desiredFrom L i names ret = .ok shndx) : shndx = ret ++ desiredNums i names := by
  induction names generalizing i ret with
  | nil =>
    cases h
    exact (List.append_nil _).symm
  | cons name names ih =>
    rw [desiredFrom] at h
    split at h
    · cases h
    · rw [ih h, desiredNums]
      split
      · rw [List.append_assoc]
        rfl
      · rfl

theorem getDesiredSectionNum_ok {exe : LoadedObject} {shndx : List Nat}
    (h : getDesiredSectionNum L exe = .ok shndx) : shndx = desiredNums 1 exe.sections.tail := by
  unfold getDesiredSectionNum at h
  split at h
  · cases h
  · exact desiredFrom_ok h

theorem mem_desiredNums {i n : Nat} {names : List String} : n ∈ desiredNums i names ↔
    ∃ j name, names[j]? = some name ∧ desiredSection name = true ∧ (i + j) % 2 ^ 16 = n := by
  induction names generalizing i with
  | nil => exact iff_of_false (fun h => by cases h) fun ⟨_, _, h, _⟩ => by cases h
  | cons name names ih =>
    have htail : n ∈ desiredNums (i + 1) names ↔ ∃ j name', (name :: names)[j + 1]? = some name' ∧
        desiredSection name' = true ∧ (i + (j + 1)) % 2 ^ 16 = n := by
      simp only [ih, List.getElem?_cons_succ, Nat.add_assoc, Nat.add_comm 1]
    rw [desiredNums]
    constructor
    · intro h
      split at h
      · next hname =>
        rcases List.mem_cons.mp h with rfl | h
        · exact ⟨0, name, rfl, hname, rfl⟩
        · obtain ⟨j, hj⟩ := htail.mp h
          exact ⟨j + 1, hj⟩
      · obtain ⟨j, hj⟩ := htail.mp h
        exact ⟨j + 1, hj⟩
    · rintro ⟨j, name', hj, hname', hn⟩
      cases j with
      | zero =>
        cases hj
        rw [if_pos hname']
        exact List.mem_cons.mpr (.inl hn.symm)
      | succ j =>
        have hmem := htail.mpr ⟨j, name', hj, hname', hn⟩
        split
        · exact List.mem_cons_of_mem _ hmem
        · exact hmem

/-- The numbers that count are those of the sections of the executable. -/
theorem mem_desired_exe {n : Nat} :
    n ∈ desiredNums 1 process.exe.sections.tail ↔ process.Included n := by
  rw [mem_desiredNums]
  constructor
  · rintro ⟨j, name, hj, hname, hn⟩
    refine ⟨j + 1, name, Nat.succ_pos j, ?_, hname, by rw [Nat.add_comm j 1]; exact hn⟩
    rwa [List.getElem?_tail] at hj
  · rintro ⟨i, name, hi, hget, hname, hn⟩
    obtain ⟨j, rfl⟩ := Nat.exists_eq_add_of_le' hi
    exact ⟨j, name, by rwa [List.getElem?_tail], hname, by rw [Nat.add_comm 1 j]; exact hn⟩

/-- One symbol is collected, or nothing changes. -/
theorem addSymbol_ok {shndx : List Nat} {strtab : Nat → String}
    (hstrtab : segment.strtab = some strtab) (h : addSymbol L shndx strtab vars sym = .ok vars') :
    vars' = vars ++ if sym.stShndx ∈ shndx ∧ isFortranGlobalVariable (segment.symName sym) = true
      then [L.entry segment sym] else [] := by
  have hname : segment.symName sym = strtab sym.stName := by rw [DynamicSegment.symName, hstrtab]
  rw [addSymbol] at h
  by_cases hshndx : sym.stShndx ∈ shndx
  · rw [if_neg (fun hnot => hnot hshndx)] at h
    split at h
    · cases h
    · simp only [← hname] at h
      by_cases hfortran : isFortranGlobalVariable (segment.symName sym) = true
      · rw [if_pos hfortran] at h
        rw [if_pos ⟨hshndx, hfortran⟩]
        rw [L.lookUp_eq] at h
        cases hsymbol : L.symbols (segment.symName sym) with
        | none =>
          rw [hsymbol] at h
          cases h
        | some addr =>
          rw [hsymbol] at h
          cases h
          rw [Libraries.entry, L.symbolName2Addr_eq, hsymbol]
          rfl
      · rw [if_neg hfortran] at h
        rw [if_neg fun hif => hfortran hif.2]
        cases h
        exact (List.append_nil _).symm
  · rw [if_pos hshndx] at h
    rw [if_neg fun hif => hshndx hif.1]
    cases h
    exact (List.append_nil _).symm

theorem flatMap_ite {α β : Type*} (p : α → Prop) [DecidablePred p] (f : α → β) (l : List α) :
    (l.flatMap fun a => if p a then [f a] else []) = (l.filter fun a => p a).map f := by
  induction l with
  | nil => rfl
  | cons a l ih =>
    rw [List.flatMap_cons, ih]
    by_cases ha : p a
    · rw [if_pos ha, List.filter_cons_of_pos (p := fun a => decide (p a)) (decide_eq_true ha)]
      rfl
    · rw [if_neg ha, List.filter_cons_of_neg (p := fun a => decide (p a)) (by simpa using ha)]
      rfl

/-- What a symbol table adds. -/
theorem getSymbolFromSymtab_ok {symtab : List Sym} {strtab : Nat → String}
    (hstrtab : segment.strtab = some strtab)
    (h : getSymbolFromSymtab L process.exe symtab strtab vars = .ok vars') :
    vars' = vars ++ (symtab.filter (process.collects segment)).map (L.entry segment) := by
  unfold getSymbolFromSymtab at h
  cases hdesired : getDesiredSectionNum L process.exe with
  | error e =>
    rw [hdesired] at h
    cases h
  | ok shndx =>
    rw [hdesired] at h
    have hsymbol : ∀ sym ∈ symtab.filter Sym.isGlobalVariable, ∀ vars vars',
        addSymbol L shndx strtab vars sym = .ok vars' → vars' = vars ++
          if sym.stShndx ∈ shndx ∧ isFortranGlobalVariable (segment.symName sym) = true then
            [L.entry segment sym] else [] := fun _ _ _ _ => addSymbol_ok hstrtab
    rw [Loops.foldlM_append hsymbol h, flatMap_ite, List.filter_filter]
    congr 2
    refine List.filter_congr fun sym _ => ?_
    rw [getDesiredSectionNum_ok hdesired, Process.collects, Bool.decide_and, Bool.decide_eq_true,
      Bool.and_comm, Bool.and_assoc]

/-- What a segment adds. -/
theorem getSymbolFromDynamicTags_ok
    (h : getSymbolFromDynamicTags L process.exe vars segment = .ok vars') :
    vars' = vars ++ (segment.symbols.filter (process.collects segment)).map (L.entry segment) := by
  unfold getSymbolFromDynamicTags getSymCnt at h
  cases hcnt : segment.hash <|> segment.gnuHash with
  | none =>
    rw [hcnt] at h
    cases h
  | some symCnt =>
    rw [hcnt] at h
    by_cases hassert : L.ndebug = false ∧ symCnt = 0
    · simp only [if_pos hassert] at h
      cases h
    · simp only [if_neg hassert] at h
      cases hsymtab : segment.symtab with
      | none =>
        rw [hsymtab] at h
        cases h
      | some symtab =>
        rw [hsymtab] at h
        cases hstrtab : segment.strtab with
        | none =>
          rw [hstrtab] at h
          cases h
        | some strtab =>
          rw [hstrtab] at h
          have hsymbols : segment.symbols = (List.range symCnt).map symtab := by
            rw [DynamicSegment.symbols, hsymtab, hcnt]
            rfl
          rw [hsymbols]
          exact getSymbolFromSymtab_ok hstrtab h

/-- What the walk collects. -/
theorem getAllFortranGlobalVariables_ok (h : getAllFortranGlobalVariables L process = .ok vars) :
    vars = process.visited.flatMap fun object => object.segments.flatMap fun segment =>
      (segment.symbols.filter (process.collects segment)).map (L.entry segment) := by
  have hobject : ∀ object ∈ process.objects, ∀ vars vars' : List GlobalVariable,
      retrieveSymbolnames L process.exe vars object = .ok vars' →
        vars' = vars ++ if object.skipped then [] else object.segments.flatMap fun segment =>
          (segment.symbols.filter (process.collects segment)).map (L.entry segment) := by
    intro object _ vars vars' h
    unfold retrieveSymbolnames at h
    by_cases hskip : object.skipped = true
    · rw [if_pos hskip] at h ⊢
      cases h
      exact (List.append_nil _).symm
    · rw [if_neg hskip] at h ⊢
      have hsegment : ∀ segment ∈ object.segments, ∀ vars vars',
          getSymbolFromDynamicTags L process.exe vars segment = .ok vars' → vars' = vars ++
            (segment.symbols.filter (process.collects segment)).map (L.entry segment) :=
        fun _ _ _ _ => getSymbolFromDynamicTags_ok
      exact Loops.foldlM_append hsegment h
  rw [Loops.foldlM_append hobject h, List.nil_append, Process.visited]
  induction process.objects with
  | nil => rfl
  | cons object objects ih =>
    rw [List.flatMap_cons, ih]
    cases hskip : object.skipped with
    | true => rw [List.filter_cons_of_neg (by rw [hskip]; decide)]; rfl
    | false => rw [List.filter_cons_of_pos (by rw [hskip]; rfl)]; rfl

theorem collects_iff : process.collects segment sym = true ↔ sym.isGlobalVariable = true ∧
    process.Included sym.stShndx ∧ isFortranGlobalVariable (segment.symName sym) = true := by
  rw [Process.collects, Bool.and_eq_true, Bool.and_eq_true, decide_eq_true_iff, mem_desired_exe,
    and_assoc]

/-- The executable agrees with itself. -/
theorem included_iff_exe (hlen : process.exe.sections.length ≤ 0xff00) :
    process.Included sym.stShndx ↔ process.exe.DefinedIn sym := by
  have hlt : ∀ {i : Nat} {name : String}, process.exe.sections[i]? = some name → i < 0xff00 :=
    fun hget => Nat.lt_of_lt_of_le (List.getElem?_eq_some_iff.mp hget).1 hlen
  constructor
  · rintro ⟨i, name, hi, hget, hname, hn⟩
    have hsame : i = sym.stShndx := by
      have := hlt hget
      omega
    subst hsame
    exact ⟨hi, hlt hget, name, hget, hname⟩
  · rintro ⟨hpos, hreserve, name, hget, hname⟩
    exact ⟨sym.stShndx, name, hpos, hget, hname, Nat.mod_eq_of_lt (by omega)⟩

end

/-- When the walk returns, it collected what the objects select exactly if the section
numbers of their Fortran variables mean the same in the executable. -/
theorem fortran_globals_iff (L : Libraries) (process : Process) {vars : List GlobalVariable}
    (h : getAllFortranGlobalVariables L process = .ok vars) :
    (vars = process.visited.flatMap fun object => object.segments.flatMap fun segment =>
      (segment.symbols.filter (process.collects segment)).map (L.entry segment)) ∧
    ((∀ object ∈ process.visited, ∀ segment ∈ object.segments, ∀ sym ∈ segment.symbols,
        (process.collects segment sym = true ↔ object.Selected segment sym)) ↔
      ∀ object ∈ process.visited, ∀ segment ∈ object.segments, ∀ sym ∈ segment.symbols,
        sym.isGlobalVariable = true → isFortranGlobalVariable (segment.symName sym) = true →
          (process.Included sym.stShndx ↔ object.DefinedIn sym)) := by
  refine ⟨getAllFortranGlobalVariables_ok h, ?_⟩
  simp only [collects_iff, LoadedObject.Selected]
  constructor
  · intro hsame object hobject segment hsegment sym hsym hglobal hfortran
    have := hsame object hobject segment hsegment sym hsym
    simpa only [hglobal, hfortran, true_and, and_true] using this
  · intro hagree object hobject segment hsegment sym hsym
    have := hagree object hobject segment hsegment sym hsym
    constructor
    · rintro ⟨hglobal, hincluded, hfortran⟩
      exact ⟨hglobal, hfortran, (this hglobal hfortran).mp hincluded⟩
    · rintro ⟨hglobal, hfortran, hdefined⟩
      exact ⟨hglobal, (this hglobal hfortran).mpr hdefined, hfortran⟩

/-! ## A library with a table of its own -/

def sampleLibraries : Libraries where
  ndebug := false
  elfFails := none
  elfFailsAt _ := none
  elfReason := ""
  symbols _ := some 4096
  notFound _ := ""

/-- One variable of 8 bytes in section 1. -/
def sampleSegment : DynamicSegment where
  hash := some 2
  gnuHash := none
  symtab := some fun i => if i = 1 then ⟨1, 0x11, 1, 8⟩ else ⟨0, 0, 0, 0⟩
  strtab := some fun _ => "__m_MOD_x"

def sampleProcess (sections : List String) : Process where
  exe := ⟨"", [], sections⟩
  libs := [⟨"/lib/libm.so", [(ptDynamic, sampleSegment)], ["", ".data", ".text"]⟩]

/-- The executable has its data in the same section. -/
theorem fortran_globals_iff_agree : ∃ vars,
    getAllFortranGlobalVariables sampleLibraries (sampleProcess ["", ".data"]) = .ok vars ∧
      vars = (sampleProcess ["", ".data"]).visited.flatMap fun object =>
        object.segments.flatMap fun segment =>
          (segment.symbols.filter ((sampleProcess ["", ".data"]).collects segment)).map
            (sampleLibraries.entry segment) :=
  ⟨[⟨"__m_MOD_x", ⟨4096, 8⟩⟩], by decide,
    (fortran_globals_iff sampleLibraries (sampleProcess ["", ".data"]) (by decide)).1⟩

/-- Where the executable has `.text`, the variable of the library is left out. -/
theorem fortran_globals_not :
    getAllFortranGlobalVariables sampleLibraries (sampleProcess ["", ".text", ".data"]) = .ok [] ∧
      ∃ object ∈ (sampleProcess ["", ".text", ".data"]).visited, ∃ segment ∈ object.segments,
        ∃ sym ∈ segment.symbols, object.Selected segment sym := by
  have hvisited : (sampleProcess ["", ".text", ".data"]).libs ⊆
      (sampleProcess ["", ".text", ".data"]).visited := List.subset_cons_self _ _
  refine ⟨by decide, _, hvisited List.mem_cons_self, sampleSegment, List.mem_singleton_self _,
    ⟨1, 0x11, 1, 8⟩, by decide, rfl, by decide, by decide, by decide, ".data", rfl, rfl⟩

end SimpleParallel.Sync
