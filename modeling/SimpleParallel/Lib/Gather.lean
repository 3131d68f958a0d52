import Mathlib.Data.List.Basic
import Mathlib.Tactic.TypeStar

/-!
# Programs that call together

Processes with collective calls: a call completes when every process makes the same one.
Each contributes data, and goes on with the contributions of all. An all-reduce is such a
call with a fold of what it delivers, a barrier one that looks at nothing. Between two
calls a process works alone. It may print, and end.

* `Joint p r`: what becomes of the processes. Each prints some lines, and ends or waits for
  ever, in a call that some process does not make.
* `exists_joint`, `Joint.unique`: there is one such end.
* `Joint.of_apart`, `Joint.of_meet`: it is seen from what each does up to its next call.
-/

namespace Gather

/-- A program: its calls are named in `κ`, contribute and deliver data in `π`. -/
inductive Prog (ι κ π ε α : Type)
  | pure (a : α)
  | fail (e : ε)
  | say (line : String) (p : Prog ι κ π ε α)
  | call (c : κ) (mine : π) (k : (ι → π) → Prog ι κ π ε α)

variable {ι κ π ε α β : Type}

namespace Prog

def bind (p : Prog ι κ π ε α) (f : α → Prog ι κ π ε β) : Prog ι κ π ε β :=
  match p with
  | pure a => f a
  | fail e => fail e
  | say line p => say line (p.bind f)
  | call c mine k => call c mine fun x => (k x).bind f

instance : Monad (Prog ι κ π ε) where
  pure := pure
  bind := bind

def print (line : String) : Prog ι κ π ε Unit := say line (pure ())

/-- One call. -/
def exchange (c : κ) (mine : π) : Prog ι κ π ε (ι → π) := call c mine pure

def ofExcept : Except ε α → Prog ι κ π ε α
  | .ok a => pure a
  | .error e => fail e

/-- `catch`. -/
def handle (p : Prog ι κ π ε α) (h : ε → Prog ι κ π ε α) : Prog ι κ π ε α :=
  match p with
  | pure a => pure a
  | fail e => h e
  | say line p => say line (p.handle h)
  | call c mine k => call c mine fun x => (k x).handle h

/-- What the process prints before its next call. -/
def lines : Prog ι κ π ε α → List String
  | say line p => line :: p.lines
  | _ => []

/-- The program from its next call on. -/
def head : Prog ι κ π ε α → Prog ι κ π ε α
  | say _ p => p.head
  | p => p

/-- The next call. -/
def next? : Prog ι κ π ε α → Option κ
  | say _ p => p.next?
  | call c _ _ => some c
  | _ => none

def result? : Prog ι κ π ε α → Option (Except ε α)
  | say _ p => p.result?
  | pure a => some (.ok a)
  | fail e => some (.error e)
  | call .. => none

end Prog

/-- What becomes of a process: the lines it prints, and its result, unless it waits for
ever. -/
@[ext]
structure Fate (ε α : Type) where
  lines : List String
  result : Option (Except ε α)

inductive Joint : (ι → Prog ι κ π ε α) → (ι → Fate ε α) → Prop
  /-- The next calls differ, or some process makes none. -/
  | apart {p : ι → Prog ι κ π ε α} : (¬ ∃ c, ∀ i, (p i).next? = some c) →
      Joint p fun i => ⟨(p i).lines, (p i).result?⟩
  | meet {p : ι → Prog ι κ π ε α} {c : κ} {mine : ι → π}
      {k : ι → (ι → π) → Prog ι κ π ε α} {r : ι → Fate ε α} :
      (∀ i, (p i).head = .call c (mine i) (k i)) → Joint (fun i => k i mine) r →
      Joint p fun i => ⟨(p i).lines ++ (r i).lines, (r i).result⟩

namespace Prog

theorem next?_head (p : Prog ι κ π ε α) : p.head.next? = p.next? := by
  induction p with
  | say line p ih => exact ih
  | _ => rfl

theorem head_of_next? {p : Prog ι κ π ε α} {c : κ} (h : p.next? = some c) :
    ∃ mine k, p.head = .call c mine k := by
  induction p with
  | pure a => cases h
  | fail e => cases h
  | say line p ih => exact ih h
  | call c' mine k _ =>
    cases h
    exact ⟨mine, k, rfl⟩

theorem next?_of_head {p : Prog ι κ π ε α} {c : κ} {mine : π}
    {k : (ι → π) → Prog ι κ π ε α} (h : p.head = .call c mine k) : p.next? = some c := by
  rw [← next?_head, h]
  rfl

end Prog

theorem Joint.unique {p : ι → Prog ι κ π ε α} {r r' : ι → Fate ε α} (h : Joint p r)
    (h' : Joint p r') : r = r' := by
  induction h generalizing r' with
  | apart hne =>
    cases h' with
    | apart _ => rfl
    | meet hhead _ => exact absurd ⟨_, fun i => Prog.next?_of_head (hhead i)⟩ hne
  | meet hhead _ ih =>
    cases h' with
    | apart hne => exact absurd ⟨_, fun i => Prog.next?_of_head (hhead i)⟩ hne
    | meet hhead' hrest =>
      have heq := fun i => Prog.call.inj ((hhead i).symm.trans (hhead' i))
      obtain rfl := funext fun i => (heq i).2.1
      obtain rfl := funext fun i => (heq i).2.2
      rw [ih hrest]

/-- Every family of programs has its fate: the calls of any one of them come to an end. -/
theorem exists_joint [hι : Nonempty ι] (p : ι → Prog ι κ π ε α) : ∃ r, Joint p r := by
  obtain ⟨i₀⟩ := hι
  have main : ∀ (q : Prog ι κ π ε α) (p : ι → Prog ι κ π ε α), (p i₀).head = q.head →
      ∃ r, Joint p r := by
    intro q
    induction q with
    | pure a =>
      intro p hp
      refine ⟨_, .apart fun ⟨c, hc⟩ => ?_⟩
      have h := hc i₀
      rw [← Prog.next?_head, hp] at h
      cases h
    | fail e =>
      intro p hp
      refine ⟨_, .apart fun ⟨c, hc⟩ => ?_⟩
      have h := hc i₀
      rw [← Prog.next?_head, hp] at h
      cases h
    | say line q ih => exact ih
    | call c mine k ih =>
      intro p hp
      by_cases hmeet : ∃ c, ∀ i, (p i).next? = some c
      · obtain ⟨c', hc'⟩ := hmeet
        choose mine' k' hhead using fun i => Prog.head_of_next? (hc' i)
        have heq := Prog.call.inj ((hhead i₀).symm.trans hp)
        obtain ⟨r, hr⟩ := ih mine' (fun i => k' i mine') (by rw [heq.2.2])
        exact ⟨_, .meet hhead hr⟩
      · exact ⟨_, .apart hmeet⟩
  exact main (p i₀) p rfl

/-! ## What a run shows -/

namespace Joint

variable {p : ι → Prog ι κ π ε α} {r : ι → Fate ε α}

/-- Two processes do not meet in a call: each ends where it can, and waits otherwise. -/
theorem of_apart (h : Joint p r) (hne : ¬ ∃ c, ∀ i, (p i).next? = some c) (j : ι) :
    r j = ⟨(p j).lines, (p j).result?⟩ :=
  congrFun (h.unique (.apart hne)) j

/-- All start with the same call. -/
theorem of_call {c : κ} {mine : ι → π} {k : ι → (ι → π) → Prog ι κ π ε α}
    (h : Joint (fun i => .call c (mine i) (k i)) r) : Joint (fun i => k i mine) r := by
  generalize hp : (fun i => Prog.call c (mine i) (k i)) = p at h
  cases h with
  | apart hne => exact absurd ⟨c, fun i => by rw [← hp]; rfl⟩ hne
  | meet hhead hrest =>
    subst hp
    obtain rfl := funext fun i => (Prog.call.inj (hhead i)).2.1
    obtain rfl := funext fun i => (Prog.call.inj (hhead i)).2.2
    exact hrest

/-- A call that all make. -/
theorem of_meet [Nonempty ι] {c : κ} {mine : ι → π} {k : ι → (ι → π) → Prog ι κ π ε α}
    (h : Joint p r) (hhead : ∀ i, (p i).head = .call c (mine i) (k i)) :
    ∃ r', Joint (fun i => k i mine) r' ∧
      ∀ i, r i = ⟨(p i).lines ++ (r' i).lines, (r' i).result⟩ := by
  obtain ⟨r', hr'⟩ := exists_joint fun i => k i mine
  exact ⟨r', hr', congrFun (h.unique (.meet hhead hr'))⟩

end Joint

end Gather
