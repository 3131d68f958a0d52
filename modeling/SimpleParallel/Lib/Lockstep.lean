import Mathlib.Tactic.TypeStar

/-!
# Programs in lock-step

A process takes part in calls in which all processes join. It contributes data
to each call and goes on with the data that the call delivers (`Prog`). One
process, the root, is delivered its own contributions, so it can be run alone
(`lead`); every other process is delivered those of the root, and can be run
against its calls (`follow`).

* `InStep p a q b`: the root `p` and the process `q` make equal calls, one by
  one, and return `a` and `b`. `InStep.bind`, `InStep.forM` and `InStep.foldlM` are
  the rules for programs that are put together.
* `InStep.follow`: then `q` makes the calls of the root and no others, and
  returns after the last one, not before (`InStep.follow_prefix`).
-/

namespace Lockstep

/-- A program: its calls, of kinds `κ`, contribute and deliver data in `π`. -/
inductive Prog (κ π α : Type)
  | pure (a : α)
  | fail (what : String)
  | call (c : κ) (mine : π) (k : π → Prog κ π α)

variable {κ π α β γ : Type}

namespace Prog

def bind (p : Prog κ π α) (f : α → Prog κ π β) : Prog κ π β :=
  match p with
  | pure a => f a
  | fail what => fail what
  | call c mine k => call c mine fun x => (k x).bind f

instance : Monad (Prog κ π) where
  pure := pure
  bind := bind

/-- One call. -/
def exchange (c : κ) (mine : π) : Prog κ π π := call c mine pure

theorem bind_assoc (p : Prog κ π α) (f : α → Prog κ π β) (g : β → Prog κ π γ) :
    p >>= f >>= g = p >>= fun a => f a >>= g := by
  induction p with
  | pure a => rfl
  | fail what => rfl
  | call c mine k ih => exact congrArg (call c mine) (funext ih)

theorem bind_pure (p : Prog κ π α) : p >>= Pure.pure = p := by
  induction p with
  | pure a => rfl
  | fail what => rfl
  | call c mine k ih => exact congrArg (call c mine) (funext ih)

instance : LawfulMonad (Prog κ π) :=
  LawfulMonad.mk' _ (fun p => bind_pure p) (fun _ _ => rfl) bind_assoc

end Prog

/-- How far a run comes: to the end, to an exception, to a call that has not been
made by the root, or to one that does not match the root's. -/
inductive Outcome (α : Type)
  | returned (a : α)
  | thrown (what : String)
  | waiting
  | lost
  deriving DecidableEq

namespace Prog

/-- The root alone: its calls with what they deliver, and its result. -/
def lead : Prog κ π α → List (κ × π) × Except String α
  | pure a => ([], .ok a)
  | fail what => ([], .error what)
  | call c mine k => ((c, mine) :: (k mine).lead.1, (k mine).lead.2)

theorem lead_bind {p : Prog κ π α} {f : α → Prog κ π β} {b : β} (h : (p >>= f).lead.2 = .ok b) :
    ∃ a, p.lead.2 = .ok a ∧ (f a).lead.2 = .ok b ∧
      (p >>= f).lead.1 = p.lead.1 ++ (f a).lead.1 := by
  induction p with
  | pure a => exact ⟨a, rfl, h, rfl⟩
  | fail what => cases h
  | call c mine k ih =>
    obtain ⟨a, hp, hf, hcalls⟩ := ih mine h
    exact ⟨a, hp, hf, congrArg ((c, mine) :: ·) hcalls⟩

/-- Another process against the calls of the root: the calls that it makes, and
how far it comes. -/
def follow [DecidableEq κ] : Prog κ π α → List (κ × π) → List (κ × π) × Outcome α
  | pure a, _ => ([], .returned a)
  | fail what, _ => ([], .thrown what)
  | call _ _ _, [] => ([], .waiting)
  | call c _ k, (c', x) :: rest =>
    if c = c' then (((c, x) :: ((k x).follow rest).1), ((k x).follow rest).2) else ([], .lost)

end Prog

/-! ## In step -/

/-- The root and another process make equal calls, and return. -/
inductive InStep : Prog κ π α → α → Prog κ π β → β → Prop
  | pure (a : α) (b : β) : InStep (.pure a) a (.pure b) b
  | call {c : κ} {x y : π} {k : π → Prog κ π α} {l : π → Prog κ π β} {a : α} {b : β} :
      InStep (k x) a (l x) b → InStep (.call c x k) a (.call c y l) b

namespace InStep

variable {p : Prog κ π α} {q : Prog κ π β} {a : α} {b : β}

theorem bind {δ : Type} {f : α → Prog κ π γ} {g : β → Prog κ π δ} {a' : γ} {b' : δ}
    (h : InStep p a q b) (hrest : InStep (f a) a' (g b) b') :
    InStep (p >>= f) a' (q >>= g) b' := by
  induction h with
  | pure a b => exact hrest
  | call _ ih => exact .call (ih hrest)

theorem exchange (c : κ) (x y : π) :
    InStep (Prog.exchange c x) x (Prog.exchange c y) x := .call (.pure x x)

/-- Two loops over one list whose bodies are in step. -/
theorem forM {ι : Type} {l : List ι} {f g : ι → Prog κ π Unit}
    (h : ∀ i ∈ l, InStep (f i) () (g i) ()) : InStep (l.forM f) () (l.forM g) () := by
  induction l with
  | nil => exact .pure () ()
  | cons i l ih =>
    exact (h i List.mem_cons_self).bind (ih fun j hj => h j (List.mem_cons_of_mem _ hj))

/-- Two loops whose bodies are in step, and in which the root's state stays. -/
theorem foldlM {ι : Type} {l : List ι} {f : α → ι → Prog κ π α} {g : β → ι → Prog κ π β}
    {next : β → ι → β} (h : ∀ b, ∀ i ∈ l, InStep (f a i) a (g b i) (next b i)) :
    InStep (l.foldlM f a) a (l.foldlM g b) (l.foldl next b) := by
  induction l generalizing b with
  | nil => exact .pure a b
  | cons i l ih =>
    rw [List.foldlM_cons, List.foldlM_cons]
    exact (h b i List.mem_cons_self).bind (ih fun b j hj => h b j (List.mem_cons_of_mem _ hj))

/-- The root looks away from its result. -/
theorem discard (h : InStep p a q b) : InStep (p >>= fun _ => Pure.pure ()) () q b := by
  have hbind : InStep (p >>= fun _ => Pure.pure ()) () (q >>= Pure.pure) b := h.bind (.pure () b)
  rwa [bind_pure] at hbind

theorem lead (h : InStep p a q b) : p.lead.2 = .ok a := by
  induction h with
  | pure a b => rfl
  | call _ ih => exact ih

variable [DecidableEq κ]

/-- The other process makes the calls of the root and returns after the last one. -/
theorem follow (h : InStep p a q b) : q.follow p.lead.1 = (p.lead.1, .returned b) := by
  induction h with
  | pure a b => rfl
  | call _ ih => simp [Prog.follow, Prog.lead, ih]

/-- Before the last one it waits for the next. -/
theorem follow_prefix (h : InStep p a q b) {sent : List (κ × π)} (hsent : sent <+: p.lead.1)
    (hne : sent ≠ p.lead.1) : q.follow sent = (sent, .waiting) := by
  induction h generalizing sent with
  | pure a b => exact absurd (List.prefix_nil.mp hsent) hne
  | @call c x y k l a b _ ih =>
    cases sent with
    | nil => rfl
    | cons first rest =>
      rw [Prog.lead, List.cons_prefix_cons] at hsent
      obtain ⟨rfl, hrest⟩ := hsent
      have hrest' : rest ≠ (k x).lead.1 := fun heq => hne (by rw [Prog.lead, heq])
      simp [Prog.follow, ih hrest hrest']

end InStep

end Lockstep
