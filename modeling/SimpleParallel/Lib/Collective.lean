import Mathlib.Data.List.Basic
import Mathlib.Tactic.TypeStar

/-!
# Programs that make collective calls

A process makes calls of kinds `κ` and goes on with the answers in `ρ` (`Prog`). Its
runs are looked at in two ways.

* `Run`: one process alone, whose calls are answered by anything and change its memory in
  any way that is allowed.
* `Joint`: all processes, whose calls meet, are performed together and succeed; this is a
  `Run` of each (`Joint.run`).

`inTurn` makes the calls of a list up to the first that fails. `run_inTurn` says which of
them are made, and `joint_inTurn` that the processes perform one collective for each.
-/

namespace Collective

/-- A program: its calls, each answered in `ρ`. -/
inductive Prog (κ ρ α : Type)
  | pure (a : α)
  | call (c : κ) (k : ρ → Prog κ ρ α)

variable {κ ρ α β ι σ τ : Type}

namespace Prog

def bind (p : Prog κ ρ α) (f : α → Prog κ ρ β) : Prog κ ρ β :=
  match p with
  | pure a => f a
  | call c k => call c fun r => (k r).bind f

instance : Monad (Prog κ ρ) where
  pure := pure
  bind := bind

/-- One call. -/
def issue (c : κ) : Prog κ ρ ρ := call c pure

end Prog

/-- A run of one process: its calls with their answers, its result, and its memory. -/
inductive Run (allowed : κ → σ → σ → Prop) : Prog κ ρ α → σ → List (κ × ρ) → α → σ → Prop
  | pure (a : α) (m : σ) : Run allowed (.pure a) m [] a m
  | call {c : κ} {k : ρ → Prog κ ρ α} {m m' m'' : σ} {t : List (κ × ρ)} {a : α} (r : ρ) :
      allowed c m m' → Run allowed (k r) m' t a m'' → Run allowed (.call c k) m ((c, r) :: t) a m''

/-- A run of all processes, in which every call is answered by `ok`. -/
inductive Joint (performs : (ι → κ) → (ι → σ) → (ι → σ) → Prop) (ok : ρ) :
    (ι → Prog κ ρ α) → (ι → σ) → (ι → α) → (ι → σ) → Prop
  | pure {p : ι → Prog κ ρ α} {a : ι → α} {w : ι → σ} :
      (∀ i, p i = .pure (a i)) → Joint performs ok p w a w
  | call {p : ι → Prog κ ρ α} {c : ι → κ} {k : ι → ρ → Prog κ ρ α} {w w' w'' : ι → σ}
      {a : ι → α} :
      (∀ i, p i = .call (c i) (k i)) → performs c w w' →
      Joint performs ok (fun i => k i ok) w' a w'' → Joint performs ok p w a w''

/-- What every call keeps holds at the end of a run. -/
theorem Run.invariant {allowed : κ → σ → σ → Prop} {P : σ → Prop} {p : Prog κ ρ α} {m m' : σ}
    {t : List (κ × ρ)} {a : α} (h : Run allowed p m t a m')
    (hstep : ∀ c ∈ t.map Prod.fst, ∀ m m', allowed c m m' → P m → P m') (hm : P m) : P m' := by
  induction h with
  | pure a m => exact hm
  | call r hallowed _ ih =>
    exact ih (fun c hc => hstep c (List.mem_cons_of_mem _ hc))
      (hstep _ List.mem_cons_self _ _ hallowed hm)

/-- A run of all processes is a run of each. -/
theorem Joint.run {allowed : κ → σ → σ → Prop} {performs : (ι → κ) → (ι → σ) → (ι → σ) → Prop}
    {ok : ρ} {p : ι → Prog κ ρ α} {w w' : ι → σ} {a : ι → α} (h : Joint performs ok p w a w')
    (hallowed : ∀ c w w', performs c w w' → ∀ i, allowed (c i) (w i) (w' i)) (i : ι) :
    ∃ t, Run allowed (p i) (w i) t (a i) (w' i) ∧ ∀ e ∈ t, e.2 = ok := by
  induction h with
  | pure hp =>
    rw [hp i]
    exact ⟨[], .pure _ _, nofun⟩
  | call hp hperforms _ ih =>
    obtain ⟨t, hrun, hok⟩ := ih
    rw [hp i]
    exact ⟨_, .call ok (hallowed _ _ _ hperforms i) hrun, List.forall_mem_cons.mpr ⟨rfl, hok⟩⟩

/-! ## Calls in turn -/

variable [DecidableEq ρ] {ok : ρ} {ret : ρ → α}

/-- The calls of a list, until one is not answered by `ok`. -/
def inTurn (ok : ρ) (ret : ρ → α) : List κ → Prog κ ρ α
  | [] => .pure (ret ok)
  | c :: l => .call c fun r => if r ≠ ok then .pure (ret r) else inTurn ok ret l

/-- Either every call is made and answered by `ok`, or the first other answer is the
result and belongs to the last call that is made. -/
theorem run_inTurn {allowed : κ → σ → σ → Prop} {l : List κ} {m m' : σ} {t : List (κ × ρ)} {a : α}
    (h : Run allowed (inTurn ok ret l) m t a m') :
    (a = ret ok ∧ t = l.map fun c => (c, ok)) ∨
      ∃ done c rest r, l = done ++ c :: rest ∧ r ≠ ok ∧ a = ret r ∧
        t = done.map (fun c => (c, ok)) ++ [(c, r)] := by
  induction l generalizing m t with
  | nil =>
    cases h
    exact Or.inl ⟨rfl, rfl⟩
  | cons c l ih =>
    rw [inTurn] at h
    cases h with
    | call r _ hrest =>
      beta_reduce at hrest
      split at hrest
      · next hr =>
        cases hrest
        exact Or.inr ⟨[], c, l, r, rfl, hr, rfl, rfl⟩
      · next hr =>
        -- the call succeeded, and what follows is a run of the rest
        cases not_not.mp hr
        rcases ih hrest with ⟨ha, ht⟩ | ⟨done, d, rest, r, hl, hne, ha, ht⟩
        · exact Or.inl ⟨ha, by rw [ht, List.map_cons]⟩
        · exact Or.inr ⟨c :: done, d, rest, r, by rw [hl, List.cons_append], hne, ha,
            by rw [ht, List.map_cons, List.cons_append]⟩

section

variable [Nonempty ι] {performs : (ι → κ) → (ι → σ) → (ι → σ) → Prop} {f : ι → τ → κ}
  {g : τ → (ι → σ) → ι → σ} {l : List τ} {w w' : ι → σ} {a : ι → α}

/-- Processes that make matching calls in turn perform one collective for each. -/
theorem joint_inTurn (hg : ∀ c ∈ l, ∀ w w', performs (fun i => f i c) w w' ↔ w' = g c w) :
    Joint performs ok (fun i => inTurn ok ret (l.map (f i))) w a w' ↔
      (∀ i, a i = ret ok) ∧ w' = l.foldl (fun w c => g c w) w := by
  obtain ⟨i₀⟩ := ‹Nonempty ι›
  induction l generalizing w with
  | nil =>
    constructor
    · intro h
      cases h with
      | pure hp => exact ⟨fun i => (Prog.pure.inj (hp i)).symm, rfl⟩
      | call hp => cases hp i₀
    · rintro ⟨ha, rfl⟩
      exact .pure fun i => congrArg Prog.pure (ha i).symm
  | cons c l ih =>
    have hrest := ih (w := g c w) fun d hd => hg d (List.mem_cons_of_mem _ hd)
    rw [List.foldl_cons, ← hrest]
    constructor
    · intro h
      cases h with
      | pure hp => cases hp i₀
      | call hp hperf hjoint =>
        -- all processes make this call, and go on with the answer `ok`
        have hcall := fun i => Prog.call.inj (hp i)
        rw [← funext fun i => (hcall i).1, hg c List.mem_cons_self] at hperf
        cases hperf
        have hk : ∀ i, _ = inTurn ok ret (l.map (f i)) := fun i =>
          (congrFun (hcall i).2 ok).symm.trans (if_neg (not_not.mpr rfl))
        rwa [funext hk] at hjoint
    · intro h
      refine .call (fun i => rfl) ((hg c List.mem_cons_self _ _).mpr rfl) ?_
      simpa only [ne_eq, not_true_eq_false, if_false] using h

end

end Collective
