import Mathlib.Data.List.Basic
import Mathlib.Data.List.Range
import Mathlib.Data.List.Perm.Subperm
import Mathlib.Logic.Function.Basic
import SimpleParallel.Lib.LTS

/-!
# A window of requests

A loop that starts one nonblocking operation for each item of a list and keeps the
requests in a window of `capacity` slots. When the window is full it waits for any one
of them and puts the new request into its slot; in the end it waits for all.

* The operations complete at any time and in any order. Waiting for any one returns some
  completed request and sets its handle to null, or nothing when all handles are null.
* `ok` says for which items the loop goes on; for another one it aborts.
* `Inv`: no request is lost. `inv` holds in every reachable state, and
  `length_outstanding_le` bounds what is outstanding: the window and the request just
  started.
* `exists_returned`: a loop that does not abort can always come to its end;
  `exists_outstanding`: the bound on what is outstanding is met.
-/

namespace SimpleParallel.RequestWindow

/-- A slot with the request put there last, and whether its handle is null by now. -/
structure Slot where
  request : Nat
  null : Bool
  deriving DecidableEq

inductive Pc (ι : Type*)
  /-- at the head of the loop -/
  | loop (rest : List ι)
  /-- the request was started and has no slot yet -/
  | started (request : Nat) (rest : List ι)
  /-- waits for any one -/
  | waitany (request : Nat) (rest : List ι)
  /-- the slot whose request was waited for is about to be overwritten -/
  | overwrite (request slot : Nat) (rest : List ι)
  /-- there was none to wait for -/
  | undefined
  | waitall
  | returned
  | aborted

/-- `started` lists the items in the order of their requests, which are numbered. -/
structure State (ι : Type*) where
  pc : Pc ι
  buffer : List Slot
  started : List ι
  completed : Nat → Bool

inductive Act
  | control
  | start
  | waitany (slot : Nat)
  | overwrite (slot : Nat)
  | complete (request : Nat)

variable {ι : Type*}

inductive Step (capacity : Nat) (ok : ι → Bool) : State ι → Act → State ι → Prop
  | start {s : State ι} {item : ι} {rest : List ι} : s.pc = .loop (item :: rest) →
      ok item = true → Step capacity ok s .start
        { s with pc := .started s.started.length rest, started := s.started ++ [item] }
  | abort {s : State ι} {item : ι} {rest : List ι} : s.pc = .loop (item :: rest) →
      ok item = false → Step capacity ok s .control { s with pc := .aborted }
  | push {s : State ι} {r : Nat} {rest : List ι} : s.pc = .started r rest →
      s.buffer.length ≠ capacity → Step capacity ok s .control
        { s with pc := .loop rest, buffer := s.buffer ++ [⟨r, false⟩] }
  | full {s : State ι} {r : Nat} {rest : List ι} : s.pc = .started r rest →
      s.buffer.length = capacity → Step capacity ok s .control { s with pc := .waitany r rest }
  | waitany {s : State ι} {r k : Nat} {rest : List ι} {slot : Slot} : s.pc = .waitany r rest →
      s.buffer[k]? = some slot → slot.null = false → s.completed slot.request = true →
      Step capacity ok s (.waitany k)
        { s with
          pc := .overwrite r k rest
          buffer := s.buffer.set k { slot with null := true } }
  | waitanyNone {s : State ι} {r : Nat} {rest : List ι} : s.pc = .waitany r rest →
      (∀ slot ∈ s.buffer, slot.null = true) →
      Step capacity ok s .control { s with pc := .undefined }
  | overwrite {s : State ι} {r k : Nat} {rest : List ι} : s.pc = .overwrite r k rest →
      Step capacity ok s (.overwrite k)
        { s with pc := .loop rest, buffer := s.buffer.set k ⟨r, false⟩ }
  | last {s : State ι} : s.pc = .loop [] → Step capacity ok s .control { s with pc := .waitall }
  | waitall {s : State ι} : s.pc = .waitall →
      (∀ slot ∈ s.buffer, slot.null = false → s.completed slot.request = true) →
      Step capacity ok s .control { s with pc := .returned }
  | complete {s : State ι} {r : Nat} : r < s.started.length →
      Step capacity ok s (.complete r)
        { s with completed := Function.update s.completed r true }

/-- Before the first item. -/
def State.initial (items : List ι) : State ι where
  pc := .loop items
  buffer := []
  started := []
  completed _ := false

def sys (capacity : Nat) (ok : ι → Bool) (items : List ι) : LTS.Sys (State ι) Act where
  init s := s = State.initial items
  step := Step capacity ok

/-- The requests that are started and not complete. -/
def State.outstanding (s : State ι) : List Nat :=
  (List.range s.started.length).filter fun r => !s.completed r

namespace Pc

/-- The items still to come. -/
def rest : Pc ι → List ι
  | loop rest | started _ rest | waitany _ rest | overwrite _ _ rest => rest
  | _ => []

/-- The request that has no slot yet. -/
def pending : Pc ι → Option Nat
  | started r _ | waitany r _ | overwrite r _ _ => some r
  | _ => none

end Pc

/-- What is overwritten, or still there. -/
theorem mem_set_or_eq {buffer : List Slot} {k : Nat} {old slot : Slot} (new : Slot)
    (hk : buffer[k]? = some old) (hslot : slot ∈ buffer) :
    slot = old ∨ slot ∈ buffer.set k new := by
  obtain ⟨l, hl⟩ := List.mem_iff_getElem?.mp hslot
  by_cases hlk : k = l
  · subst hlk
    exact .inl (Option.some.inj (hl.symm.trans hk))
  · exact .inr (List.mem_of_getElem? ((List.getElem?_set_ne hlk).trans hl))

theorem lt_length_of_getElem? {buffer : List Slot} {k : Nat} {slot : Slot}
    (hk : buffer[k]? = some slot) : k < buffer.length :=
  (List.getElem?_eq_some_iff.mp hk).1

/-! ## No request is lost -/

/-- What holds between two steps. -/
structure Inv (capacity : Nat) (items : List ι) (s : State ι) : Prop where
  split : s.pc ≠ .aborted → s.started ++ s.pc.rest = items
  started : s.started <+: items
  length : s.buffer.length ≤ capacity
  full : ∀ r rest, s.pc = .waitany r rest → s.buffer.length = capacity
  known : ∀ slot ∈ s.buffer, slot.request < s.started.length
  pending : ∀ r, s.pc.pending = some r → r < s.started.length
  /-- a request is complete, or about to get a slot, or in one -/
  live : ∀ r < s.started.length, s.completed r = true ∨ s.pc.pending = some r ∨
    ⟨r, false⟩ ∈ s.buffer
  /-- only the slot about to be overwritten has a null handle -/
  null : ∀ k slot, s.buffer[k]? = some slot → slot.null = true →
    ∃ r rest, s.pc = .overwrite r k rest
  /-- and its request is complete -/
  freed : ∀ r k rest, s.pc = .overwrite r k rest →
    ∃ old, s.buffer[k]? = some ⟨old, true⟩ ∧ s.completed old = true
  defined : s.pc ≠ .undefined
  returned : s.pc = .returned → ∀ r < s.started.length, s.completed r = true

namespace Inv

variable {capacity : Nat} {ok : ι → Bool} {items : List ι} {s t : State ι} {a : Act}

theorem initial (capacity : Nat) (items : List ι) : Inv capacity items (State.initial items) where
  split _ := rfl
  started := List.nil_prefix
  length := Nat.zero_le capacity
  full _ _ h := by cases h
  known _ h := by cases h
  pending _ h := by cases h
  live _ h := by cases h
  null _ _ h := by cases h
  freed _ _ _ h := by cases h
  defined h := by cases h
  returned h := by cases h

section

variable {pc : Pc ι} {slot : Slot}

/-- The started items and those to come, at a place of the loop. -/
theorem split_at (h : Inv capacity items s) (hpc : s.pc = pc) (hne : pc ≠ .aborted) :
    s.started ++ pc.rest = items := by
  subst hpc
  exact h.split hne

/-- In the end everything was started. -/
theorem all_started (h : Inv capacity items s) (hpc : s.pc = .returned) : s.started = items :=
  (List.append_nil _).symm.trans (h.split_at hpc (by intro hp; cases hp))

/-- Outside of the overwriting all handles are active. -/
theorem active (h : Inv capacity items s) (hpc : s.pc = pc)
    (hne : ∀ r k rest, pc ≠ .overwrite r k rest) (hslot : slot ∈ s.buffer) :
    slot.null = false := by
  obtain ⟨k, hk⟩ := List.mem_iff_getElem?.mp hslot
  cases hnull : slot.null with
  | false => rfl
  | true =>
    obtain ⟨r, rest, hover⟩ := h.null k slot hk hnull
    exact absurd (hpc.symm.trans hover) (hne r k rest)

/-- So none is null. -/
theorem not_null (h : Inv capacity items s) (hpc : s.pc = pc)
    (hne : ∀ r k rest, pc ≠ .overwrite r k rest) {k : Nat} (hk : s.buffer[k]? = some slot)
    (hnull : slot.null = true) : False := by
  rw [h.active hpc hne (List.mem_of_getElem? hk)] at hnull
  cases hnull

end

theorem start {item : ι} {rest : List ι} (h : Inv capacity items s)
    (hpc : s.pc = .loop (item :: rest)) :
    Inv capacity items { s with
      pc := .started s.started.length rest, started := s.started ++ [item] } where
  split _ := (List.append_assoc _ _ _).trans (h.split_at hpc (by intro hp; cases hp))
  started :=
    ⟨rest, (List.append_assoc _ _ _).trans (h.split_at hpc (by intro hp; cases hp))⟩
  length := h.length
  full _ _ hp := by cases hp
  known slot hslot := by
    have := h.known slot hslot
    simp only [List.length_append, List.length_singleton]
    omega
  pending r hr := by
    cases hr
    simp
  live r hr := by
    rw [List.length_append, List.length_singleton] at hr
    by_cases hnew : r = s.started.length
    · exact .inr (.inl (hnew ▸ rfl))
    · rcases h.live r (by omega) with hc | hp | hslot
      · exact .inl hc
      · rw [hpc] at hp
        cases hp
      · exact .inr (.inr hslot)
  null _ _ hk hnull := (h.not_null hpc (by intro _ _ _ hp; cases hp) hk hnull).elim
  freed _ _ _ hp := by cases hp
  defined hp := by cases hp
  returned hp := by cases hp

theorem push {r : Nat} {rest : List ι} (h : Inv capacity items s) (hpc : s.pc = .started r rest)
    (hfull : s.buffer.length ≠ capacity) :
    Inv capacity items { s with pc := .loop rest, buffer := s.buffer ++ [⟨r, false⟩] } where
  split _ := by
    have hsplit := h.split_at hpc (by intro hp; cases hp)
    exact hsplit
  started := h.started
  length := by
    have := h.length
    simp only [List.length_append, List.length_singleton]
    omega
  full _ _ hp := by cases hp
  known slot hslot := by
    rcases List.mem_append.mp hslot with hslot | hslot
    · exact h.known slot hslot
    · rw [List.mem_singleton.mp hslot]
      exact h.pending r (by rw [hpc]; rfl)
  pending _ hp := by cases hp
  live q hq := by
    rcases h.live q hq with hc | hp | hslot
    · exact .inl hc
    · rw [hpc] at hp
      cases hp
      exact .inr (.inr (List.mem_append_right _ (List.mem_singleton_self _)))
    · exact .inr (.inr (List.mem_append_left _ hslot))
  null k slot hk hnull := by
    rcases List.mem_append.mp (List.mem_of_getElem? hk) with hslot | hslot
    · rw [h.active hpc (by intro _ _ _ hp; cases hp) hslot] at hnull
      cases hnull
    · rw [List.mem_singleton.mp hslot] at hnull
      cases hnull
  freed _ _ _ hp := by cases hp
  defined hp := by cases hp
  returned hp := by cases hp

theorem toWaitany {r : Nat} {rest : List ι} (h : Inv capacity items s)
    (hpc : s.pc = .started r rest) (hfull : s.buffer.length = capacity) :
    Inv capacity items { s with pc := .waitany r rest } where
  split _ := by
    have hsplit := h.split_at hpc (by intro hp; cases hp)
    exact hsplit
  started := h.started
  length := h.length
  full _ _ _ := hfull
  known := h.known
  pending q hq := h.pending q (by rw [hpc]; exact hq)
  live q hq := by
    have := h.live q hq
    rwa [hpc] at this
  null _ _ hk hnull := (h.not_null hpc (by intro _ _ _ hp; cases hp) hk hnull).elim
  freed _ _ _ hp := by cases hp
  defined hp := by cases hp
  returned hp := by cases hp

theorem waitany {r k : Nat} {rest : List ι} {slot : Slot} (h : Inv capacity items s)
    (hpc : s.pc = .waitany r rest) (hk : s.buffer[k]? = some slot)
    (hdone : s.completed slot.request = true) :
    Inv capacity items { s with
      pc := .overwrite r k rest, buffer := s.buffer.set k { slot with null := true } } where
  split _ := by
    have hsplit := h.split_at hpc (by intro hp; cases hp)
    exact hsplit
  started := h.started
  length := by
    rw [List.length_set]
    exact h.length
  full _ _ hp := by cases hp
  known slot' hslot' := by
    rcases List.mem_or_eq_of_mem_set hslot' with hslot' | rfl
    · exact h.known slot' hslot'
    · exact h.known slot (List.mem_of_getElem? hk)
  pending q hq := h.pending q (by rw [hpc]; exact hq)
  live q hq := by
    rcases h.live q hq with hc | hp | hslot
    · exact .inl hc
    · rw [hpc] at hp
      exact .inr (.inl hp)
    · rcases mem_set_or_eq { slot with null := true } hk hslot with rfl | hslot
      · exact .inl hdone
      · exact .inr (.inr hslot)
  null l slot' hl hnull := by
    by_cases hkl : k = l
    · subst hkl
      exact ⟨r, rest, rfl⟩
    · rw [List.getElem?_set_ne hkl] at hl
      exact (h.not_null hpc (by intro _ _ _ hp; cases hp) hl hnull).elim
  freed q l rest' hp := by
    cases hp
    exact ⟨slot.request, List.getElem?_set_self (lt_length_of_getElem? hk), hdone⟩
  defined hp := by cases hp
  returned hp := by cases hp

theorem overwrite {r k : Nat} {rest : List ι} (h : Inv capacity items s)
    (hpc : s.pc = .overwrite r k rest) :
    Inv capacity items { s with pc := .loop rest, buffer := s.buffer.set k ⟨r, false⟩ } where
  split _ := by
    have hsplit := h.split_at hpc (by intro hp; cases hp)
    exact hsplit
  started := h.started
  length := by
    rw [List.length_set]
    exact h.length
  full _ _ hp := by cases hp
  known slot' hslot' := by
    rcases List.mem_or_eq_of_mem_set hslot' with hslot' | rfl
    · exact h.known slot' hslot'
    · exact h.pending r (by rw [hpc]; rfl)
  pending _ hp := by cases hp
  live q hq := by
    obtain ⟨old, hold, hdone⟩ := h.freed r k rest hpc
    rcases h.live q hq with hc | hp | hslot
    · exact .inl hc
    · rw [hpc] at hp
      cases hp
      exact .inr (.inr (List.mem_set (lt_length_of_getElem? hold) _))
    · rcases mem_set_or_eq ⟨r, false⟩ hold hslot with heq | hslot
      · cases heq
      · exact .inr (.inr hslot)
  null l slot' hl hnull := by
    obtain ⟨old, hold, -⟩ := h.freed r k rest hpc
    by_cases hkl : k = l
    · subst hkl
      rw [List.getElem?_set_self (lt_length_of_getElem? hold)] at hl
      cases hl
      cases hnull
    · rw [List.getElem?_set_ne hkl] at hl
      obtain ⟨_, _, hover⟩ := h.null l slot' hl hnull
      rw [hpc] at hover
      cases hover
      exact absurd rfl hkl
  freed _ _ _ hp := by cases hp
  defined hp := by cases hp
  returned hp := by cases hp

/-- Steps between places without a request in hand. -/
theorem leave {pc : Pc ι} (h : Inv capacity items s) (hold : s.pc.pending = none)
    (hnew : pc.pending = none)
    (hsplit : pc ≠ .aborted → s.pc ≠ .aborted ∧ pc.rest = s.pc.rest) (hdefined : pc ≠ .undefined)
    (hreturned : pc = .returned → ∀ r < s.started.length, s.completed r = true) :
    Inv capacity items { s with pc := pc } where
  split hp := by
    rw [← h.split (hsplit hp).1, ← (hsplit hp).2]
  started := h.started
  length := h.length
  full _ _ hp := by rw [show pc = _ from hp] at hnew; cases hnew
  known := h.known
  pending r hr := by rw [show pc.pending = _ from hr] at hnew; cases hnew
  live r hr := by
    rcases h.live r hr with hc | hp | hslot
    · exact .inl hc
    · rw [hold] at hp
      cases hp
    · exact .inr (.inr hslot)
  null k slot hk hnull := by
    obtain ⟨r, rest, hover⟩ := h.null k slot hk hnull
    rw [hover] at hold
    cases hold
  freed _ _ _ hp := by rw [show pc = _ from hp] at hnew; cases hnew
  defined := hdefined
  returned := hreturned

/-- An operation completes. -/
theorem complete (h : Inv capacity items s) (r : Nat) :
    Inv capacity items { s with completed := Function.update s.completed r true } := by
  have hmono : ∀ q, s.completed q = true → Function.update s.completed r true q = true := by
    intro q hq
    by_cases hqr : q = r
    · rw [hqr, Function.update_self]
    · rwa [Function.update_of_ne hqr]
  exact
    { h with
      live := fun q hq => (h.live q hq).imp_left (hmono q)
      freed := fun q k rest hp => (h.freed q k rest hp).imp fun old hold =>
        ⟨hold.1, hmono old hold.2⟩
      returned := fun hp q hq => hmono q (h.returned hp q hq) }

theorem step (hcap : 0 < capacity) (h : Inv capacity items s) (hs : Step capacity ok s a t) :
    Inv capacity items t := by
  cases hs with
  | start hpc _ => exact h.start hpc
  | push hpc hfull => exact h.push hpc hfull
  | full hpc hfull => exact h.toWaitany hpc hfull
  | waitany hpc hk _ hdone => exact h.waitany hpc hk hdone
  | overwrite hpc => exact h.overwrite hpc
  | @waitanyNone r rest hpc hnone =>
    -- a full window of active handles has one to wait for
    have hlen := h.full r rest hpc
    obtain ⟨slot, hslot⟩ := List.exists_mem_of_length_pos (hlen ▸ hcap)
    have hactive := h.active hpc (by intro _ _ _ hp; cases hp) hslot
    rw [hnone slot hslot] at hactive
    cases hactive
  | abort hpc _ =>
    exact h.leave (by rw [hpc]; rfl) rfl (fun hp => absurd rfl hp) (fun hp => by cases hp)
      fun hp => by cases hp
  | last hpc =>
    exact h.leave (by rw [hpc]; rfl) rfl
      (fun _ => ⟨(by rw [hpc]; intro hp; cases hp), by rw [hpc]; rfl⟩) (fun hp => by cases hp)
      fun hp => by cases hp
  | waitall hpc hdone =>
    refine h.leave (by rw [hpc]; rfl) rfl
      (fun _ => ⟨(by rw [hpc]; intro hp; cases hp), by rw [hpc]; rfl⟩) (fun hp => by cases hp)
      fun _ r hr => ?_
    rcases h.live r hr with hc | hp | hslot
    · exact hc
    · rw [hpc] at hp
      cases hp
    · exact hdone _ hslot rfl
  | complete _ => exact h.complete _

/-- Outstanding requests are in the window, but for the one just started. -/
theorem length_outstanding_le (h : Inv capacity items s) :
    s.outstanding.length ≤ capacity + s.pc.pending.toList.length := by
  have hnodup : s.outstanding.Nodup := List.nodup_range.filter _
  have hsub : s.outstanding ⊆ s.buffer.map Slot.request ++ s.pc.pending.toList := by
    intro r hr
    obtain ⟨hlt, hlive⟩ := List.mem_filter.mp hr
    rcases h.live r (List.mem_range.mp hlt) with hc | hp | hslot
    · rw [hc] at hlive
      cases hlive
    · exact List.mem_append_right _ (by rw [hp]; exact List.mem_singleton_self r)
    · exact List.mem_append_left _ (List.mem_map_of_mem hslot)
  have hle := (hnodup.subperm hsub).length_le
  rw [List.length_append, List.length_map] at hle
  have := h.length
  omega

end Inv

theorem inv {capacity : Nat} {ok : ι → Bool} {items : List ι} {s : State ι} (hcap : 0 < capacity)
    (h : LTS.Reachable (sys capacity ok items) s) : Inv capacity items s :=
  h.invariant (fun _ hs => hs ▸ Inv.initial capacity items) fun _ _ _ _ hi hs => hi.step hcap hs

theorem ne_aborted {capacity : Nat} {ok : ι → Bool} {items : List ι} {s : State ι}
    (hcap : 0 < capacity) (hok : ∀ item ∈ items, ok item = true)
    (h : LTS.Reachable (sys capacity ok items) s) : s.pc ≠ .aborted := by
  refine h.invariant (P := fun s => s.pc ≠ .aborted) (fun s hs => ?init)
    fun s a t hr hi hs => ?step
  case init =>
    subst hs
    intro hp
    cases hp
  case step =>
    cases hs with
    | abort hpc hfalse =>
      have hsplit := (inv hcap hr).split_at hpc (by intro hp; cases hp)
      rw [hok _ (hsplit ▸ List.mem_append_right _ List.mem_cons_self)] at hfalse
      cases hfalse
    | complete _ => exact hi
    | start | push | full | waitany | waitanyNone | overwrite | last | waitall =>
      intro hp
      cases hp

/-! ## The loop comes to its end -/

/-- `t` can come after `s`. -/
def Leads (capacity : Nat) (ok : ι → Bool) (s t : State ι) : Prop :=
  LTS.Reachable ⟨(· = s), Step capacity ok⟩ t

/-- Everything that was started is complete. -/
def State.Quiet (s : State ι) : Prop := ∀ r < s.started.length, s.completed r = true

namespace Leads

variable {capacity : Nat} {ok : ι → Bool} {items : List ι} {s t u : State ι} {a : Act}

theorem refl (s : State ι) : Leads capacity ok s s := .init rfl

theorem step (h : Leads capacity ok s t) (hs : Step capacity ok t a u) : Leads capacity ok s u :=
  LTS.Reachable.step h hs

theorem trans (h : Leads capacity ok s t) (h' : Leads capacity ok t u) : Leads capacity ok s u :=
  LTS.Reachable.trans h h'

theorem of_reachable (h : LTS.Reachable (sys capacity ok items) s) (h' : Leads capacity ok s t) :
    LTS.Reachable (sys capacity ok items) t :=
  LTS.Reachable.trans h h'

theorem inv (hcap : 0 < capacity) (h : Leads capacity ok s t) (hs : Inv capacity items s) :
    Inv capacity items t :=
  LTS.Reachable.invariant (fun _ h0 => h0 ▸ hs) (fun _ _ _ _ hi hstep => hi.step hcap hstep) h

end Leads

section

variable {capacity : Nat} {ok : ι → Bool} {items rest : List ι} {s : State ι} {item : ι}

/-- The operations can complete one after the other. -/
theorem leads_quiet (capacity : Nat) (ok : ι → Bool) (s : State ι) : ∃ completed : Nat → Bool,
    Leads capacity ok s { s with completed := completed } ∧
      State.Quiet { s with completed := completed } := by
  suffices key : ∀ n ≤ s.started.length, ∃ completed : Nat → Bool,
      Leads capacity ok s { s with completed := completed } ∧ ∀ r < n, completed r = true from
    key s.started.length (Nat.le_refl _)
  intro n
  induction n with
  | zero => exact fun _ => ⟨s.completed, .refl s, fun r hr => absurd hr (Nat.not_lt_zero r)⟩
  | succ n ih =>
    intro hn
    obtain ⟨completed, hleads, hdone⟩ := ih (Nat.le_of_succ_le hn)
    refine ⟨Function.update completed n true, hleads.step (.complete hn), fun r hr => ?_⟩
    by_cases hrn : r = n
    · rw [hrn, Function.update_self]
    · rw [Function.update_of_ne hrn]
      exact hdone r (by omega)

/-- The loop gets out of the middle of an iteration. -/
theorem leads_loop (ok : ι → Bool) (hcap : 0 < capacity) (h : Inv capacity items s)
    (hpc : s.pc.pending ≠ none) : ∃ t, Leads capacity ok s t ∧ t.pc = .loop s.pc.rest := by
  have hover : ∀ {u : State ι} {r k : Nat} {rest : List ι}, Leads capacity ok s u →
      u.pc = .overwrite r k rest → ∃ t, Leads capacity ok s t ∧ t.pc = .loop rest :=
    fun hleads hu => ⟨_, hleads.step (.overwrite hu), rfl⟩
  have hwait : ∀ {u : State ι} {r : Nat} {rest : List ι}, Leads capacity ok s u →
      u.pc = .waitany r rest → ∃ t, Leads capacity ok s t ∧ t.pc = .loop rest := by
    intro u r rest hleads hu
    obtain ⟨completed, hquiet, hdone⟩ := leads_quiet capacity ok u
    have hinv := (hleads.trans hquiet).inv hcap h
    have hlen : u.buffer.length = capacity := hinv.full r rest hu
    obtain ⟨slot, hslot⟩ := List.exists_mem_of_length_pos (l := u.buffer) (by omega)
    obtain ⟨k, hk⟩ := List.mem_iff_getElem?.mp hslot
    have hactive := hinv.active hu (by intro _ _ _ hp; cases hp) hslot
    exact hover ((hleads.trans hquiet).step
      (.waitany hu hk hactive (hdone _ (hinv.known slot hslot)))) rfl
  cases hs : s.pc with
  | started r rest =>
    by_cases hfull : s.buffer.length = capacity
    · exact hwait ((Leads.refl s).step (.full hs hfull)) rfl
    · exact ⟨_, (Leads.refl s).step (.push hs hfull), rfl⟩
  | waitany r rest => exact hwait (.refl s) hs
  | overwrite r k rest => exact hover (.refl s) hs
  | loop _ | undefined | waitall | returned | aborted =>
    rw [hs] at hpc
    exact absurd rfl hpc

/-- One iteration. -/
theorem leads_item (hcap : 0 < capacity) (h : Inv capacity items s)
    (hpc : s.pc = .loop (item :: rest)) (hok : ok item = true) :
    ∃ t, Leads capacity ok s t ∧ t.pc = .loop rest := by
  have hstart : Leads capacity ok s _ := (Leads.refl s).step (.start hpc hok)
  obtain ⟨t, hleads, hloop⟩ :=
    leads_loop ok hcap (hstart.inv hcap h) (by intro hp; cases hp)
  exact ⟨t, hstart.trans hleads, hloop⟩

/-- From the head of the loop the end is in reach. -/
theorem leads_returned (hcap : 0 < capacity) (hok : ∀ item ∈ rest, ok item = true)
    (h : Inv capacity items s) (hpc : s.pc = .loop rest) :
    ∃ t, Leads capacity ok s t ∧ t.pc = .returned := by
  induction rest generalizing s with
  | nil =>
    obtain ⟨completed, hquiet, hdone⟩ := leads_quiet capacity ok s
    have hinv := hquiet.inv hcap h
    have hwait := hquiet.step (.last hpc)
    exact ⟨_, hwait.step (.waitall rfl fun slot hslot _ => hdone _ (hinv.known slot hslot)), rfl⟩
  | cons item rest ih =>
    obtain ⟨t, hleads, hloop⟩ := leads_item hcap h hpc (hok item List.mem_cons_self)
    obtain ⟨u, hleads', hreturned⟩ :=
      ih (fun i hi => hok i (List.mem_cons_of_mem _ hi)) (hleads.inv hcap h) hloop
    exact ⟨u, hleads.trans hleads', hreturned⟩

/-- And the abort, if there is an item to abort at. -/
theorem leads_aborted (hcap : 0 < capacity) (hbad : ∃ item ∈ rest, ok item = false)
    (h : Inv capacity items s) (hpc : s.pc = .loop rest) :
    ∃ t, Leads capacity ok s t ∧ t.pc = .aborted := by
  induction rest generalizing s with
  | nil =>
    obtain ⟨_, hmem, -⟩ := hbad
    cases hmem
  | cons item rest ih =>
    cases hok : ok item with
    | false => exact ⟨_, (Leads.refl s).step (.abort hpc hok), rfl⟩
    | true =>
      obtain ⟨bad, hmem, hfalse⟩ := hbad
      have htail : bad ∈ rest := by
        refine (List.mem_cons.mp hmem).resolve_left fun heq => ?_
        rw [heq, hok] at hfalse
        cases hfalse
      obtain ⟨t, hleads, hloop⟩ := leads_item hcap h hpc hok
      obtain ⟨u, hleads', haborted⟩ := ih ⟨bad, htail, hfalse⟩ (hleads.inv hcap h) hloop
      exact ⟨u, hleads.trans hleads', haborted⟩

/-- Whatever happened, the end is in reach, unless the loop aborts. -/
theorem exists_returned (hcap : 0 < capacity) (hok : ∀ item ∈ items, ok item = true)
    (h : Inv capacity items s) (hpc : s.pc ≠ .aborted) :
    ∃ t, Leads capacity ok s t ∧ t.pc = .returned := by
  have hrest : ∀ item ∈ s.pc.rest, ok item = true := fun item hitem =>
    hok item (h.split hpc ▸ List.mem_append_right _ hitem)
  cases hs : s.pc with
  | loop rest => exact leads_returned hcap (by rwa [hs] at hrest) h hs
  | started _ _ | waitany _ _ | overwrite _ _ _ =>
    obtain ⟨t, hleads, hloop⟩ := leads_loop ok hcap h (by rw [hs]; intro hp; cases hp)
    obtain ⟨u, hleads', hreturned⟩ := leads_returned hcap hrest (hleads.inv hcap h) hloop
    exact ⟨u, hleads.trans hleads', hreturned⟩
  | undefined => exact absurd hs h.defined
  | waitall =>
    obtain ⟨completed, hquiet, hdone⟩ := leads_quiet capacity ok s
    have hinv := hquiet.inv hcap h
    exact ⟨_, hquiet.step (.waitall hs fun slot hslot _ => hdone _ (hinv.known slot hslot)), rfl⟩
  | returned => exact ⟨s, .refl s, hs⟩
  | aborted => exact absurd hs hpc

/-- Nothing need complete while the window is filled. -/
theorem leads_filled (ok : ι → Bool) (xs : List ι) (hok : ∀ item ∈ xs, ok item = true)
    (hroom : s.buffer.length + xs.length ≤ capacity) (hpc : s.pc = .loop (xs ++ rest)) :
    ∃ t, Leads capacity ok s t ∧ t.pc = .loop rest ∧ t.started = s.started ++ xs ∧
      t.completed = s.completed := by
  induction xs generalizing s with
  | nil => exact ⟨s, .refl s, hpc, (List.append_nil _).symm, rfl⟩
  | cons item xs ih =>
    rw [List.length_cons] at hroom
    have hstart : Leads capacity ok s _ :=
      (Leads.refl s).step (.start hpc (hok item List.mem_cons_self))
    have hpush := hstart.step (.push rfl (show s.buffer.length ≠ capacity by omega))
    have hroom' : (s.buffer ++ [Slot.mk s.started.length false]).length + xs.length ≤ capacity := by
      rw [List.length_append, List.length_singleton]
      omega
    obtain ⟨t, hleads, hpc', hstarted, hcompleted⟩ :=
      ih (s := { s with
        pc := .loop (xs ++ rest)
        buffer := s.buffer ++ [⟨s.started.length, false⟩]
        started := s.started ++ [item] })
        (fun i hi => hok i (List.mem_cons_of_mem _ hi)) hroom' rfl
    refine ⟨t, hpush.trans hleads, hpc', ?_, hcompleted⟩
    rw [hstarted]
    exact List.append_assoc _ _ _

end

/-- The bound on what is outstanding is met: a full window and one more. -/
theorem exists_outstanding (capacity : Nat) (ok : ι → Bool) (items : List ι)
    (hok : ∀ item ∈ items, ok item = true) (hlen : capacity < items.length) :
    ∃ s, LTS.Reachable (sys capacity ok items) s ∧ s.outstanding.length = capacity + 1 := by
  obtain ⟨item, rest, hdrop⟩ : ∃ item rest, items.drop capacity = item :: rest :=
    List.exists_cons_of_ne_nil (by
      intro hnil
      have := List.drop_eq_nil_iff.mp hnil
      omega)
  have hitems : items = items.take capacity ++ (item :: rest) := by
    rw [← hdrop, List.take_append_drop]
  obtain ⟨t, hleads, hpc, hstarted, hcompleted⟩ :=
    leads_filled ok (s := State.initial items) (items.take capacity)
      (fun i hi => hok i (List.mem_of_mem_take hi))
      (Nat.le_trans (Nat.zero_add _).le (List.length_take_le _ _))
      (congrArg Pc.loop hitems)
  have hitem : item ∈ items := hitems ▸ List.mem_append_right _ List.mem_cons_self
  refine ⟨_, Leads.of_reachable (.init rfl) (hleads.step (.start hpc (hok item hitem))), ?_⟩
  rw [State.outstanding, List.filter_eq_self.mpr]
  · rw [List.length_range, List.length_append, hstarted]
    show ([] ++ items.take capacity).length + 1 = capacity + 1
    rw [List.nil_append, List.length_take, Nat.min_eq_left (Nat.le_of_lt hlen)]
  · intro r _
    show (!t.completed r) = true
    rw [hcompleted]
    rfl

end SimpleParallel.RequestWindow
