import SimpleParallel.Lib.Channel

/-!
# Channels whose messages carry a tag

A channel that several users take turns on, with the user of each message as
its tag. The tag is for the reader of the model only: the users see the
messages without it (`strip`).

* `only k c` is the part of the channel that user `k` would have alone.
* `AllTagged k c`: every message on the channel is of user `k`. Then `only k c`
  is the whole channel, and what `k` does to the channel it does to `only k c`.
-/

namespace Channel

variable {τ μ : Type*} [DecidableEq τ] {k j : τ}

/-- The channel as its users see it. -/
def strip (c : Channel (τ × μ)) : Channel μ := ⟨c.mailbox.map Prod.snd, c.transit.map Prod.snd⟩

/-- The message, if it is of user `k`. -/
def untag (k : τ) (m : τ × μ) : Option μ := if m.1 = k then some m.2 else none

/-- The messages of user `k`. -/
def only (k : τ) (c : Channel (τ × μ)) : Channel μ :=
  ⟨c.mailbox.filterMap (untag k), c.transit.filterMap (untag k)⟩

/-- Every message is of user `k`. -/
def AllTagged (k : τ) (c : Channel (τ × μ)) : Prop := ∀ m ∈ c.contents, m.1 = k

@[simp] theorem untag_self (k : τ) (m : μ) : untag k (k, m) = some m := if_pos rfl

@[simp] theorem untag_other (h : j ≠ k) (m : μ) : untag k (j, m) = none := if_neg h

@[simp] theorem only_empty (k : τ) : only k (empty : Channel (τ × μ)) = empty := rfl

theorem contents_only (k : τ) (c : Channel (τ × μ)) :
    (only k c).contents = c.contents.filterMap (untag k) := by
  simp [only, contents]

/-- A user without messages has an empty channel. -/
theorem only_eq_empty {c : Channel (τ × μ)} (h : ∀ m ∈ c.contents, m.1 ≠ k) :
    only k c = empty := by
  have hnil : ∀ l : List (τ × μ), (∀ m ∈ l, m.1 ≠ k) → l.filterMap (untag k) = [] :=
    fun l hl => List.filterMap_eq_nil_iff.mpr fun m hm => if_neg (hl m hm)
  simp only [only, empty, Channel.mk.injEq]
  exact ⟨hnil _ fun m hm => h m (List.mem_append_left _ hm),
    hnil _ fun m hm => h m (List.mem_append_right _ hm)⟩

/-- No message of `k` on the channel, if `k` alone would see none. -/
theorem no_message {c : Channel (τ × μ)} (h : (only k c).contents = []) :
    ∀ m ∈ c.contents, m.1 ≠ k := by
  rw [contents_only, List.filterMap_eq_nil_iff] at h
  intro m hm hk
  have hnone := h m hm
  rw [untag, if_pos hk] at hnone
  cases hnone

theorem map_snd_eq {l : List (τ × μ)} (h : ∀ m ∈ l, m.1 = k) :
    l.map Prod.snd = l.filterMap (untag k) := by
  induction l with
  | nil => rfl
  | cons m l ih =>
    have hm : untag k m = some m.2 := if_pos (h m List.mem_cons_self)
    rw [List.map_cons, List.filterMap_cons_some hm, ih fun x hx => h x (List.mem_cons_of_mem _ hx)]

theorem strip_eq_only {c : Channel (τ × μ)} (h : AllTagged k c) : strip c = only k c := by
  simp only [strip, only, Channel.mk.injEq]
  exact ⟨map_snd_eq fun m hm => h m (List.mem_append_left _ hm),
    map_snd_eq fun m hm => h m (List.mem_append_right _ hm)⟩

/-! ## Operations -/

theorem only_send (c : Channel (τ × μ)) (m : μ) :
    only k (c.send (k, m)) = (only k c).send m := by
  simp [only, send]

theorem only_send_other (h : k ≠ j) (c : Channel (τ × μ)) (m : μ) :
    only j (c.send (k, m)) = only j c := by
  simp [only, send, h]

/-- A delivery delivers a message of `k`, or is none to `k`. -/
theorem only_deliver (k : τ) (c : Channel (τ × μ)) :
    only k c.deliver = (only k c).deliver ∨ only k c.deliver = only k c := by
  cases ht : c.transit with
  | nil => exact .inr (by simp [deliver, ht])
  | cons m rest =>
    by_cases hk : m.1 = k
    · refine .inl ?_
      have hm : untag k m = some m.2 := if_pos hk
      simp [only, deliver, ht, hm]
    · refine .inr ?_
      have hm : untag k m = none := if_neg hk
      simp [only, deliver, ht, hm]

theorem AllTagged.eraseP_map {l : List (τ × μ)} (h : ∀ m ∈ l, m.1 = k) (kind : μ → Bool) :
    (l.eraseP fun m => kind m.2).filterMap (untag k) = (l.filterMap (untag k)).eraseP kind := by
  induction l with
  | nil => rfl
  | cons m l ih =>
    have hm : untag k m = some m.2 := if_pos (h m List.mem_cons_self)
    have hl := ih fun x hx => h x (List.mem_cons_of_mem _ hx)
    cases hkind : kind m.2 with
    | true => simp [hm, hkind]
    | false => simp [hm, hkind, hl]

/-- Receiving, while the channel is all `k`'s. -/
theorem only_recv {c : Channel (τ × μ)} (h : AllTagged k c) (kind : μ → Bool) :
    only k (c.recv fun m => kind m.2) = (only k c).recv kind := by
  simp only [only, recv, Channel.mk.injEq, and_true]
  exact AllTagged.eraseP_map (fun m hm => h m (List.mem_append_left _ hm)) kind

omit [DecidableEq τ] in
theorem AllTagged.recv {c : Channel (τ × μ)} (h : AllTagged k c) (kind : τ × μ → Bool) :
    AllTagged k (c.recv kind) := by
  intro m hm
  refine h m ?_
  rcases List.mem_append.mp hm with hm | hm
  · exact List.mem_append_left _ (List.mem_of_mem_eraseP hm)
  · exact List.mem_append_right _ hm

omit [DecidableEq τ] in
theorem AllTagged.send {c : Channel (τ × μ)} (h : AllTagged k c) (m : μ) :
    AllTagged k (c.send (k, m)) := by
  intro x hx
  rw [contents_send] at hx
  rcases List.mem_append.mp hx with hx | hx
  · exact h x hx
  · rw [List.mem_singleton.mp hx]

theorem AllTagged.cancel [DecidableEq μ] {c : Channel (τ × μ)} (h : AllTagged k c) (m : τ × μ) :
    AllTagged k (c.cancel m) :=
  fun x hx => h x (mem_contents_of_cancel hx)

omit [DecidableEq τ] in
theorem AllTagged.deliver {c : Channel (τ × μ)} (h : AllTagged k c) : AllTagged k c.deliver :=
  fun x hx => h x (by rwa [contents_deliver] at hx)

omit [DecidableEq τ] in
theorem strip_deliver (c : Channel (τ × μ)) : strip c.deliver = (strip c).deliver := by
  cases ht : c.transit with
  | nil => simp [strip, Channel.deliver, ht]
  | cons m rest => simp [strip, Channel.deliver, ht]

/-- A delivery, while the channel is all `k`'s. -/
theorem AllTagged.only_deliver {c : Channel (τ × μ)} (h : AllTagged k c) :
    only k c.deliver = (only k c).deliver := by
  rw [← strip_eq_only h, ← strip_eq_only h.deliver, strip_deliver]

/-- Another user's part of a channel that is all `k`'s. -/
theorem AllTagged.only_other {c : Channel (τ × μ)} (h : AllTagged k c) (hj : k ≠ j) :
    only j c = empty :=
  only_eq_empty fun m hm hmj => hj ((h m hm).symm.trans hmj)

theorem untag_eq_some {x : τ × μ} {m : μ} : untag k x = some m ↔ x = (k, m) := by
  obtain ⟨t, y⟩ := x
  by_cases ht : t = k
  · simp [ht]
  · simp [ht]

theorem mem_untag {l : List (τ × μ)} {m : μ} : m ∈ l.filterMap (untag k) ↔ (k, m) ∈ l := by
  simp only [List.mem_filterMap, untag_eq_some, exists_eq_right]

theorem only_cancel [DecidableEq μ] (c : Channel (τ × μ)) (m : μ) :
    only k (c.cancel (k, m)) = (only k c).cancel m := by
  have herase := filterMap_erase (untag_self k m) fun _ hx => untag_eq_some.mp hx
  simp only [only, cancel, Channel.mk.injEq, mem_untag, herase, true_and]
  split
  · rfl
  · exact herase _

theorem only_cancel_other [DecidableEq μ] (h : k ≠ j) (c : Channel (τ × μ)) (m : μ) :
    only j (c.cancel (k, m)) = only j c := by
  have herase := filterMap_erase_other (untag_other h m)
  simp only [only, cancel, Channel.mk.injEq, herase, true_and]
  split
  · rfl
  · exact herase _

end Channel
