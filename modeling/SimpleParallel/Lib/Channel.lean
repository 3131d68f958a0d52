import Mathlib.Algebra.GroupWithZero.Nat
import Mathlib.Data.List.Basic

/-!
# FIFO channels with delayed visibility

A channel carries the messages from one sender to one receiver. A message that
was sent is in `transit` until a delivery moves it to the receiver's
`mailbox`; deliveries keep the send order. The receiver sees the mailbox only:
`iprobe` finds its first message of a kind, `recv` takes that message out.

The lemmas say what each operation does to `contents`, the messages sent and
not yet received, and to its part of one kind (`filterMap`). `Closing` is a
channel on which one kind of message is sent once, as the last of all. `weight`
adds up what the messages of a channel have still to do.
-/

/-- The messages from one sender to one receiver, oldest first. -/
structure Channel (μ : Type*) where
  mailbox : List μ
  transit : List μ

namespace Channel

variable {μ ν : Type*}

/-- A channel on which nothing was sent. -/
def empty : Channel μ := ⟨[], []⟩

/-- The messages sent and not yet received, in send order. -/
def contents (c : Channel μ) : List μ := c.mailbox ++ c.transit

def send (c : Channel μ) (m : μ) : Channel μ := { c with transit := c.transit ++ [m] }

/-- The oldest message in transit, if any, becomes visible. -/
def deliver (c : Channel μ) : Channel μ :=
  match c.transit with
  | [] => c
  | m :: rest => ⟨c.mailbox ++ [m], rest⟩

/-- The first visible message of a kind. -/
def iprobe (c : Channel μ) (kind : μ → Bool) : Option μ := c.mailbox.find? kind

/-- Takes the first visible message of a kind out. -/
def recv (c : Channel μ) (kind : μ → Bool) : Channel μ :=
  { c with mailbox := c.mailbox.eraseP kind }

/-- Takes a message back that no receive has matched. -/
def cancel [DecidableEq μ] (c : Channel μ) (m : μ) : Channel μ :=
  ⟨c.mailbox.erase m, if m ∈ c.mailbox then c.transit else c.transit.erase m⟩

/-! ## Contents -/

@[simp] theorem contents_empty : (empty : Channel μ).contents = [] := rfl

@[simp] theorem contents_send (c : Channel μ) (m : μ) :
    (c.send m).contents = c.contents ++ [m] := by
  simp [contents, send]

@[simp] theorem contents_deliver (c : Channel μ) : c.deliver.contents = c.contents := by
  unfold deliver contents
  split
  · rfl
  · next h => simp [h]

@[simp] theorem mailbox_send (c : Channel μ) (m : μ) : (c.send m).mailbox = c.mailbox := rfl

@[simp] theorem transit_recv (c : Channel μ) (kind : μ → Bool) :
    (c.recv kind).transit = c.transit := rfl

theorem mem_contents_of_iprobe {c : Channel μ} {kind : μ → Bool} {m : μ}
    (h : c.iprobe kind = some m) : m ∈ c.contents :=
  List.mem_append_left _ (List.mem_of_find?_eq_some h)

theorem kind_of_iprobe {c : Channel μ} {kind : μ → Bool} {m : μ}
    (h : c.iprobe kind = some m) : kind m = true :=
  List.find?_some h

/-- Receiving takes the first message of its kind out of the contents. -/
theorem contents_recv {c : Channel μ} {kind : μ → Bool} {m : μ}
    (h : c.iprobe kind = some m) : (c.recv kind).contents = c.contents.eraseP kind := by
  have hex : ∃ x ∈ c.mailbox, kind x = true :=
    ⟨m, List.mem_of_find?_eq_some h, List.find?_some h⟩
  obtain ⟨x, hx, hk⟩ := hex
  unfold recv contents
  rw [List.eraseP_append_left hk c.transit hx]

theorem contents_cancel [DecidableEq μ] (c : Channel μ) (m : μ) :
    (c.cancel m).contents = c.contents.erase m := by
  unfold cancel contents
  by_cases hm : m ∈ c.mailbox
  · simp [hm, List.erase_append_left]
  · simp [hm, List.erase_append_right, List.erase_of_not_mem]

theorem mem_contents_of_cancel [DecidableEq μ] {c : Channel μ} {m x : μ}
    (h : x ∈ (c.cancel m).contents) : x ∈ c.contents := by
  rw [contents_cancel] at h
  exact List.mem_of_mem_erase h

/-! ## Messages of one kind -/

theorem filterMap_eraseP_other {f : μ → Option ν} {kind : μ → Bool}
    (hf : ∀ x, kind x = true → f x = none) (l : List μ) :
    (l.eraseP kind).filterMap f = l.filterMap f := by
  induction l with
  | nil => rfl
  | cons x l ih =>
    by_cases hx : kind x = true
    · simp [hx, hf x hx]
    · simp [hx, List.filterMap_cons, ih]

theorem filterMap_eraseP_first {f : μ → Option ν} {kind : μ → Bool}
    (hf : ∀ x, kind x = false → f x = none) {l : List μ} {m : μ} {v : ν}
    (hfind : l.find? kind = some m) (hv : f m = some v) :
    l.filterMap f = v :: (l.eraseP kind).filterMap f := by
  induction l with
  | nil => cases hfind
  | cons x l ih =>
    by_cases hx : kind x = true
    · rw [List.find?_cons_of_pos hx] at hfind
      cases hfind
      simp [hx, hv]
    · rw [List.find?_cons_of_neg hx] at hfind
      simp [hx, hf x (by simpa using hx), ih hfind]

/-- Erasing the one message with an image erases the image. -/
theorem filterMap_erase [DecidableEq μ] [DecidableEq ν] {f : μ → Option ν} {m : μ} {v : ν}
    (hm : f m = some v) (hinj : ∀ x, f x = some v → x = m) (l : List μ) :
    (l.erase m).filterMap f = (l.filterMap f).erase v := by
  induction l with
  | nil => rfl
  | cons x l ih =>
    by_cases hx : x = m
    · simp [hx, hm]
    · cases hfx : f x with
      | none => simp [hx, hfx, ih]
      | some w =>
        have hw : w ≠ v := fun heq => hx (hinj x (heq ▸ hfx))
        simp [hx, hfx, hw, ih]

theorem filterMap_erase_other [DecidableEq μ] {f : μ → Option ν} {m : μ} (hm : f m = none)
    (l : List μ) : (l.erase m).filterMap f = l.filterMap f := by
  induction l with
  | nil => rfl
  | cons x l ih =>
    by_cases hx : x = m
    · simp [hx, hm]
    · simp [hx, List.filterMap_cons, ih]

/-- Receiving a message of another kind leaves the part of kind `f` alone. -/
theorem filterMap_recv_other {f : μ → Option ν} {kind : μ → Bool}
    (hf : ∀ x, kind x = true → f x = none) {c : Channel μ} {m : μ}
    (h : c.iprobe kind = some m) :
    (c.recv kind).contents.filterMap f = c.contents.filterMap f := by
  rw [contents_recv h, filterMap_eraseP_other hf]

/-- Receiving takes the oldest message of its kind: per kind, a channel is a
queue. -/
theorem filterMap_recv {f : μ → Option ν} {kind : μ → Bool}
    (hf : ∀ x, kind x = false → f x = none) {c : Channel μ} {m : μ} {v : ν}
    (h : c.iprobe kind = some m) (hv : f m = some v) :
    c.contents.filterMap f = v :: (c.recv kind).contents.filterMap f := by
  rw [contents_recv h]
  refine filterMap_eraseP_first hf ?_ hv
  unfold contents
  rw [List.find?_append, show c.mailbox.find? kind = some m from h]
  rfl

theorem iprobe_eq_none {c : Channel μ} {kind : μ → Bool} :
    c.iprobe kind = none ↔ ∀ m ∈ c.mailbox, kind m = false := by
  simp [iprobe, List.find?_eq_none]

/-- With nothing in transit, what is on the channel can be seen. -/
theorem exists_iprobe {c : Channel μ} {kind : μ → Bool} {m : μ} (ht : c.transit = [])
    (hm : m ∈ c.contents) (hk : kind m = true) : ∃ x, c.iprobe kind = some x := by
  rw [contents, ht, List.append_nil] at hm
  exact Option.isSome_iff_exists.mp (List.find?_isSome.mpr ⟨m, hm, hk⟩)

theorem iprobe_deliver {c : Channel μ} {kind : μ → Bool} (h : (c.iprobe kind).isSome) :
    (c.deliver.iprobe kind).isSome := by
  unfold deliver
  split
  · exact h
  · rw [iprobe, List.find?_append, Option.isSome_or, show (c.mailbox.find? kind).isSome = true from h]
    rfl

/-- A visible last message leaves nothing in transit, when no other message is
of its kind. -/
theorem transit_eq_nil_of_last {c : Channel μ} {kind : μ → Bool} {l : List μ} {m d : μ}
    (hc : c.contents = l ++ [d]) (hl : ∀ x ∈ l, kind x = false)
    (h : c.iprobe kind = some m) : c.transit = [] := by
  by_contra hne
  obtain ⟨t, x, ht⟩ := List.eq_nil_or_concat c.transit |>.resolve_left hne
  have hcat : (c.mailbox ++ t) ++ [x] = l ++ [d] := by
    rw [← hc, contents, ht, List.append_assoc, List.concat_eq_append]
  have hpre : c.mailbox ++ t = l := (List.append_inj' hcat rfl).1
  have hm : m ∈ l := by
    rw [← hpre]
    exact List.mem_append_left _ (List.mem_of_find?_eq_some h)
  have := hl m hm
  rw [List.find?_some h] at this
  cases this

/-! ## What a channel has still to do

A message counts once more while it is in transit. -/

def weight (w : μ → Nat) (c : Channel μ) : Nat :=
  (c.mailbox.map w).sum + (c.transit.map fun m => w m + 1).sum

section Weight

variable {w : μ → Nat} {c : Channel μ} {m : μ} {kind : μ → Bool}

theorem weight_send (w : μ → Nat) (c : Channel μ) (m : μ) :
    (c.send m).weight w = c.weight w + (w m + 1) := by
  unfold weight send
  rw [List.map_append, List.sum_append, ← Nat.add_assoc]
  rfl

/-- A delivery of something counts; with nothing in transit it changes nothing. -/
theorem deliver_cases (w : μ → Nat) (c : Channel μ) :
    c.deliver = c ∨ c.contents ≠ [] ∧ c.deliver.weight w + 1 = c.weight w := by
  unfold deliver weight contents
  cases ht : c.transit with
  | nil => exact .inl rfl
  | cons m rest =>
    refine .inr ⟨by simp, ?_⟩
    simp only [List.map_append, List.map_cons, List.map_nil, List.sum_append, List.sum_cons,
      List.sum_nil]
    omega

theorem sum_eraseP {l : List μ} (h : l.find? kind = some m) :
    ((l.eraseP kind).map w).sum + w m = (l.map w).sum := by
  induction l with
  | nil => cases h
  | cons x l ih =>
    cases hx : kind x with
    | true =>
      rw [List.find?_cons_of_pos hx] at h
      cases h
      rw [List.eraseP_cons_of_pos hx, List.map_cons, List.sum_cons, Nat.add_comm]
    | false =>
      have hx' : ¬ kind x = true := by rw [hx]; nofun
      rw [List.find?_cons_of_neg hx'] at h
      rw [List.eraseP_cons_of_neg hx', List.map_cons, List.sum_cons, List.map_cons,
        List.sum_cons, Nat.add_assoc, ih h]

theorem weight_recv (w : μ → Nat) (h : c.iprobe kind = some m) :
    (c.recv kind).weight w + w m = c.weight w := by
  have hsum := sum_eraseP (w := w) h
  unfold weight recv
  dsimp only
  omega

theorem sum_erase_le [DecidableEq μ] (w : μ → Nat) (l : List μ) (m : μ) :
    ((l.erase m).map w).sum ≤ (l.map w).sum := by
  induction l with
  | nil => exact Nat.le_refl _
  | cons x l ih =>
    by_cases hx : x = m
    · rw [hx, List.erase_cons_head, List.map_cons, List.sum_cons]
      exact Nat.le_add_left _ _
    · rw [List.erase_cons_tail (by simpa using hx), List.map_cons, List.sum_cons, List.map_cons,
        List.sum_cons]
      exact Nat.add_le_add_left ih _

theorem weight_cancel_le [DecidableEq μ] (w : μ → Nat) (c : Channel μ) (m : μ) :
    (c.cancel m).weight w ≤ c.weight w := by
  unfold weight cancel
  refine Nat.add_le_add (sum_erase_le w c.mailbox m) ?_
  split
  · exact Nat.le_refl _
  · exact sum_erase_le _ c.transit m

end Weight

/-! ## A last message

One kind of message is sent once and last. Having received it, the receiver has
nothing left in transit. -/

/-- The messages of the kind `fin`: before and after the one of them was `sent`
(first argument) and received (second argument). -/
def Closing (fin : μ → Bool) : Bool → Bool → Channel μ → Prop
  | false, false, c => ∀ m ∈ c.contents, fin m = false
  | true, false, c => ∃ l d, c.contents = l ++ [d] ∧ fin d = true ∧ ∀ m ∈ l, fin m = false
  | true, true, c => c.transit = [] ∧ ∀ m ∈ c.contents, fin m = false
  | false, true, _ => False

namespace Closing

variable {fin kind : μ → Bool} {c : Channel μ} {sent got : Bool} {m : μ}

theorem deliver (h : Closing fin sent got c) : Closing fin sent got c.deliver := by
  match sent, got, h with
  | false, false, h => simpa [Closing] using h
  | true, false, h => simpa [Closing] using h
  | true, true, ⟨ht, hn⟩ => simpa [Closing, Channel.deliver, ht] using hn

theorem send (h : Closing fin false got c) (hm : fin m = false) :
    Closing fin false got (c.send m) := by
  match got, h with
  | false, h =>
    intro x hx
    rw [contents_send] at hx
    rcases List.mem_append.mp hx with hx | hx
    · exact h x hx
    · rw [List.mem_singleton.mp hx, hm]

theorem send_last (h : Closing fin false got c) (hm : fin m = true) :
    Closing fin true got (c.send m) := by
  match got, h with
  | false, h => exact ⟨c.contents, m, contents_send _ _, hm, h⟩

/-- Receiving a message of another kind. -/
theorem recv_other (h : Closing fin sent got c) (hk : ∀ x, kind x = true → fin x = false)
    (hm : c.iprobe kind = some m) : Closing fin sent got (c.recv kind) := by
  have hrecv := contents_recv hm
  have hrest : ∀ {l : List μ}, (∀ x ∈ l, fin x = false) → ∀ x ∈ l.eraseP kind, fin x = false :=
    fun hl x hx => hl x (List.mem_of_mem_eraseP hx)
  match sent, got, h with
  | false, false, h =>
    show ∀ x ∈ _, _
    rw [hrecv]
    exact hrest h
  | true, false, ⟨l, d, hl, hd, hn⟩ =>
    have hmk := kind_of_iprobe hm
    have hmem : m ∈ l := by
      have hmc := mem_contents_of_iprobe hm
      rw [hl] at hmc
      rcases List.mem_append.mp hmc with hml | hmd
      · exact hml
      · rw [List.mem_singleton.mp hmd] at hmk
        rw [hk d hmk] at hd
        cases hd
    refine ⟨l.eraseP kind, d, ?_, hd, hrest hn⟩
    rw [hrecv, hl, List.eraseP_append_left hmk _ hmem]
  | true, true, ⟨ht, hn⟩ =>
    refine ⟨ht, ?_⟩
    rw [hrecv]
    exact hrest hn

/-- Receiving the last message: nothing is in transit behind it. -/
theorem recv_last (h : Closing fin sent got c) (hm : c.iprobe fin = some m) :
    sent = true ∧ Closing fin true true (c.recv fin) := by
  have hrecv := contents_recv hm
  have hmem := mem_contents_of_iprobe hm
  have hkind := kind_of_iprobe hm
  match sent, got, h with
  | false, false, h => simp [h m hmem] at hkind
  | true, true, ⟨_, hn⟩ => simp [hn m hmem] at hkind
  | true, false, ⟨l, d, hl, hd, hn⟩ =>
    refine ⟨rfl, (transit_recv c _).trans (transit_eq_nil_of_last hl hn hm), ?_⟩
    rw [hrecv, hl, List.eraseP_append_right _ fun x hx => by simp [hn x hx]]
    simpa [hd] using hn

/-- Taking a message of another kind back. -/
theorem cancel [DecidableEq μ] (h : Closing fin sent got c) (hm : fin m = false) :
    Closing fin sent got (c.cancel m) := by
  have hcon := contents_cancel c m
  have hrest : ∀ {l : List μ}, (∀ x ∈ l, fin x = false) → ∀ x ∈ l.erase m, fin x = false :=
    fun hl x hx => hl x (List.mem_of_mem_erase hx)
  match sent, got, h with
  | false, false, h =>
    show ∀ x ∈ _, _
    rw [hcon]
    exact hrest h
  | true, false, ⟨l, d, hl, hd, hn⟩ =>
    have hne : d ≠ m := by
      rintro rfl
      rw [hm] at hd
      cases hd
    refine ⟨l.erase m, d, ?_, hd, hrest hn⟩
    rw [hcon, hl]
    by_cases hml : m ∈ l
    · rw [List.erase_append_left _ hml]
    · rw [List.erase_append_right _ hml, List.erase_of_not_mem hml,
        List.erase_of_not_mem (by simpa using Ne.symm hne)]
  | true, true, ⟨ht, hn⟩ =>
    refine ⟨by simp [Channel.cancel, ht], ?_⟩
    rw [hcon]
    exact hrest hn

/-- Sent and not received, the last message is on the channel. -/
theorem exists_last (h : Closing fin true false c) : ∃ d ∈ c.contents, fin d = true := by
  obtain ⟨l, d, hl, hd, -⟩ := h
  exact ⟨d, by simp [hl], hd⟩

/-- After the last message, a receiver that sees no message of a kind has none
of it left. -/
theorem none_left (h : Closing fin sent true c) (hk : c.iprobe kind = none) :
    ∀ m ∈ c.contents, kind m = false := by
  match sent, h with
  | true, ⟨ht, _⟩ =>
    rw [contents, ht, List.append_nil]
    exact iprobe_eq_none.mp hk

end Closing

end Channel
