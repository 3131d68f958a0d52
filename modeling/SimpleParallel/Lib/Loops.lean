import Mathlib.Data.Nat.Basic

/-!
# Loops

* `foldl_iff`: a loop whose steps only add to what holds of its state;
  `foldlM_append`: one that may fail, and appends to a list; `foldlM_ok`,
  `foldlM_error`: one of whose steps each fails always or never.
* `chunks max count` lists the iterations of

      for (sent = 0; sent < count; sent += max) use(sent, min(max, count - sent))

  as pairs of a start and a length. When using two adjoining ranges one after
  the other is the same as using their union, the loop uses `[0, count)` at once
  (`foldl_chunks`).
-/

namespace Loops

variable {σ α : Type*} {max count sent : Nat}

/-- What holds after a loop held before it or was added by one of its steps. -/
theorem foldl_iff {step : σ → α → σ} {P : σ → Prop} {Q : α → Prop} {l : List α}
    (h : ∀ s, ∀ a ∈ l, P (step s a) ↔ P s ∨ Q a) (s : σ) :
    P (l.foldl step s) ↔ P s ∨ ∃ a ∈ l, Q a := by
  induction l generalizing s with
  | nil => simp
  | cons a l ih =>
    have hrest : ∀ s, ∀ b ∈ l, P (step s b) ↔ P s ∨ Q b :=
      fun s b hb => h s b (List.mem_cons_of_mem _ hb)
    rw [List.foldl_cons, ih hrest, h s a List.mem_cons_self, or_assoc]
    simp only [List.mem_cons, exists_eq_or_imp]

/-- A loop whose steps append to its result, if they succeed. -/
theorem foldlM_append {ε β : Type*} {step : List β → α → Except ε (List β)} {g : α → List β}
    {l : List α} (h : ∀ a ∈ l, ∀ acc r, step acc a = .ok r → r = acc ++ g a) {acc r : List β}
    (hr : l.foldlM step acc = .ok r) : r = acc ++ l.flatMap g := by
  induction l generalizing acc with
  | nil =>
    cases hr
    exact (List.append_nil _).symm
  | cons a l ih =>
    rw [List.foldlM_cons] at hr
    cases hstep : step acc a with
    | error e =>
      rw [hstep] at hr
      cases hr
    | ok acc' =>
      rw [hstep] at hr
      rw [ih (fun b hb => h b (List.mem_cons_of_mem _ hb)) hr,
        h a List.mem_cons_self acc acc' hstep, List.flatMap_cons, List.append_assoc]

/-- A loop none of whose steps fails. -/
theorem foldlM_ok {ε : Type*} {step : σ → α → Except ε σ} {f : σ → α → σ} {l : List α}
    (h : ∀ a ∈ l, ∀ s, step s a = .ok (f s a)) (s : σ) : l.foldlM step s = .ok (l.foldl f s) := by
  induction l generalizing s with
  | nil => rfl
  | cons a l ih =>
    rw [List.foldlM_cons, h a List.mem_cons_self s]
    exact ih (fun b hb => h b (List.mem_cons_of_mem _ hb)) _

/-- A loop one of whose steps fails. -/
theorem foldlM_error {ε : Type*} {step : σ → α → Except ε σ} {l : List α} {a : α} (ha : a ∈ l)
    (h : ∀ s, ∃ e, step s a = .error e) (s : σ) : ∃ e, l.foldlM step s = .error e := by
  induction l generalizing s with
  | nil => cases ha
  | cons b l ih =>
    rw [List.foldlM_cons]
    cases hstep : step s b with
    | error e => exact ⟨e, rfl⟩
    | ok s' =>
      rcases List.mem_cons.mp ha with rfl | ha
      · obtain ⟨e, he⟩ := h s
        rw [he] at hstep
        cases hstep
      · exact ih ha s'

/-- The iterations from `sent` on. -/
def chunksFrom (max sent count : Nat) : List (Nat × Nat) :=
  if sent < count ∧ 0 < max then
    (sent, min max (count - sent)) :: chunksFrom max (sent + max) count
  else []
  termination_by count - sent

def chunks (max count : Nat) : List (Nat × Nat) := chunksFrom max 0 count

theorem chunksFrom_cons (h : sent < count) (hmax : 0 < max) :
    chunksFrom max sent count =
      (sent, min max (count - sent)) :: chunksFrom max (sent + max) count := by
  rw [chunksFrom, if_pos ⟨h, hmax⟩]

theorem chunksFrom_nil (h : count ≤ sent) : chunksFrom max sent count = [] := by
  rw [chunksFrom, if_neg (by omega)]

/-- Every chunk is non-empty, no longer than `max`, and inside the range. -/
theorem chunk_bounds (hmax : 0 < max) {c : Nat × Nat} (h : c ∈ chunksFrom max sent count) :
    sent ≤ c.1 ∧ 0 < c.2 ∧ c.2 ≤ max ∧ c.1 + c.2 ≤ count := by
  induction sent using chunksFrom.induct max count with
  | case1 sent hlt ih =>
    rw [chunksFrom_cons hlt.1 hmax, List.mem_cons] at h
    rcases h with rfl | h
    · simp only
      omega
    · obtain ⟨hge, hrest⟩ := ih h
      exact ⟨by omega, hrest⟩
  | case2 sent hnot =>
    rw [chunksFrom_nil (by omega)] at h
    cases h

/-- The chunks cover the range. -/
theorem exists_chunk (hmax : 0 < max) {x : Nat} (hlo : sent ≤ x) (hhi : x < count) :
    ∃ c ∈ chunksFrom max sent count, c.1 ≤ x ∧ x < c.1 + c.2 := by
  induction sent using chunksFrom.induct max count with
  | case1 sent hlt ih =>
    rw [chunksFrom_cons hlt.1 hmax]
    by_cases hx : x < sent + max
    · exact ⟨_, List.mem_cons_self, hlo, by simp only; omega⟩
    · obtain ⟨c, hc, hxc⟩ := ih (by omega)
      exact ⟨c, List.mem_cons_of_mem _ hc, hxc⟩
  | case2 sent hnot => omega

/-- A chunk begins after those before it. -/
theorem chunks_pairwise (hmax : 0 < max) :
    (chunksFrom max sent count).Pairwise fun c d => c.1 + c.2 ≤ d.1 := by
  induction sent using chunksFrom.induct max count with
  | case1 sent hlt ih =>
    rw [chunksFrom_cons hlt.1 hmax]
    refine List.Pairwise.cons (fun d hd => ?_) ih
    have hmin : min max (count - sent) ≤ max := Nat.min_le_left _ _
    exact Nat.le_trans (Nat.add_le_add_left hmin sent) (chunk_bounds hmax hd).1
  | case2 sent hnot =>
    rw [chunksFrom_nil (by omega)]
    exact List.Pairwise.nil

/-- When `max` divides the range, every chunk is full. -/
theorem chunk_full (hmax : 0 < max) (hs : max ∣ sent) (hc : max ∣ count) {c : Nat × Nat}
    (h : c ∈ chunksFrom max sent count) : c.1 + max ≤ count := by
  induction sent using chunksFrom.induct max count with
  | case1 sent hlt ih =>
    rw [chunksFrom_cons hlt.1 hmax, List.mem_cons] at h
    rcases h with rfl | h
    · have hle : max ≤ count - sent := Nat.le_of_dvd (by omega) (Nat.dvd_sub hc hs)
      simp only
      omega
    · exact ih (Nat.dvd_add hs (Nat.dvd_refl max)) h
  | case2 sent hnot =>
    rw [chunksFrom_nil (by omega)] at h
    cases h

/-- A loop whose uses add up does the whole range. -/
theorem foldl_chunksFrom (f : σ → Nat → Nat → σ) (hmax : 0 < max)
    (hadd : ∀ s a n k, f (f s a n) (a + n) k = f s a (n + k)) (s : σ) (hle : sent ≤ count) :
    (chunksFrom max sent count).foldl (fun s c => f s c.1 c.2) (f s 0 sent) = f s 0 count := by
  induction sent using chunksFrom.induct max count with
  | case1 sent hlt ih =>
    rw [chunksFrom_cons hlt.1 hmax, List.foldl_cons]
    have hone := hadd s 0 sent (min max (count - sent))
    rw [Nat.zero_add] at hone
    simp only [hone]
    by_cases hend : sent + max ≤ count
    · rw [Nat.min_eq_left (by omega)]
      exact ih hend
    · rw [Nat.min_eq_right (by omega), chunksFrom_nil (by omega), List.foldl_nil]
      congr 1
      omega
  | case2 sent hnot =>
    rw [chunksFrom_nil (by omega), List.foldl_nil]
    congr 1
    omega

theorem foldl_chunks (f : σ → Nat → Nat → σ) (hmax : 0 < max) (hzero : ∀ s, f s 0 0 = s)
    (hadd : ∀ s a n k, f (f s a n) (a + n) k = f s a (n + k)) (s : σ) :
    (chunks max count).foldl (fun s c => f s c.1 c.2) s = f s 0 count := by
  have := foldl_chunksFrom f hmax hadd s (Nat.zero_le count)
  rwa [hzero] at this

end Loops
