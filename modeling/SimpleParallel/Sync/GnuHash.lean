import SimpleParallel.Lib.Bytes
import SimpleParallel.Sync.FortranGlobals

/-!
# Counting symbols with a GNU hash table

A `DT_GNU_HASH` section does not hold the number of symbols. `get_sym_num_from_gnu_hash`
finds the bucket with the largest index and walks its chain to the end.

`GnuHashTable` is what such a section says: the hashed symbols, numbered from `symoffset` on
and grouped by their buckets. The memory that may be read is the header and the two arrays;
any other word reads as nothing.

* `lastBucket_eq`: the loop over the buckets finds their maximum.
* `GnuHashTable.start_last`: the largest bucket is that of the last group.
* `gnu_hash_count`: the walk ends behind the last symbol, and reads nothing else.
-/

namespace SimpleParallel.Sync

/-! ## The function -/

section

variable (read : UInt64 → Option UInt32)

/-- The loop over the buckets. -/
def lastBucket (nbuckets : UInt32) : Nat → UInt32 → UInt64 → UInt32 → Option UInt32
  | 0, _, _, _ => none
  | fuel + 1, i, bucketAddress, lastSymbol =>
    if i < nbuckets then do
      let bucket ← read bucketAddress
      lastBucket nbuckets fuel (i + 1) (bucketAddress + 4)
        (if lastSymbol < bucket then bucket else lastSymbol)
    else some lastSymbol

/-- The walk over a chain, up to the entry with the low bit. -/
def walkChain (symoffset : UInt32) (chainBaseAddress : UInt64) : Nat → UInt32 → Option UInt32
  | 0, _ => none
  | fuel + 1, lastSymbol => do
    let endBit ← read (chainBaseAddress + (lastSymbol - symoffset).toUInt64 * 4)
    if endBit &&& 1 ≠ 0 then some (lastSymbol + 1)
    else walkChain symoffset chainBaseAddress fuel (lastSymbol + 1)

/-- `get_sym_num_from_gnu_hash`. Nothing is returned when a word is read that may not be. -/
def getSymNumFromGnuHash (fuel : Nat) (gnuHashAddress : UInt64) : Option UInt32 := do
  let nbuckets ← read gnuHashAddress
  let symoffset ← read (gnuHashAddress + 4)
  let bloomSize ← read (gnuHashAddress + 8)
  let _bloomShift ← read (gnuHashAddress + 12)
  let bucketsAddress := gnuHashAddress + 16 + 8 * bloomSize.toUInt64
  let lastSymbol ← lastBucket read nbuckets fuel 0 bucketsAddress 0
  if lastSymbol < symoffset then some symoffset
  else walkChain read symoffset (bucketsAddress + 4 * nbuckets.toUInt64) fuel lastSymbol

end

/-! ## The section -/

/-- What a section describes. Hashed symbol `k` has the index `symoffset + k`. -/
structure GnuHashTable where
  nbuckets : UInt32
  symoffset : UInt32
  bloomSize : UInt32
  bloomShift : UInt32
  /-- the number of hashed symbols -/
  count : Nat
  bucketOf : Nat → Nat
  symoffset_pos : 1 ≤ symoffset
  total_lt : symoffset.toNat + count < 2 ^ 32
  bucketOf_lt : ∀ k < count, bucketOf k < nbuckets.toNat
  grouped : ∀ i j k, i ≤ j → j ≤ k → k < count → bucketOf i = bucketOf k →
    bucketOf j = bucketOf k

namespace GnuHashTable

variable (T : GnuHashTable)

/-- The first symbol of its bucket. -/
def IsFirst (k : Nat) : Prop :=
  k < T.count ∧ ∀ j < T.count, T.bucketOf j = T.bucketOf k → k ≤ j

/-- The last symbol of its bucket. -/
def IsLast (k : Nat) : Prop := k + 1 < T.count → T.bucketOf (k + 1) ≠ T.bucketOf k

instance (k : Nat) : Decidable (T.IsFirst k) := inferInstanceAs (Decidable (_ ∧ ∀ j < T.count, _))

instance (k : Nat) : Decidable (T.IsLast k) := inferInstanceAs (Decidable (_ → _))

/-- Where the bucket array begins, behind the header and the bloom filter. -/
def buckets (addr : UInt64) : Nat := addr.toNat + 16 + 8 * T.bloomSize.toNat

/-- Where the chain array begins. -/
def chains (addr : UInt64) : Nat := T.buckets addr + 4 * T.nbuckets.toNat

/-- The address of a word of the header, of a bucket or of a chain entry. -/
def InArrays (addr a : UInt64) : Prop :=
  (∃ i < 4, a.toNat = addr.toNat + 4 * i) ∨
    (∃ b < T.nbuckets.toNat, a.toNat = T.buckets addr + 4 * b) ∨
    ∃ k < T.count, a.toNat = T.chains addr + 4 * k

instance (addr a : UInt64) : Decidable (T.InArrays addr a) :=
  inferInstanceAs (Decidable (_ ∨ _ ∨ _))

/-- The words of the section, and no others. -/
def read (m : Mem) (addr a : UInt64) : Option UInt32 :=
  if T.InArrays addr a then some (.ofNat (m.load a.toNat 4)) else none

/-- The section is well-formed, and lies at `addr`. -/
structure At (m : Mem) (addr : UInt64) : Prop where
  fits : T.chains addr + 4 * T.count ≤ 2 ^ 64
  nbuckets : m.load addr.toNat 4 = T.nbuckets.toNat
  symoffset : m.load (addr.toNat + 4) 4 = T.symoffset.toNat
  bloomSize : m.load (addr.toNat + 8) 4 = T.bloomSize.toNat
  bloomShift : m.load (addr.toNat + 12) 4 = T.bloomShift.toNat
  bucket : ∀ k, T.IsFirst k →
    m.load (T.buckets addr + 4 * T.bucketOf k) 4 = T.symoffset.toNat + k
  empty : ∀ b < T.nbuckets.toNat, (∀ k < T.count, T.bucketOf k ≠ b) →
    m.load (T.buckets addr + 4 * b) 4 = 0
  chain : ∀ k < T.count, m.load (T.chains addr + 4 * k) 4 % 2 = 1 ↔ T.IsLast k

end GnuHashTable

/-! ## The loops -/

section

variable {read : UInt64 → Option UInt32} {base fuel : Nat} {word : Nat → UInt32}

/-- The largest of the buckets from `i` on and of what was found before. -/
theorem lastBucket_eq {nbuckets i : UInt32} (last : UInt32)
    (hread : ∀ b < nbuckets.toNat, read (.ofNat (base + 4 * b)) = some (word b))
    (hi : i ≤ nbuckets) (hfuel : nbuckets.toNat - i.toNat < fuel) :
    ∃ r, lastBucket read nbuckets fuel i (.ofNat (base + 4 * i.toNat)) last = some r ∧
      last ≤ r ∧ (∀ b, i.toNat ≤ b → b < nbuckets.toNat → word b ≤ r) ∧
      (r = last ∨ ∃ b < nbuckets.toNat, r = word b) := by
  induction fuel generalizing i last with
  | zero => exact absurd hfuel (Nat.not_lt_zero _)
  | succ fuel ih =>
    rw [lastBucket]
    by_cases hlt : i < nbuckets
    · have hlt' := UInt32.lt_iff_toNat_lt.mp hlt
      have hsucc : (i + 1).toNat = i.toNat + 1 := by
        have := nbuckets.toNat_lt
        rw [UInt32.toNat_add, UInt32.toNat_one]
        exact Nat.mod_eq_of_lt (by omega)
      have haddr : UInt64.ofNat (base + 4 * i.toNat) + 4 = .ofNat (base + 4 * (i + 1).toNat) := by
        rw [hsucc, Nat.mul_succ, ← Nat.add_assoc, UInt64.ofNat_add (base + 4 * i.toNat) 4]
        rfl
      -- the rest of the loop starts from the larger of the two
      obtain ⟨r, hr, hle, hmax, hfound⟩ :=
        ih (if last < word i.toNat then word i.toNat else last)
          (UInt32.le_iff_toNat_le.mpr (show (i + 1).toNat ≤ _ by omega)) (by omega)
      have hstep : last ≤ r ∧ word i.toNat ≤ r := by
        split at hle
        · next h => exact ⟨UInt32.le_trans (UInt32.le_of_lt h) hle, hle⟩
        · next h => exact ⟨hle, UInt32.le_trans (UInt32.not_lt.mp h) hle⟩
      refine ⟨r, ?_, hstep.1, fun b hb hb' => ?_, ?_⟩
      · rw [if_pos hlt, hread _ hlt', Option.bind_eq_bind, Option.bind_some, haddr]
        exact hr
      · rcases Nat.eq_or_lt_of_le hb with rfl | hb
        · exact hstep.2
        · exact hmax b (by omega) hb'
      · rcases hfound with hr | hr
        · split at hr
          · exact .inr ⟨_, hlt', hr⟩
          · exact .inl hr
        · exact .inr hr
    · rw [if_neg hlt]
      have hge := UInt32.le_iff_toNat_le.mp (UInt32.not_lt.mp hlt)
      exact ⟨last, rfl, UInt32.le_refl _, fun b hb hb' => by omega, .inl rfl⟩

/-- The walk ends with the first entry that has the low bit. -/
theorem walkChain_eq {symoffset : UInt32} {k last : Nat}
    (hread : ∀ j, k ≤ j → j ≤ last →
      read (.ofNat base + UInt32.toUInt64 (.ofNat j) * 4) = some (word j))
    (hk : k ≤ last)
    (hinner : ∀ j, k ≤ j → j < last → word j &&& 1 = 0) (hlast : word last &&& 1 ≠ 0)
    (hfuel : last - k < fuel) :
    walkChain read symoffset (.ofNat base) fuel (.ofNat (symoffset.toNat + k)) =
      some (.ofNat (symoffset.toNat + last + 1)) := by
  induction fuel generalizing k with
  | zero => exact absurd hfuel (Nat.not_lt_zero _)
  | succ fuel ih =>
    have hsub : UInt32.ofNat (symoffset.toNat + k) - symoffset = .ofNat k := by
      rw [UInt32.ofNat_add, UInt32.ofNat_toNat, UInt32.add_comm, UInt32.add_sub_cancel]
    have hnext : UInt32.ofNat (symoffset.toNat + k) + 1 = .ofNat (symoffset.toNat + (k + 1)) :=
      (UInt32.ofNat_add _ 1).symm
    rw [walkChain, hsub, hread k (Nat.le_refl k) hk, Option.bind_eq_bind, Option.bind_some, hnext]
    rcases Nat.eq_or_lt_of_le hk with rfl | hlt'
    · rw [if_pos hlast]
      rfl
    · -- the low bit is clear, and the walk goes on
      rw [if_neg (not_not.mpr (hinner k (Nat.le_refl k) hlt'))]
      exact ih (fun j hj => hread j (by omega)) hlt' (fun j hj => hinner j (by omega)) (by omega)

end

/-- The low bit of a word. -/
theorem and_one_eq_zero {n : Nat} : UInt32.ofNat n &&& 1 = 0 ↔ n % 2 = 0 := by
  rw [← UInt32.toNat_inj, UInt32.toNat_and, UInt32.toNat_ofNat', UInt32.toNat_one,
    UInt32.toNat_zero, Nat.and_one_is_mod, Nat.mod_mod_of_dvd n (by decide)]

/-! ## Groups -/

namespace GnuHashTable

variable {T : GnuHashTable} {m : Mem} {addr : UInt64} {k l : Nat}

theorem exists_first (h : k < T.count) : ∃ l, T.IsFirst l ∧ T.bucketOf l = T.bucketOf k := by
  induction k using Nat.strong_induction_on with
  | h k ih =>
    by_cases hfirst : ∀ j < T.count, T.bucketOf j = T.bucketOf k → k ≤ j
    · exact ⟨k, ⟨h, hfirst⟩, rfl⟩
    · push Not at hfirst
      obtain ⟨j, hj, heq, hlt⟩ := hfirst
      obtain ⟨l, hl, hl'⟩ := ih j hlt hj
      exact ⟨l, hl, hl'.trans heq⟩

/-- No bucket begins behind that of the last symbol. -/
theorem start_last (hk : T.IsFirst k) (hl : T.IsFirst l)
    (hlast : T.bucketOf l = T.bucketOf (T.count - 1)) : k ≤ l := by
  by_contra hlt
  have hcount := hk.1
  have hsame := T.grouped l k (T.count - 1) (by omega) (by omega) (by omega) hlast
  have := hk.2 l hl.1 (hlast.trans hsame.symm)
  omega

/-- From the first symbol of the last group on, only the last symbol ends a chain. -/
theorem isLast_iff (hlast : T.bucketOf l = T.bucketOf (T.count - 1))
    (hle : l ≤ k) (hk : k < T.count) : T.IsLast k ↔ k = T.count - 1 := by
  constructor
  · intro h
    by_contra hne
    -- the next symbol is still in the last group
    have hsame := T.grouped l k (T.count - 1) hle (by omega) (by omega) hlast
    have hnext := T.grouped l (k + 1) (T.count - 1) (by omega) (by omega) (by omega) hlast
    exact h (by omega) (hnext.trans hsame.symm)
  · intro h hnext
    omega

/-! ## Reading the section -/

theorem read_of_inArrays {a : UInt64} (h : T.InArrays addr a) :
    T.read m addr a = some (.ofNat (m.load a.toNat 4)) :=
  if_pos h

/-- A word of the header. -/
theorem At.read_header (h : T.At m addr) {i : Nat} (hi : i < 4) {w : UInt32}
    (hw : m.load (addr.toNat + 4 * i) 4 = w.toNat) :
    T.read m addr (addr + .ofNat (4 * i)) = some w := by
  have hfits := h.fits
  unfold chains buckets at hfits
  have haddr : (addr + .ofNat (4 * i)).toNat = addr.toNat + 4 * i := by
    rw [UInt64.toNat_add, UInt64.toNat_ofNat']
    show (_ + 4 * i % 2 ^ 64) % 2 ^ 64 = _
    omega
  rw [read_of_inArrays (.inl ⟨i, hi, haddr⟩), haddr, hw, UInt32.ofNat_toNat]

theorem At.read_bucket (h : T.At m addr) {b : Nat} (hb : b < T.nbuckets.toNat) :
    T.read m addr (.ofNat (T.buckets addr + 4 * b)) =
      some (.ofNat (m.load (T.buckets addr + 4 * b) 4)) := by
  have hfits := h.fits
  unfold chains at hfits
  have haddr : (UInt64.ofNat (T.buckets addr + 4 * b)).toNat = T.buckets addr + 4 * b :=
    UInt64.toNat_ofNat_of_lt' (show _ < 2 ^ 64 by omega)
  rw [read_of_inArrays (.inr (.inl ⟨b, hb, haddr⟩)), haddr]

theorem At.read_chain (h : T.At m addr) (hk : k < T.count) :
    T.read m addr (.ofNat (T.chains addr) + UInt32.toUInt64 (.ofNat k) * 4) =
      some (.ofNat (m.load (T.chains addr + 4 * k) 4)) := by
  have hfits := h.fits
  have htotal := T.total_lt
  have haddr : (UInt64.ofNat (T.chains addr) + UInt32.toUInt64 (.ofNat k) * 4).toNat =
      T.chains addr + 4 * k := by
    rw [UInt64.toNat_add, UInt64.toNat_mul, UInt32.toNat_toUInt64, UInt32.toNat_ofNat',
      UInt64.toNat_ofNat', Nat.mod_eq_of_lt (show k < 2 ^ 32 by omega)]
    show (_ % 2 ^ 64 + k * 4 % 2 ^ 64) % 2 ^ 64 = _
    omega
  rw [read_of_inArrays (.inr (.inr ⟨k, hk, haddr⟩)), haddr]

/-- The word of a bucket. -/
def bucketWord (T : GnuHashTable) (m : Mem) (addr : UInt64) (b : Nat) : UInt32 :=
  .ofNat (m.load (T.buckets addr + 4 * b) 4)

theorem At.toNat_bucketWord (h : T.At m addr) (hk : T.IsFirst k) :
    (T.bucketWord m addr (T.bucketOf k)).toNat = T.symoffset.toNat + k := by
  have htotal := T.total_lt
  have hlt := hk.1
  rw [bucketWord, h.bucket k hk]
  exact UInt32.toNat_ofNat_of_lt' (show _ < 2 ^ 32 by omega)

/-- The loop over the buckets finds the first symbol of the last group, if there is one. -/
theorem At.lastBucket (h : T.At m addr) {fuel : Nat} (hfuel : T.nbuckets.toNat < fuel) :
    ∃ r, Sync.lastBucket (T.read m addr) T.nbuckets fuel 0 (.ofNat (T.buckets addr)) 0 = some r ∧
      (T.count = 0 → r = 0) ∧ ∀ l, T.IsFirst l → T.bucketOf l = T.bucketOf (T.count - 1) →
        r.toNat = T.symoffset.toNat + l := by
  have hzero : T.nbuckets.toNat - (0 : UInt32).toNat < fuel :=
    Nat.lt_of_le_of_lt (Nat.sub_le _ _) hfuel
  obtain ⟨r, hr, -, hmax, hfound⟩ :=
    lastBucket_eq 0 (fun b hb => h.read_bucket hb) UInt32.zero_le hzero
  -- a bucket is empty or has a first symbol
  have hword : ∀ b < T.nbuckets.toNat, T.bucketWord m addr b = 0 ∨
      ∃ k, T.IsFirst k ∧ T.bucketOf k = b := by
    intro b hb
    by_cases hempty : ∀ k < T.count, T.bucketOf k ≠ b
    · left
      rw [bucketWord, h.empty b hb hempty]
      rfl
    · push Not at hempty
      obtain ⟨k, hk, hkb⟩ := hempty
      obtain ⟨l, hl, hlk⟩ := exists_first hk
      exact .inr ⟨l, hl, hlk.trans hkb⟩
  refine ⟨r, hr, fun hcount => ?_, fun l hl hlast => ?_⟩
  · rcases hfound with hr | ⟨b, hb, hr⟩
    · exact hr
    · rcases hword b hb with hzero | ⟨k, hk, -⟩
      · exact hr.trans hzero
      · exact absurd hk.1 (by omega)
  · have hge : T.bucketWord m addr (T.bucketOf l) ≤ r :=
      hmax _ (Nat.zero_le _) (T.bucketOf_lt l hl.1)
    rw [UInt32.le_iff_toNat_le, h.toNat_bucketWord hl] at hge
    have hpos := UInt32.le_iff_toNat_le.mp T.symoffset_pos
    have hle : r.toNat ≤ T.symoffset.toNat + l := by
      -- what was found is 0, or the beginning of a group, and none begins later
      rcases hfound with hr | ⟨b, hb, hr⟩
      · rw [hr]
        exact Nat.zero_le _
      · rcases hword b hb with hzero | ⟨k, hk, rfl⟩
        · rw [hr.trans hzero]
          exact Nat.zero_le _
        · have hr' : r.toNat = _ := (congrArg UInt32.toNat hr).trans (h.toNat_bucketWord hk)
          have := start_last hk hl hlast
          omega
    omega

/-- The walk over the chain of the last group. -/
theorem At.walkChain (h : T.At m addr) {fuel : Nat} (hl : T.IsFirst l)
    (hlast : T.bucketOf l = T.bucketOf (T.count - 1)) (hfuel : T.count < fuel) :
    Sync.walkChain (T.read m addr) T.symoffset (.ofNat (T.chains addr)) fuel
      (.ofNat (T.symoffset.toNat + l)) = some (.ofNat (T.symoffset.toNat + T.count)) := by
  have hcount := hl.1
  have hword : ∀ j, l ≤ j → j ≤ T.count - 1 → (UInt32.ofNat (m.load (T.chains addr + 4 * j) 4) &&& 1
      = 0 ↔ j ≠ T.count - 1) := by
    intro j hj hj'
    have hlt : j < T.count := by omega
    rw [and_one_eq_zero, ← not_iff_not, not_not, ← isLast_iff hlast hj hlt, ← h.chain j hlt]
    omega
  have htotal : T.symoffset.toNat + T.count = T.symoffset.toNat + (T.count - 1) + 1 := by omega
  rw [htotal]
  refine walkChain_eq (fun j _ hj => h.read_chain (by omega)) (by omega) (fun j hj hj' => ?_) ?_
    (by omega)
  · exact (hword j hj (Nat.le_of_lt hj')).mpr (Nat.ne_of_lt hj')
  · exact fun hzero => (hword _ (by omega) (Nat.le_refl _)).mp hzero rfl

/-- Where the function looks for the buckets and the chains. -/
theorem bucketsAddress_eq :
    addr + 16 + 8 * T.bloomSize.toUInt64 = .ofNat (T.buckets addr) := by
  rw [← UInt64.toNat_inj, UInt64.toNat_add, UInt64.toNat_add, UInt64.toNat_mul,
    UInt32.toNat_toUInt64, UInt64.toNat_ofNat', buckets]
  show ((addr.toNat + 16) % 2 ^ 64 + 8 * T.bloomSize.toNat % 2 ^ 64) % 2 ^ 64 = _
  omega

theorem chainBaseAddress_eq :
    UInt64.ofNat (T.buckets addr) + 4 * T.nbuckets.toUInt64 = .ofNat (T.chains addr) := by
  rw [← UInt64.toNat_inj, UInt64.toNat_add, UInt64.toNat_mul, UInt32.toNat_toUInt64,
    UInt64.toNat_ofNat', UInt64.toNat_ofNat', chains]
  show (_ + 4 * T.nbuckets.toNat % 2 ^ 64) % 2 ^ 64 = _
  omega

/-- Header, buckets, and the chain of the last group. -/
theorem At.getSymNum (h : T.At m addr) {fuel : Nat} (hfuel : T.nbuckets.toNat + T.count < fuel) :
    getSymNumFromGnuHash (T.read m addr) fuel addr =
      some (.ofNat (T.symoffset.toNat + T.count)) := by
  obtain ⟨r, hr, hzero, hlast⟩ := h.lastBucket (by omega : T.nbuckets.toNat < fuel)
  have hnbuckets : T.read m addr addr = some T.nbuckets := by
    have := h.read_header (i := 0) (by decide) h.nbuckets
    rwa [Nat.mul_zero, show UInt64.ofNat 0 = 0 from rfl, UInt64.add_zero] at this
  have hsymoffset : T.read m addr (addr + 4) = some T.symoffset :=
    h.read_header (i := 1) (by decide) h.symoffset
  have hbloomSize : T.read m addr (addr + 8) = some T.bloomSize :=
    h.read_header (i := 2) (by decide) h.bloomSize
  have hbloomShift : T.read m addr (addr + 12) = some T.bloomShift :=
    h.read_header (i := 3) (by decide) h.bloomShift
  rw [getSymNumFromGnuHash, hnbuckets, hsymoffset, hbloomSize, hbloomShift]
  simp only [Option.bind_eq_bind, Option.bind_some]
  rw [bucketsAddress_eq, chainBaseAddress_eq, hr, Option.bind_some]
  rcases Nat.eq_zero_or_pos T.count with hcount | hcount
  · -- no hashed symbol: every bucket is empty
    have hpos := T.symoffset_pos
    rw [if_pos, hcount, Nat.add_zero, UInt32.ofNat_toNat]
    rw [hzero hcount]
    exact UInt32.lt_of_lt_of_le (by decide) hpos
  · obtain ⟨l, hl, hl'⟩ := exists_first (T := T) (k := T.count - 1) (by omega)
    have hrl := hlast l hl hl'
    rw [if_neg, ← h.walkChain hl hl' (by omega : T.count < fuel), ← hrl, UInt32.ofNat_toNat]
    rw [UInt32.lt_iff_toNat_lt]
    omega

theorem toNat_total (T : GnuHashTable) :
    (UInt32.ofNat (T.symoffset.toNat + T.count)).toNat = T.symoffset.toNat + T.count :=
  UInt32.toNat_ofNat_of_lt' T.total_lt

/-- The count that `get_sym_cnt` takes from such a section passes its assertion. -/
theorem At.getSymCnt {L : Libraries} {segment : DynamicSegment} {fuel : Nat} (h : T.At m addr)
    (hfuel : T.nbuckets.toNat + T.count < fuel) (hhash : segment.hash = none)
    (hgnu : segment.gnuHash =
      (getSymNumFromGnuHash (T.read m addr) fuel addr).map UInt32.toNat) :
    Sync.getSymCnt L segment = .ok (T.symoffset.toNat + T.count) := by
  have hpos := UInt32.le_iff_toNat_le.mp T.symoffset_pos
  rw [h.getSymNum hfuel, Option.map_some, T.toNat_total] at hgnu
  rw [Sync.getSymCnt, hhash, hgnu]
  refine if_neg fun hzero => ?_
  have hsum := hzero.2
  rw [UInt32.toNat_one] at hpos
  omega

end GnuHashTable

/-- With a well-formed section the function ends, reads only the header and the arrays, and
returns the number of all symbols. -/
theorem gnu_hash_count (T : GnuHashTable) (m : Mem) (addr : UInt64) (h : T.At m addr) :
    ∃ n, ∀ fuel ≥ n, ∃ cnt, getSymNumFromGnuHash (T.read m addr) fuel addr = some cnt ∧
      cnt.toNat = T.symoffset.toNat + T.count :=
  ⟨T.nbuckets.toNat + T.count + 1, fun _ hfuel => ⟨_, h.getSymNum hfuel, T.toNat_total⟩⟩

/-- Two buckets, the second of which comes first, and three symbols. -/
def smallTable : GnuHashTable where
  nbuckets := 2
  symoffset := 1
  bloomSize := 1
  bloomShift := 5
  count := 3
  bucketOf k := if k < 2 then 1 else 0
  symoffset_pos := by decide
  total_lt := by decide
  bucketOf_lt := by decide
  grouped i j k hij hjk hk h := by
    split at h <;> split at h <;> split <;> omega

/-- The words of the table, from 4096 on. -/
def smallTableMem : Mem := fun x =>
  Mem.byteAt ([2, 1, 1, 5, 0, 0, 3, 1, 10, 11, 13].getD ((x - 4096) / 4) 0) ((x - 4096) % 4)

theorem smallTable_at : smallTable.At smallTableMem 4096 where
  fits := by decide
  nbuckets := by decide
  symoffset := by decide
  bloomSize := by decide
  bloomShift := by decide
  bucket k hk := by
    have hall : ∀ k < 3, smallTable.IsFirst k → smallTableMem.load (smallTable.buckets 4096 +
        4 * smallTable.bucketOf k) 4 = smallTable.symoffset.toNat + k := by decide
    exact hall k hk.1 hk
  empty := by decide
  chain := by decide

theorem gnu_hash_count_small : ∃ n, ∀ fuel ≥ n, ∃ cnt,
    getSymNumFromGnuHash (smallTable.read smallTableMem 4096) fuel 4096 = some cnt ∧
      cnt.toNat = 4 :=
  gnu_hash_count smallTable smallTableMem 4096 smallTable_at

example : getSymNumFromGnuHash (smallTable.read smallTableMem 4096) 6 4096 = some 4 := by decide

end SimpleParallel.Sync
