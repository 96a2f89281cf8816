import RedisCounter.Dict.Sound
import RedisCounter.Lib.ReverseCursor

/-!
# One call of `dictScan`

A call returns the entries of one bucket of the smaller table and of its expansions in the larger
one, and the next cursor. In the order of the reversed bits it covers everything from the cursor on
to the start of the next block of the smaller table, whatever tables there are; a cursor that started
a block also starts the next, and then nothing before it is returned.
-/

namespace RedisCounter

open List Buckets ReverseCursor

variable {K V : Type}

/-! ## The code -/

/-- One round of `rev`: exchange neighbouring blocks of `s` bits. -/
def revStage (s mask v : UInt64) : UInt64 := ((v >>> s) &&& mask) ||| ((v <<< s) &&& ~~~mask)

/-- The loop of `rev`, which ends after six rounds. -/
def revLoop : ℕ → UInt64 → UInt64 → UInt64 → UInt64
  | 0, _, _, v => v
  | fuel + 1, s, mask, v =>
    let s := s >>> 1
    if s > 0 then
      let mask := mask ^^^ (mask <<< s)
      revLoop fuel s mask (revStage s mask v)
    else v

/-- `rev`. -/
def rev (v : UInt64) : UInt64 := revLoop 7 (8 * 8) (~~~0) v

/-- `v |= ~m; v = rev(v); v++; v = rev(v);` -/
def dictScanNext (m v : UInt64) : UInt64 := rev (rev (v ||| ~~~m) + 1)

/-- The entries at a cursor. -/
def dictScanBucket (t : Dictht K V) (m v : UInt64) : Except Fault (List (DictEntry K V)) :=
  match t.table[(v &&& m).toNat]? with
  | none => throw .tableBounds
  | some chain => pure chain

/-- The loop over the expansions of the cursor in the larger table. -/
def dictScanLoop (t1 : Dictht K V) (m0 m1 : UInt64) :
    ℕ → UInt64 → Except Fault (UInt64 × List (DictEntry K V))
  | 0, v => pure (v, [])
  | fuel + 1, v => do
    let out ← dictScanBucket t1 m1 v
    let v := dictScanNext m1 v
    if v &&& (m0 ^^^ m1) ≠ 0 then
      let (v, rest) ← dictScanLoop t1 m0 m1 fuel v
      pure (v, out ++ rest)
    else pure (v, out)

/-- `dictScan`: the next cursor, and the entries `fn` is called with. There are no more expansions
than buckets in the larger table. -/
def dictScan (d : Dict K V) (v : UInt64) : Except Fault (UInt64 × List (DictEntry K V)) :=
  if dictSize d = 0 then pure (0, [])
  else if !dictIsRehashing d then do
    let m0 := UInt64.ofNat d.ht0.sizemask
    let out ← dictScanBucket d.ht0 m0 v
    pure (dictScanNext m0 v, out)
  else do
    -- `t0` is the smaller table
    let (t0, t1) := if d.ht0.size > d.ht1.size then (d.ht1, d.ht0) else (d.ht0, d.ht1)
    let m0 := UInt64.ofNat t0.sizemask
    let m1 := UInt64.ofNat t1.sizemask
    let out ← dictScanBucket t0 m0 v
    let (v, rest) ← dictScanLoop t1 m0 m1 t1.size v
    pure (v, out ++ rest)

/-! ## Reversing the bits -/

/-- The rounds of `rev`, with the masks it computes. -/
def revStages : List (ℕ × UInt64) :=
  [(32, 0x00000000FFFFFFFF), (16, 0x0000FFFF0000FFFF), (8, 0x00FF00FF00FF00FF),
    (4, 0x0F0F0F0F0F0F0F0F), (2, 0x3333333333333333), (1, 0x5555555555555555)]

theorem rev_eq_foldl (v : UInt64) :
    rev v = revStages.foldl (fun v p => revStage (UInt64.ofNat p.1) p.2 v) v := rfl

theorem getLsbD_revStage (v m : UInt64) {s i : ℕ} (hs : s < 64) (hi : i < 64)
    (hm : m.toBitVec.getLsbD i = decide (i / s % 2 = 0)) :
    (revStage (UInt64.ofNat s) m v).toBitVec.getLsbD i = v.toBitVec.getLsbD (swapAt s i) := by
  have h64 : ((UInt64.ofNat s).toBitVec % 64).toNat = s := by
    simp
    omega
  rw [← getLsbD_swap m.toBitVec v.toBitVec hi hm]
  simp only [revStage, UInt64.toBitVec_or, UInt64.toBitVec_and, UInt64.toBitVec_shiftRight,
    UInt64.toBitVec_shiftLeft, UInt64.toBitVec_not, BitVec.ushiftRight_eq', BitVec.shiftLeft_eq', h64]

/-- Rounds compose from the last to the first. -/
theorem getLsbD_foldl_revStage {stages : List (ℕ × UInt64)}
    (h : ∀ p ∈ stages, p.1 < 64 ∧ ∀ i < 64, p.2.toBitVec.getLsbD i = decide (i / p.1 % 2 = 0) ∧
      swapAt p.1 i < 64) (v : UInt64) {i : ℕ} (hi : i < 64) :
    (stages.foldr (fun p i => swapAt p.1 i) i < 64) ∧
      (stages.foldl (fun v p => revStage (UInt64.ofNat p.1) p.2 v) v).toBitVec.getLsbD i
        = v.toBitVec.getLsbD (stages.foldr (fun p i => swapAt p.1 i) i) := by
  induction stages generalizing v with
  | nil => exact ⟨hi, rfl⟩
  | cons p stages ih =>
    obtain ⟨hp, hstages⟩ := forall_mem_cons.1 h
    obtain ⟨hlt, hbit⟩ := ih hstages (revStage (UInt64.ofNat p.1) p.2 v)
    obtain ⟨hm, hlt'⟩ := hp.2 _ hlt
    exact ⟨hlt', hbit.trans (getLsbD_revStage v p.2 hp.1 hlt hm)⟩

/-- `rev` reverses the bits. -/
theorem rev_toBitVec (v : UInt64) : (rev v).toBitVec = v.toBitVec.reverse := by
  have hstages : ∀ p ∈ revStages, p.1 < 64 ∧ ∀ i < 64,
      p.2.toBitVec.getLsbD i = decide (i / p.1 % 2 = 0) ∧ swapAt p.1 i < 64 := by decide +kernel
  have hreverse : ∀ i < 64, revStages.foldr (fun p i => swapAt p.1 i) i = 64 - 1 - i := by
    decide +kernel
  apply BitVec.eq_of_getLsbD_eq
  intro i hi
  rw [rev_eq_foldl, (getLsbD_foldl_revStage hstages v hi).2, hreverse i hi, BitVec.getLsbD_reverse,
    BitVec.getMsbD_eq_getLsbD]
  simp [hi]

/-! ## Masks and buckets -/

/-- The place of a cursor, or of a hash, in the order of the scan. -/
def scanRank (v : UInt64) : ℕ := rank v.toBitVec

theorem scanRank_lt (v : UInt64) : scanRank v < 2 ^ 64 := rank_lt _

theorem scanRank_eq_zero_iff {v : UInt64} : scanRank v = 0 ↔ v = 0 := by
  rw [scanRank, rank_eq_zero_iff, ← UInt64.toBitVec_inj]
  rfl

theorem dictScanNext_toBitVec {m : UInt64} {k : ℕ} (hm : m.toBitVec = lowMask 64 k) (v : UInt64) :
    (dictScanNext m v).toBitVec = next k v.toBitVec := by
  rw [dictScanNext, rev_toBitVec, UInt64.toBitVec_add, rev_toBitVec, UInt64.toBitVec_or,
    UInt64.toBitVec_not, hm]
  rfl

/-- The mask of a table of `2 ^ k` buckets keeps `k` bits. -/
structure Dictht.Masked (T : DictType K) (ht : Dictht K V) (k : ℕ) : Prop where
  inv : ht.Inv T
  le : k ≤ 64
  size : ht.size = 2 ^ k
  toNat_mask : (UInt64.ofNat ht.sizemask).toNat = ht.sizemask
  toBitVec_mask : (UInt64.ofNat ht.sizemask).toBitVec = lowMask 64 k

variable {T : DictType K}

theorem Dictht.Inv.exists_masked {ht : Dictht K V} (h : ht.Inv T) (hs : ht.size ≠ 0)
    (hfit : ht.size ≤ 2 ^ 64) : ∃ k, ht.Masked T k := by
  obtain ⟨k, -, hk⟩ := h.size_pow hs
  have hmask : ht.sizemask = 2 ^ k - 1 := by rw [h.sizemask hs, hk]
  refine ⟨k, h, (Nat.pow_le_pow_iff_right Nat.one_lt_two).1 (hk ▸ hfit), hk, ?_, ?_⟩
  · apply UInt64.toNat_ofNat_of_lt'
    have : UInt64.size = 2 ^ 64 := rfl
    omega
  · rw [hmask]
    rfl

/-- The bucket at a cursor holds the entries of the cursor's block. -/
theorem Dictht.Masked.dictScanBucket_eq {ht : Dictht K V} {k : ℕ} (h : ht.Masked T k) (v : UInt64) :
    dictScanBucket ht (UInt64.ofNat ht.sizemask) v = .ok (ht.entries.filter fun he =>
      scanRank (T.hashFunction he.1) / 2 ^ (64 - k) = scanRank v / 2 ^ (64 - k)) := by
  have hs : ht.size ≠ 0 := by
    rw [h.size]
    exact (Nat.two_pow_pos k).ne'
  have hidx : (v &&& UInt64.ofNat ht.sizemask).toNat < ht.table.length := by
    rw [UInt64.toNat_and, h.toNat_mask, h.inv.sizemask hs, h.inv.length, h.size,
      Nat.and_two_pow_sub_one_eq_mod]
    exact Nat.mod_lt _ (Nat.two_pow_pos k)
  have hget := getElem?_eq_getElem hidx
  rw [dictScanBucket, hget]
  refine congrArg Except.ok ((h.inv.placed.filter_flatten hget).symm.trans ?_)
  apply filter_congr
  intro he _
  rw [decide_eq_decide, Dictht.index, scanRank, scanRank, ← and_lowMask_eq_iff h.le, ← h.toBitVec_mask,
    ← UInt64.toBitVec_and, ← UInt64.toBitVec_and, UInt64.toBitVec_inj, ← UInt64.toNat_inj,
    UInt64.toNat_and (T.hashFunction he.1), h.toNat_mask]

/-! ## The expansions of a cursor -/

/-- The entries from the place `lo` on, before `hi`. -/
def Dictht.between (T : DictType K) (ht : Dictht K V) (lo hi : ℕ) : List (DictEntry K V) :=
  ht.entries.filter fun he => lo ≤ scanRank (T.hashFunction he.1) ∧
    scanRank (T.hashFunction he.1) < hi

/-- The start of the next block of `2 ^ a` places. -/
def nextBlock (a r : ℕ) : ℕ := (r / 2 ^ a + 1) * 2 ^ a

theorem lt_nextBlock (a r : ℕ) : r < nextBlock a r :=
  Nat.lt_mul_of_div_lt (Nat.lt_succ_self _) (Nat.two_pow_pos a)

/-- One block. -/
theorem div_eq_div_iff_between {a r x : ℕ} :
    x / 2 ^ a = r / 2 ^ a ↔ r / 2 ^ a * 2 ^ a ≤ x ∧ x < nextBlock a r := by
  rw [nextBlock, ← Nat.le_div_iff_mul_le (Nat.two_pow_pos a), ← Nat.div_lt_iff_lt_mul (Nat.two_pow_pos a)]
  omega

/-- One block and those behind it. -/
theorem Dictht.between_append (ht : Dictht K V) {lo mid hi : ℕ} (hlo : lo ≤ mid) (hhi : mid ≤ hi) :
    ht.between T lo mid ++ ht.between T mid hi ~ ht.between T lo hi := by
  refine (filter_append_filter_perm fun he h1 h2 => ?_).trans (.of_eq (filter_congr fun he _ => ?_))
  · omega
  · rw [decide_eq_decide]
    omega

/-- The loop emits the entries of the larger table from the cursor's block on to the end of the
smaller table's block, whose next one it leaves as the cursor. -/
theorem Dictht.Masked.dictScanLoop_spec {t1 : Dictht K V} {m0 : UInt64} {k0 k1 : ℕ}
    (h1 : t1.Masked T k1) (hk : k0 ≤ k1) (hm0 : m0.toBitVec = lowMask 64 k0) (fuel : ℕ) (v : UInt64)
    (hfuel : nextBlock (64 - k0) (scanRank v)
      ≤ (scanRank v / 2 ^ (64 - k1) + fuel) * 2 ^ (64 - k1)) :
    ∃ v' out, dictScanLoop t1 m0 (UInt64.ofNat t1.sizemask) fuel v = .ok (v', out) ∧
      scanRank v' = nextBlock (64 - k0) (scanRank v) % 2 ^ 64 ∧
      out ~ t1.between T (scanRank v / 2 ^ (64 - k1) * 2 ^ (64 - k1))
        (nextBlock (64 - k0) (scanRank v)) := by
  induction fuel generalizing v with
  | zero =>
    -- the next block starts above the cursor
    have hlt := lt_nextBlock (64 - k0) (scanRank v)
    have hle := Nat.div_mul_le_self (scanRank v) (2 ^ (64 - k1))
    rw [Nat.add_zero] at hfuel
    omega
  | succ fuel ih =>
    have hbucket := h1.dictScanBucket_eq v
    have hnext : scanRank (dictScanNext (UInt64.ofNat t1.sizemask) v)
        = nextBlock (64 - k1) (scanRank v) % 2 ^ 64 := by
      rw [scanRank, dictScanNext_toBitVec h1.toBitVec_mask]
      exact rank_next h1.le _
    have hout : t1.entries.filter (fun he =>
          scanRank (T.hashFunction he.1) / 2 ^ (64 - k1) = scanRank v / 2 ^ (64 - k1))
        = t1.between T (scanRank v / 2 ^ (64 - k1) * 2 ^ (64 - k1))
          (nextBlock (64 - k1) (scanRank v)) := by
      rw [between]
      congr 1
      funext he
      exact decide_eq_decide.2 div_eq_div_iff_between
    have hend : dictScanNext (UInt64.ofNat t1.sizemask) v &&& (m0 ^^^ UInt64.ofNat t1.sizemask) = 0 ↔
        nextBlock (64 - k1) (scanRank v) = nextBlock (64 - k0) (scanRank v) := by
      rw [← UInt64.toBitVec_inj, UInt64.toBitVec_and, UInt64.toBitVec_xor,
        dictScanNext_toBitVec h1.toBitVec_mask, hm0, h1.toBitVec_mask]
      exact next_and_xor_eq_zero_iff hk h1.le _
    simp only [dictScanLoop, hbucket, bind, Except.bind, ne_eq, hend]
    rw [hout]
    by_cases hdone : nextBlock (64 - k1) (scanRank v) = nextBlock (64 - k0) (scanRank v)
    · rw [if_neg (by simpa using hdone), ← hdone]
      exact ⟨_, _, rfl, hnext, Perm.refl _⟩
    · -- inside the block of the smaller table: the cursor has not wrapped
      have hlt : nextBlock (64 - k1) (scanRank v) < nextBlock (64 - k0) (scanRank v) :=
        lt_of_le_of_ne (next_block_le_next_block hk h1.le _) hdone
      have hle : nextBlock (64 - k0) (scanRank v) ≤ 2 ^ 64 :=
        (next_block_le (hk.trans h1.le) v.toBitVec).2
      rw [Nat.mod_eq_of_lt (hlt.trans_le hle)] at hnext
      have hgt := lt_nextBlock (64 - k1) (scanRank v)
      have hblock0 : scanRank (dictScanNext (UInt64.ofNat t1.sizemask) v) / 2 ^ (64 - k0)
          = scanRank v / 2 ^ (64 - k0) := by
        rw [div_eq_div_iff_between, hnext]
        have := Nat.div_mul_le_self (scanRank v) (2 ^ (64 - k0))
        omega
      have hsame : nextBlock (64 - k0) (scanRank (dictScanNext (UInt64.ofNat t1.sizemask) v))
          = nextBlock (64 - k0) (scanRank v) := by
        rw [nextBlock, hblock0, nextBlock]
      have hblock1 : scanRank (dictScanNext (UInt64.ofNat t1.sizemask) v) / 2 ^ (64 - k1)
          = scanRank v / 2 ^ (64 - k1) + 1 := by
        rw [hnext, nextBlock, Nat.mul_div_cancel _ (Nat.two_pow_pos _)]
      obtain ⟨v', out, hloop, hv', hperm⟩ := ih _ (by
        rw [hsame, hblock1]
        refine hfuel.trans (Nat.le_of_eq ?_)
        congr 1
        omega)
      rw [if_pos (by simpa using hdone), hloop]
      rw [hsame] at hv' hperm
      rw [hblock1] at hperm
      refine ⟨v', _, rfl, hv', (hperm.append_left _).trans (t1.between_append ?_ hlt.le)⟩
      exact (Nat.div_mul_le_self _ _).trans hgt.le

/-! ## One call -/

namespace Dict

variable {d : Dict K V}

/-- The entries of both tables from the place `lo` on, before `hi`. -/
def between (T : DictType K) (d : Dict K V) (lo hi : ℕ) : List (DictEntry K V) :=
  d.entries.filter fun he => lo ≤ scanRank (T.hashFunction he.1) ∧
    scanRank (T.hashFunction he.1) < hi

theorem mem_between {lo hi : ℕ} {he : DictEntry K V} : he ∈ d.between T lo hi ↔
    he ∈ d.entries ∧ lo ≤ scanRank (T.hashFunction he.1) ∧ scanRank (T.hashFunction he.1) < hi := by
  rw [between, mem_filter, decide_eq_true_iff]

/-- One block and those behind it. -/
theorem between_append (d : Dict K V) {lo mid hi : ℕ} (hlo : lo ≤ mid) (hhi : mid ≤ hi) :
    d.between T lo mid ++ d.between T mid hi ~ d.between T lo hi := by
  refine (filter_append_filter_perm fun he h1 h2 => ?_).trans (.of_eq (filter_congr fun he _ => ?_))
  · omega
  · rw [decide_eq_decide]
    omega

/-- The number of buckets that a cursor counts through: those of the smaller table. -/
def scanSize (d : Dict K V) : ℕ :=
  if dictIsRehashing d then min d.ht0.size d.ht1.size else d.ht0.size

/-- What a call makes of a cursor: it covers all places from the cursor to the start of the next
block, which is where it leaves the cursor; on from the start of a block it emits those places and
nothing else. -/
structure Scanned (T : DictType K) (d : Dict K V) (v v' : UInt64) (out : List (DictEntry K V))
    (a : ℕ) : Prop where
  le : a ≤ 64
  size : d.scanSize = 2 ^ (64 - a)
  cursor : scanRank v' = nextBlock a (scanRank v) % 2 ^ 64
  covers : ∀ he ∈ d.between T (scanRank v) (nextBlock a (scanRank v)), he ∈ out
  mem : ∀ he ∈ out, he ∈ d.entries
  aligned : 2 ^ a ∣ scanRank v → out ~ d.between T (scanRank v) (nextBlock a (scanRank v))

/-- With one table. -/
theorem Sound.scanned_idle (h : d.Sound T) (hidle : d.rehashidx = none) {k : ℕ}
    (hk : d.ht0.Masked T k) (v : UInt64) :
    Scanned T d v (dictScanNext (UInt64.ofNat d.ht0.sizemask) v)
      (d.ht0.between T (scanRank v / 2 ^ (64 - k) * 2 ^ (64 - k)) (nextBlock (64 - k) (scanRank v)))
      (64 - k) := by
  have hentries : d.entries = d.ht0.entries := by
    rw [entries, h.idle hidle, Dictht.entries_dictReset, append_nil]
  have hbetween : ∀ lo hi, d.between T lo hi = d.ht0.between T lo hi := by
    intro lo hi
    rw [between, hentries, Dictht.between]
  refine ⟨Nat.sub_le 64 k, ?_, ?_, fun he hmem => ?_, fun he hmem => ?_, fun hdvd => ?_⟩
  · rw [scanSize, dictIsRehashing, hidle, if_neg (by simp), hk.size, Nat.sub_sub_self hk.le]
  · rw [scanRank, dictScanNext_toBitVec hk.toBitVec_mask]
    exact rank_next hk.le _
  · rw [hbetween, Dictht.between, mem_filter, decide_eq_true_iff] at hmem
    rw [Dictht.between, mem_filter, decide_eq_true_iff]
    exact ⟨hmem.1, (Nat.div_mul_le_self _ _).trans hmem.2.1, hmem.2.2⟩
  · rw [hentries]
    exact mem_of_mem_filter hmem
  · rw [Nat.div_mul_cancel hdvd, hbetween]

/-- With two tables, `t0` the smaller. -/
theorem scanned_rehashing {t0 t1 : Dictht K V} (hperm : t0.entries ++ t1.entries ~ d.entries)
    (hsize : d.scanSize = t0.size) {k0 k1 : ℕ} (h0 : t0.Masked T k0) (hk : k0 ≤ k1) (hk1 : k1 ≤ 64)
    {v v' : UInt64} {out : List (DictEntry K V)}
    (hv' : scanRank v' = nextBlock (64 - k0) (scanRank v) % 2 ^ 64)
    (hout : out ~ t1.between T (scanRank v / 2 ^ (64 - k1) * 2 ^ (64 - k1))
      (nextBlock (64 - k0) (scanRank v))) :
    Scanned T d v v' (t0.between T (scanRank v / 2 ^ (64 - k0) * 2 ^ (64 - k0))
      (nextBlock (64 - k0) (scanRank v)) ++ out) (64 - k0) := by
  refine ⟨Nat.sub_le 64 k0, ?_, hv', fun he hmem => ?_, fun he hmem => ?_, fun hdvd => ?_⟩
  · rw [hsize, h0.size, Nat.sub_sub_self h0.le]
  · obtain ⟨hin, hlo, hhi⟩ := mem_between.1 hmem
    rcases mem_append.1 (hperm.mem_iff.2 hin) with hin | hin
    · apply mem_append_left
      rw [Dictht.between, mem_filter, decide_eq_true_iff]
      exact ⟨hin, (Nat.div_mul_le_self _ _).trans hlo, hhi⟩
    · apply mem_append_right
      rw [hout.mem_iff, Dictht.between, mem_filter, decide_eq_true_iff]
      exact ⟨hin, (Nat.div_mul_le_self _ _).trans hlo, hhi⟩
  · apply hperm.mem_iff.1
    rcases mem_append.1 hmem with hmem | hmem
    · exact mem_append_left _ (mem_of_mem_filter hmem)
    · exact mem_append_right _ (mem_of_mem_filter (hout.mem_iff.1 hmem))
  · -- the start of a block of the smaller table also starts one of the larger
    have hdvd1 : 2 ^ (64 - k1) ∣ scanRank v := (Nat.pow_dvd_pow 2 (by omega)).trans hdvd
    rw [Nat.div_mul_cancel hdvd1] at hout
    rw [Nat.div_mul_cancel hdvd]
    exact (hout.append_left _).trans ((Perm.of_eq (filter_append ..).symm).trans (hperm.filter _))

/-- There are no more expansions than buckets in the larger table. -/
theorem nextBlock_le_fuel {k0 k1 : ℕ} (hk : k0 ≤ k1) (hk1 : k1 ≤ 64) (r : ℕ) :
    nextBlock (64 - k0) r ≤ (r / 2 ^ (64 - k1) + 2 ^ k1) * 2 ^ (64 - k1) := by
  have hpow : 2 ^ (64 - k0) = 2 ^ (64 - k1) * 2 ^ (k1 - k0) := by
    rw [← Nat.pow_add]
    congr 1
    omega
  have hle : 2 ^ (k1 - k0) ≤ 2 ^ k1 := Nat.pow_le_pow_right Nat.two_pos (Nat.sub_le k1 k0)
  have hdiv := Nat.div_mul_le_self (r / 2 ^ (64 - k1)) (2 ^ (k1 - k0))
  calc nextBlock (64 - k0) r
      = (r / 2 ^ (64 - k1) / 2 ^ (k1 - k0) * 2 ^ (k1 - k0) + 2 ^ (k1 - k0)) * 2 ^ (64 - k1) := by
        rw [nextBlock, hpow, ← Nat.div_div_eq_div_mul, ← Nat.succ_mul, Nat.mul_assoc,
          Nat.mul_comm (2 ^ (64 - k1))]
    _ ≤ (r / 2 ^ (64 - k1) + 2 ^ k1) * 2 ^ (64 - k1) := Nat.mul_le_mul_right _ (by omega)

/-- `dictScan` stays inside the tables, and the loop over the expansions ends. -/
theorem Sound.dictScan_spec (h : d.Sound T) (hfit : d.Fits) (hd : dictSize d ≠ 0) (v : UInt64) :
    ∃ v' out a, dictScan d v = .ok (v', out) ∧ Scanned T d v v' out a := by
  have hs0 := h.size0_ne_zero hd
  obtain ⟨k0, hk0⟩ := h.ht0.exists_masked hs0 (hfit.size0.trans (by decide))
  have hblock : ∀ {t : Dictht K V} {k : ℕ}, t.Masked T k →
      dictScanBucket t (UInt64.ofNat t.sizemask) v
        = .ok (t.between T (scanRank v / 2 ^ (64 - k) * 2 ^ (64 - k)) (nextBlock (64 - k) (scanRank v)))
      := by
    intro t k ht
    rw [ht.dictScanBucket_eq v, Dictht.between]
    congr 2
    funext he
    exact decide_eq_decide.2 div_eq_div_iff_between
  unfold dictScan
  rw [if_neg hd]
  by_cases hr : dictIsRehashing d = true
  · obtain ⟨k1, hk1⟩ := h.ht1.exists_masked (h.tables hr).2 (hfit.size1.trans (by decide))
    rw [if_neg (by simp [hr])]
    have hpow_le : ∀ {j k : ℕ}, 2 ^ j ≤ 2 ^ k → j ≤ k := fun h2 =>
      (Nat.pow_le_pow_iff_right Nat.one_lt_two).1 h2
    by_cases hlt : d.ht0.size > d.ht1.size
    · have hk : k1 ≤ k0 := hpow_le (by rw [← hk0.size, ← hk1.size]; exact hlt.le)
      obtain ⟨v', out, hloop, hv', hout⟩ :=
        hk0.dictScanLoop_spec hk hk1.toBitVec_mask d.ht0.size v
          (by rw [hk0.size]; exact nextBlock_le_fuel hk hk0.le _)
      simp only [if_pos hlt, hblock hk1, bind, Except.bind, hloop]
      refine ⟨_, _, _, rfl, scanned_rehashing perm_append_comm ?_ hk1 hk hk0.le hv' hout⟩
      rw [scanSize, if_pos hr, Nat.min_eq_right hlt.le]
    · have hle : d.ht0.size ≤ d.ht1.size := Nat.not_lt.1 hlt
      have hk : k0 ≤ k1 := hpow_le (by rw [← hk0.size, ← hk1.size]; exact hle)
      obtain ⟨v', out, hloop, hv', hout⟩ :=
        hk1.dictScanLoop_spec hk hk0.toBitVec_mask d.ht1.size v
          (by rw [hk1.size]; exact nextBlock_le_fuel hk hk1.le _)
      simp only [if_neg hlt, hblock hk0, bind, Except.bind, hloop]
      refine ⟨_, _, _, rfl, scanned_rehashing (Perm.refl _) ?_ hk0 hk hk1.le hv' hout⟩
      rw [scanSize, if_pos hr, Nat.min_eq_left hle]
  · rw [if_pos (by simp [hr])]
    simp only [hblock hk0, bind, Except.bind]
    exact ⟨_, _, _, rfl, h.scanned_idle (rehashidx_eq_none hr) hk0 v⟩

end Dict

end RedisCounter
