import RedisCounter.Command.Decrement
import RedisCounter.Db.Runs

/-!
# What `incr` makes of a number

`set` accepts any text, `incr` reads it with `atol`, which stops at the ends of `long`, adds 1 in a
`long`, which wraps, and prints the result. For a number that a `long` holds, other than the greatest,
that is the next number. The greatest `long` and everything above it become the least `long`, and what
is below the least `long` becomes the number after that.
-/

namespace RedisCounter

open Run Decimal

variable {hash : Bytes → UInt64}

/-! ## Numbers and their texts -/

/-- A text denotes one number. -/
theorem Denotes.unique {t : Bytes} {m n : ℤ} (hm : Denotes t m) (hn : Denotes t n) : m = n := by
  cases hm with
  | nat _ hdigits =>
    cases hn with
    | nat => rfl
    | neg => exact absurd (hdigits 45 (List.mem_cons_self ..)) (by decide)
  | neg _ hdigits =>
    cases hn with
    | nat _ hdigits' => exact absurd (hdigits' 45 (List.mem_cons_self ..)) (by decide)
    | neg => rfl

theorem intText_injective : Function.Injective intText := by
  intro m n h
  have hm := denotes_intText m
  rw [h] at hm
  exact hm.unique (denotes_intText n)

/-- `atol` of a number of any size. -/
theorem Denotes.atol_eq {t : Bytes} {n : ℤ} (h : Denotes t n) :
    atol t = max LONG_MIN (min LONG_MAX n) := by
  unfold LONG_MIN LONG_MAX
  cases h with
  | nat hne hdigits =>
    rw [atol_digits hne hdigits]
    unfold LONG_MAX
    omega
  | neg _ hdigits =>
    rw [atol_neg_digits hdigits]
    unfold LONG_MIN
    omega

/-! ## The number after `incr` -/

theorem wrapLong_succ {n : ℤ} (hmin : LONG_MIN ≤ n) (hmax : n < LONG_MAX) :
    wrapLong (max LONG_MIN (min LONG_MAX n) + 1) = n + 1 := by
  rw [min_eq_right hmax.le, max_eq_right hmin]
  apply wrapLong_of_mem
  · omega
  · omega

/-- At the greatest `long` the sum wraps, and `atol` takes everything above for it. -/
theorem wrapLong_succ_of_le {n : ℤ} (h : LONG_MAX ≤ n) :
    wrapLong (max LONG_MIN (min LONG_MAX n) + 1) = LONG_MIN := by
  rw [min_eq_left h]
  decide

/-- `atol` takes everything below the least `long` for it. -/
theorem wrapLong_succ_of_lt {n : ℤ} (h : n < LONG_MIN) :
    wrapLong (max LONG_MIN (min LONG_MAX n) + 1) = LONG_MIN + 1 := by
  have hmax : n ≤ LONG_MAX := h.le.trans (by decide)
  rw [min_eq_right hmax, max_eq_left h.le]
  decide

/-- What an increment of the text `t` of `n` may leave: the text of the next number, or `t` itself; and
nothing that denotes a number below `n`. -/
def StepsUp (t : Bytes) (n : ℤ) (t' : Bytes) : Prop :=
  (t' = intText (n + 1) ∨ t' = t) ∧ ∀ z, Denotes t' z → n ≤ z

theorem stepsUp_iff {t : Bytes} {n : ℤ} (h : Denotes t n) :
    StepsUp t n (intText (wrapLong (atol t + 1))) ↔ LONG_MIN ≤ n ∧ n < LONG_MAX := by
  rw [h.atol_eq]
  constructor
  · intro ⟨htext, hup⟩
    rcases Int.lt_or_le n LONG_MIN with hlt | hmin
    · -- the text denotes the number after the least `long`, which is above `n + 1`
      rw [wrapLong_succ_of_lt hlt] at htext
      rcases htext with hnext | hsame
      · have := intText_injective hnext
        omega
      · have hden := denotes_intText (LONG_MIN + 1)
        rw [hsame] at hden
        have := hden.unique h
        omega
    · rcases Int.lt_or_le n LONG_MAX with hmax | hle
      · exact ⟨hmin, hmax⟩
      · -- the text denotes the least `long`, which is below `n`
        rw [wrapLong_succ_of_le hle] at hup
        have hlow := hup LONG_MIN (denotes_intText LONG_MIN)
        have hlt : LONG_MIN < LONG_MAX := by decide
        omega
  · intro ⟨hmin, hmax⟩
    rw [wrapLong_succ hmin hmax]
    refine ⟨.inl rfl, fun z hz => ?_⟩
    have := hz.unique (denotes_intText (n + 1))
    omega

/-! ## Counters in a keyspace -/

/-- In every keyspace that operations of any kind have reached, for every key whose value reads as a
number: `incr` succeeds and leaves a value that can be read. It is the text of the next number, or the
old text, and not the text of a lesser number, exactly when the number is a `long` other than the
greatest. -/
theorem incr_stepsUp_iff (hash : Bytes → UInt64) (ops : List KeyspaceOp) (db : RedisDb)
    (outs : List (Option Robj)) (k : Key) (o : Robj) (t : Bytes) (n : ℤ)
    (hrun : run (keyspaceStep hash) createDb ops = .ok (db, outs)) (hget : db.get k = some o)
    (ht : cstrAt o.ptr = .ok t) (hn : Denotes t n) :
    ∃ db' o' t', keyspaceStep hash db (.incr k) = .ok (db', none) ∧ db'.get k = some o' ∧
      cstrAt o'.ptr = .ok t' ∧ (StepsUp t n t' ↔ LONG_MIN ≤ n ∧ n < LONG_MAX) := by
  have hends := ends_keyspaceRun hash ops
  rw [hrun] at hends
  have hstores : (KeyspaceOp.incr k).stores (db.get k)
      = .ok (.sds (counterSds (wrapLong (atol t + 1))) 0) := by
    simp only [KeyspaceOp.stores, hget, RedisDb.incrPtr, ht, bind, Except.bind]
    rfl
  have hspec := keyspaceStep_spec hends.inv (.incr k)
  generalize hres : keyspaceStep hash db (.incr k) = res at hspec
  cases hspec with
  | fetched hw => cases hw
  | failed _ hs => cases hs.symm.trans hstores
  | @wrote _ ptr hs o' ho db' hb =>
    obtain rfl : ptr = _ := Except.ok.inj (hs.symm.trans hstores)
    refine ⟨db', o', intText (wrapLong (atol t + 1)), rfl, ?_, ?_, stepsUp_iff hn⟩
    · rw [hb.get]
      exact Function.update_self ..
    · rw [ho]
      exact cstrAt_counterSds (LONG_MIN_le_wrapLong _) (wrapLong_le_LONG_MAX _)

/-- A key set to 41. -/
theorem incr_stepsUp_forty_one :
    ∃ db outs db' o' t', run (keyspaceStep fun _ => 0) createDb
        [.set ⟨[97], by decide⟩ (.sds (sdsnew (ascii "41".toList)) 0)] = .ok (db, outs) ∧
      keyspaceStep (fun _ => 0) db (.incr ⟨[97], by decide⟩) = .ok (db', none) ∧
      db'.get ⟨[97], by decide⟩ = some o' ∧ cstrAt o'.ptr = .ok t' ∧
      StepsUp (ascii "41".toList) 41 t' := by
  obtain ⟨⟨db, outs⟩, hrun⟩ : ∃ r, run (keyspaceStep fun _ => 0) createDb
      [.set ⟨[97], by decide⟩ (.sds (sdsnew (ascii "41".toList)) 0)] = .ok r := ⟨_, rfl⟩
  have hget : db.get ⟨[97], by decide⟩ = some ⟨1, .sds (sdsnew (ascii "41".toList)) 0⟩ := by
    cases hrun
    decide +kernel
  have hden : Denotes (ascii "41".toList) 41 := .nat (by decide) (by decide +kernel)
  obtain ⟨db', o', t', hstep, hget', ht', hiff⟩ := incr_stepsUp_iff (fun _ => 0) _ db outs
    ⟨[97], by decide⟩ _ _ 41 hrun hget (by decide +kernel) hden
  exact ⟨db, outs, db', o', t', hrun, hstep, hget', ht', hiff.2 (by decide)⟩

/-- The greatest `long` is incremented to the least. -/
theorem incr_of_LONG_MAX :
    (run (serveRequest fun _ => 0) (createDb, sdsnewlen (List.replicate MAX_LINE 0) MAX_LINE)
        [.set [97] (ascii "9223372036854775807".toList), .incr [97], .get [97]]).map Prod.snd
        = .ok [OK ++ [lf], OK ++ [lf], ascii "-9223372036854775808\n".toList] ∧
      Denotes (ascii "9223372036854775807".toList) LONG_MAX ∧
      ¬ StepsUp (ascii "9223372036854775807".toList) LONG_MAX
        (ascii "-9223372036854775808".toList) := by
  have hden : Denotes (ascii "9223372036854775807".toList) LONG_MAX := .nat (by decide) (by decide +kernel)
  have hlow : Denotes (45 :: ascii "9223372036854775808".toList) LONG_MIN :=
    .neg (by decide) (by decide +kernel)
  refine ⟨by decide +kernel, hden, fun h => ?_⟩
  exact absurd (h.2 LONG_MIN hlow) (by decide)

end RedisCounter
