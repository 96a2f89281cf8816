import RedisCounter.Dict.Interface
import RedisCounter.Dict.Operations

/-!
# The invariant of the whole interface

With deletions and iterators a rehash may run with no entry left in the first table, and it may be
paused; nothing then bounds the number of entries by the buckets. `Dict.Sound` is what remains, and
every call keeps it. A portion of `n` buckets leaves the entries as they are, moves the index by at
least `n` unless it ends the rehash, and reports whether it did.
-/

namespace RedisCounter

open List Buckets

variable {K V : Type} {T : DictType K}

namespace Dict

variable {d : Dict K V} {key : K} {val : V}

/-- Both tables are sound and no key occurs twice in the two together. Without a rehash the second
table is absent; during one both are there and the buckets below `rehashidx` have been moved. -/
structure Sound (T : DictType K) (d : Dict K V) : Prop where
  ht0 : d.ht0.Inv T
  ht1 : d.ht1.Inv T
  nodup : d.entries.NodupKeys
  idle : d.rehashidx = none → d.ht1 = dictReset
  moved : ∀ ⦃i⦄, d.rehashidx = some i → ∀ j < i, d.ht0.table[j]? = some []
  tables : d.rehashidx.isSome → d.ht0.size ≠ 0 ∧ d.ht1.size ≠ 0

theorem sound_dictCreate : (dictCreate : Dict K V).Sound T where
  ht0 := Dictht.inv_dictReset
  ht1 := Dictht.inv_dictReset
  nodup := nodupKeys_nil
  idle _ := rfl
  moved _ h := by cases h
  tables h := Bool.noConfusion h

/-- With entries left to move, and the iterators out of sight, it is the invariant of the calls the
keyspace makes. -/
theorem Sound.inv (h : d.Sound T) (hused : d.rehashidx.isSome → d.ht0.used ≠ 0) :
    Dict.Inv T { d with iterators := 0 } where
  ht0 := h.ht0
  ht1 := h.ht1
  nodup := h.nodup
  idle := h.idle
  moved := h.moved
  remain hs := ⟨hused hs, (h.tables hs).2⟩
  iterators := rfl

theorem Sound.dictSize_eq (h : d.Sound T) : dictSize d = d.entries.length := by
  rw [dictSize, entries, length_append, h.ht0.used, h.ht1.used]

/-- A dictionary with entries has a first table. -/
theorem Sound.size0_ne_zero (h : d.Sound T) (hd : dictSize d ≠ 0) : d.ht0.size ≠ 0 := by
  rcases hi : d.rehashidx with _ | i
  · apply h.ht0.size_ne_zero
    rw [dictSize, h.idle hi] at hd
    exact hd
  · exact (h.tables (by simp [hi])).1

/-! ## Replacing one of the tables -/

/-- Another first table with the buckets below the index still empty. -/
theorem Sound.set_ht0 (h : d.Sound T) {ht : Dictht K V} (hinv : ht.Inv T)
    (hsize : ht.size = d.ht0.size) (hnodup : (ht.entries ++ d.ht1.entries).NodupKeys)
    (hmoved : ∀ i, d.rehashidx = some i → ∀ j < i, ht.table[j]? = some []) :
    Sound T { d with ht0 := ht } where
  ht0 := hinv
  ht1 := h.ht1
  nodup := hnodup
  idle := h.idle
  moved := hmoved
  tables hs := by
    dsimp only
    rw [hsize]
    exact h.tables hs

/-- Another second table while a rehash runs. -/
theorem Sound.set_ht1 (h : d.Sound T) {ht : Dictht K V} (hr : d.rehashidx.isSome) (hinv : ht.Inv T)
    (hsize : ht.size = d.ht1.size) (hnodup : (d.ht0.entries ++ ht.entries).NodupKeys) :
    Sound T { d with ht1 := ht } where
  ht0 := h.ht0
  ht1 := hinv
  nodup := hnodup
  idle hi := by
    rw [show d.rehashidx = none from hi] at hr
    cases hr
  moved := h.moved
  tables hs := by
    dsimp only
    rw [hsize]
    exact h.tables hs

/-! ## Rehashing in portions -/

/-- What a call leaves behind that moves or reorders entries and nothing else. -/
structure Rehashed (T : DictType K) (d d' : Dict K V) : Prop where
  sound : d'.Sound T
  perm : d'.entries ~ d.entries
  iterators : d'.iterators = d.iterators

theorem Sound.rehashed_refl (h : d.Sound T) : Rehashed T d d := ⟨h, Perm.refl _, rfl⟩

theorem Rehashed.trans {d1 d2 d3 : Dict K V} (h12 : Rehashed T d1 d2) (h23 : Rehashed T d2 d3) :
    Rehashed T d1 d3 :=
  ⟨h23.sound, h23.perm.trans h12.perm, h23.iterators.trans h12.iterators⟩

/-- Each empty bucket skipped takes one visit. -/
theorem dictSkipEmpty_visits {table : List (List (DictEntry K V))} (visits idx : ℕ) :
    (∀ idx', dictSkipEmpty table visits idx = .ok (.stop idx') → idx' = idx + visits + 1) ∧
      ∀ idx' visits' chain, dictSkipEmpty table visits idx = .ok (.bucket idx' visits' chain) →
        idx' + visits' = idx + visits := by
  induction visits generalizing idx with
  | zero =>
    rcases hget : table[idx]? with _ | _ | ⟨de, chain⟩
    · simp [dictSkipEmpty, hget]
    · rw [dictSkipEmpty_stop hget]
      simp
    · rw [dictSkipEmpty_bucket hget]
      simp
  | succ visits ih =>
    rcases hget : table[idx]? with _ | _ | ⟨de, chain⟩
    · simp [dictSkipEmpty, hget]
    · rw [dictSkipEmpty_skip hget]
      refine ⟨fun idx' h => ?_, fun idx' visits' chain h => ?_⟩
      · have := (ih (idx + 1)).1 idx' h
        omega
      · have := (ih (idx + 1)).2 idx' visits' chain h
        omega
    · rw [dictSkipEmpty_bucket hget]
      simp

/-- One round of the outer loop that moves a bucket. -/
theorem Sound.rehashed_bucket (h : d.Sound T) {i i' : ℕ} {h0 h1 : Dictht K V}
    (hi : d.rehashidx = some i) (hm : BucketMoved T d i' h0 h1) :
    Rehashed T d { d with ht0 := h0, ht1 := h1, rehashidx := some (i' + 1) } where
  sound :=
    { ht0 := hm.inv0
      ht1 := hm.inv1
      nodup := (perm_nodupKeys hm.perm).2 h.nodup
      idle := fun hn => by cases hn
      moved := fun k hk j hj => by
        cases hk
        exact hm.moved j (by omega)
      tables := fun _ => by
        dsimp only
        rw [hm.size0, hm.size1]
        exact h.tables (by simp [hi]) }
  perm := hm.perm
  iterators := rfl

/-- The outer loop never fails. It ends early after all its visits, with entries left; otherwise it
has moved `n` buckets or the first table is empty. -/
theorem Sound.dictRehashLoop_spec (h : d.Sound T) {i : ℕ} (hi : d.rehashidx = some i) (n visits : ℕ) :
    ∃ d' early i', dictRehashLoop T n visits i d = .ok (d', early) ∧ Rehashed T d d' ∧
      d'.rehashidx = some i' ∧ d'.ht0.size = d.ht0.size ∧ d'.ht1.size = d.ht1.size ∧
      (early = true → d'.ht0.used ≠ 0 ∧ i + visits < i') ∧
      (early = false → d'.ht0.used = 0 ∨ i + n ≤ i') := by
  induction n generalizing d i visits with
  | zero =>
    exact ⟨d, false, i, rfl, h.rehashed_refl, hi, rfl, rfl, fun he => Bool.noConfusion he,
      fun _ => .inr le_rfl⟩
  | succ n ih =>
    by_cases hused : d.ht0.used = 0
    · refine ⟨d, false, i, ?_, h.rehashed_refl, hi, rfl, rfl, fun he => Bool.noConfusion he,
        fun _ => .inl hused⟩
      rw [dictRehashLoop, if_pos hused]
      rfl
    · have hd := h.inv fun _ => hused
      obtain ⟨k, he, c, hik, hklt, hk⟩ := hd.exists_remaining hi
      obtain ⟨i', hle, hempty, hend⟩ := dictSkipEmpty_spec hk visits i hik
      have hnot : ¬ d.ht0.size ≤ i := Nat.not_le.2 (hik.trans_lt hklt)
      rcases hend with ⟨v, chain, hscan, hchain⟩ | ⟨hscan, hlt, hi'k⟩
      · -- a bucket is moved, and the loop goes on behind it
        have hvisits := (dictSkipEmpty_visits visits i).2 _ _ _ hscan
        obtain ⟨ht, hfold, hinv, hsz, hperm⟩ :=
          foldlM_dictMoveEntry_spec chain d h.ht1 (h.tables (by simp [hi])).2
        have hm' := hd.bucketMoved hi hempty hchain hinv hsz hperm
        have hm : BucketMoved T d i' { d.ht0 with
            used := d.ht0.used - chain.length, table := d.ht0.table.set i' [] } ht :=
          ⟨hm'.inv0, hm'.inv1, hm'.size0, hm'.size1, hm'.perm, hm'.moved⟩
        have hd1 := h.rehashed_bucket hi hm
        obtain ⟨d', early, i2, hloop, hr, hi2, hsize0, hsize1, hearly, hlate⟩ := ih hd1.sound rfl v
        refine ⟨d', early, i2, ?_, hd1.trans hr, hi2, hsize0, hsize1.trans hsz,
          fun he => ⟨(hearly he).1, ?_⟩, fun he => (hlate he).imp_right ?_⟩
        · rw [dictRehashLoop, if_neg hused, if_neg hnot, hscan]
          simp only [bind, Except.bind, hfold]
          exact hloop
        · have := (hearly he).2
          omega
        · omega
      · -- the visits are used up among empty buckets
        have hvisits := (dictSkipEmpty_visits visits i).1 _ hscan
        refine ⟨{ d with rehashidx := some i' }, true, i', ?_, ⟨⟨h.ht0, h.ht1, h.nodup, ?_, ?_, ?_⟩,
          Perm.refl _, rfl⟩, rfl, rfl, rfl, fun _ => ⟨hused, by omega⟩, fun he => Bool.noConfusion he⟩
        · rw [dictRehashLoop, if_neg hused, if_neg hnot, hscan]
          rfl
        · exact fun hn => by cases hn
        · intro j hj m hm
          cases hj
          rcases lt_or_ge m i with hmi | hmi
          · exact h.moved hi m hmi
          · exact hempty m hmi hm
        · exact fun _ => h.tables (by simp [hi])

/-- If the rehash still runs, it has moved its index by at least `n`; if it has ended, the second table
has taken the place of the first. Where none runs the table stays. -/
structure Ahead (n : ℕ) (d d' : Dict K V) : Prop where
  going : ∀ i', d'.rehashidx = some i' → ∃ i, d.rehashidx = some i ∧ i + n ≤ i' ∧
    d'.ht0.size = d.ht0.size ∧ d'.ht1.size = d.ht1.size
  ended : d'.rehashidx = none → d.rehashidx.isSome → d'.ht0.size = d.ht1.size
  idle : d.rehashidx = none → d'.ht0.size = d.ht0.size

theorem Ahead.refl (d : Dict K V) : Ahead 0 d d where
  going i hi := ⟨i, hi, le_rfl, rfl, rfl⟩
  ended hn hs := by
    rw [hn] at hs
    cases hs
  idle _ := rfl

theorem Ahead.mono {n m : ℕ} {d' : Dict K V} (h : Ahead n d d') (hle : m ≤ n) : Ahead m d d' where
  going i' hi' := by
    obtain ⟨i, hi, hin, hsizes⟩ := h.going i' hi'
    exact ⟨i, hi, by omega, hsizes⟩
  ended := h.ended
  idle := h.idle

theorem Ahead.trans {n m : ℕ} {d1 d2 : Dict K V} (h1 : Ahead n d d1) (h2 : Ahead m d1 d2) :
    Ahead (n + m) d d2 where
  going i2 hi2 := by
    obtain ⟨i1, hi1, hle2, hsize0, hsize1⟩ := h2.going i2 hi2
    obtain ⟨i, hi, hle1, hsize0', hsize1'⟩ := h1.going i1 hi1
    exact ⟨i, hi, by omega, hsize0.trans hsize0', hsize1.trans hsize1'⟩
  ended hn hs := by
    rcases hi1 : d1.rehashidx with _ | i1
    · exact (h2.idle hi1).trans (h1.ended hi1 hs)
    · obtain ⟨i, -, -, -, hsize1⟩ := h1.going i1 hi1
      exact (h2.ended hn (by simp [hi1])).trans hsize1
  idle hn := by
    have hn1 : d1.rehashidx = none := by
      by_contra hs
      obtain ⟨i1, hi1⟩ := Option.ne_none_iff_exists'.1 hs
      obtain ⟨i, hi, -⟩ := h1.going i1 hi1
      rw [hi] at hn
      cases hn
    exact (h2.idle hn1).trans (h1.idle hn)

/-- A rehash that has ended has come as far as any. -/
theorem Ahead.of_ended {d' : Dict K V} (h : Ahead 0 d d') (hn : d'.rehashidx = none) (n : ℕ) :
    Ahead n d d' where
  going i' hi' := by
    rw [hn] at hi'
    cases hi'
  ended := h.ended
  idle := h.idle

/-- Without a rehash there is nothing to move ahead. -/
theorem Ahead.of_idle {d' : Dict K V} (h : Ahead 0 d d') (hn : d.rehashidx = none) (n : ℕ) :
    Ahead n d d' where
  going i' hi' := by
    obtain ⟨i, hi, -⟩ := h.going i' hi'
    rw [hi] at hn
    cases hn
  ended := h.ended
  idle := h.idle

/-- The two tables have no more than 2^60 buckets each, so that the bytes of their arrays fit a
`size_t`, and the iterators are counted by an `unsigned long`. -/
structure Fits (d : Dict K V) : Prop where
  size0 : d.ht0.size ≤ 2 ^ 60
  size1 : d.ht1.size ≤ 2 ^ 60
  iterators : d.iterators < 2 ^ 64

theorem fits_dictCreate : (dictCreate : Dict K V).Fits :=
  ⟨Nat.zero_le _, Nat.zero_le _, Nat.two_pow_pos 64⟩

/-- Moving ahead makes no table larger than there is. -/
theorem Ahead.size_le {n m : ℕ} {d' : Dict K V} (ha : Ahead n d d') (hd' : d'.Sound T)
    (h0 : d.ht0.size ≤ m) (h1 : d.ht1.size ≤ m) : d'.ht0.size ≤ m ∧ d'.ht1.size ≤ m := by
  rcases hi' : d'.rehashidx with _ | i'
  · have hsize1 : d'.ht1.size = 0 := by
      rw [hd'.idle hi']
      rfl
    refine ⟨?_, by omega⟩
    rcases hi : d.rehashidx with _ | i
    · exact (ha.idle hi).trans_le h0
    · exact (ha.ended hi' (by simp [hi])).trans_le h1
  · obtain ⟨i, -, -, hsize0, hsize1⟩ := ha.going i' hi'
    exact ⟨hsize0.trans_le h0, hsize1.trans_le h1⟩

/-- What a portion of `n` buckets leaves behind. -/
structure Portion (T : DictType K) (n : ℕ) (d d' : Dict K V) (more : Bool) : Prop where
  rehashed : Rehashed T d d'
  more_iff : more = true ↔ d'.rehashidx.isSome
  ahead : Ahead n d d'

/-- The rehash ends: the second table takes the place of the first. -/
theorem Sound.rehashed_swap (h : d.Sound T) (hused : d.ht0.used = 0) :
    Rehashed T d { d with ht0 := d.ht1, ht1 := dictReset, rehashidx := none } := by
  have hnil : d.ht0.entries = [] := (Dictht.entries_eq_nil_iff h.ht0).2 hused
  have hentries : Dict.entries { d with ht0 := d.ht1, ht1 := dictReset, rehashidx := none }
      = d.entries := by
    rw [entries, entries, hnil, Dictht.entries_dictReset, append_nil, nil_append]
  refine ⟨⟨h.ht1, Dictht.inv_dictReset, ?_, fun _ => rfl, ?_, ?_⟩, .of_eq hentries, rfl⟩
  · rw [hentries]
    exact h.nodup
  · exact fun _ hk => by cases hk
  · exact fun hk => by cases hk

/-- `dictRehash(d, n)` never fails. It returns 1 exactly if the rehash goes on, and has then moved the
index by at least `n`. -/
theorem Sound.dictRehashMore_spec (h : d.Sound T) (n : ℕ) :
    ∃ d' more, dictRehashMore T d n = .ok (d', more) ∧ Portion T n d d' more := by
  rcases hi : d.rehashidx with _ | i
  · refine ⟨d, false, ?_, h.rehashed_refl, by simp [hi], (Ahead.refl d).of_idle hi n⟩
    rw [dictRehashMore, hi]
    rfl
  · obtain ⟨d1, early, i1, hloop, hr, hi1, hsize0, hsize1, hearly, hlate⟩ :=
      h.dictRehashLoop_spec hi n (n * 10 - 1)
    have hahead : i + n ≤ i1 → Ahead n d d1 := by
      refine fun hle => ⟨fun i' hi' => ?_, fun hn => ?_, fun hn => ?_⟩
      · rw [hi1] at hi'
        cases hi'
        exact ⟨i, hi, hle, hsize0, hsize1⟩
      · rw [hi1] at hn
        cases hn
      · rw [hi] at hn
        cases hn
    simp only [dictRehashMore, hi, hloop, bind, Except.bind]
    by_cases he : early = true
    · refine ⟨d1, true, by rw [if_pos he]; rfl, hr, by simp [hi1], hahead ?_⟩
      have := (hearly he).2
      omega
    · rw [if_neg he]
      by_cases hused : d1.ht0.used = 0
      · have hswap : Ahead n d { d1 with ht0 := d1.ht1, ht1 := dictReset, rehashidx := none } := by
          refine ⟨fun i' hi' => ?_, fun _ _ => hsize1, fun hn => ?_⟩
          · cases hi'
          · rw [hi] at hn
            cases hn
        refine ⟨_, false, by rw [if_pos hused]; rfl, hr.trans (hr.sound.rehashed_swap hused), ?_,
          hswap⟩
        simp
      · refine ⟨d1, true, by rw [if_neg hused]; rfl, hr, by simp [hi1], hahead ?_⟩
        exact (hlate (by simpa using he)).resolve_left hused

/-- The step with which calls begin; paused by an iterator it does nothing. -/
theorem Sound.dictMigrate_spec (h : d.Sound T) :
    ∃ d', dictMigrate T d = .ok d' ∧ Rehashed T d d' ∧
      Ahead (if d.iterators = 0 then 1 else 0) d d' := by
  unfold dictMigrate dictRehashStep
  split_ifs with hr hit
  · obtain ⟨d', more, hok, hp⟩ := h.dictRehashMore_spec 1
    refine ⟨d', ?_, hp.rehashed, hp.ahead⟩
    rw [dictRehash_eq, hok]
    rfl
  · exact ⟨d, rfl, h.rehashed_refl, .refl d⟩
  · -- there is no rehash to move ahead
    exact ⟨d, rfl, h.rehashed_refl, (Ahead.refl d).of_idle (rehashidx_eq_none hr) 1⟩
  · exact ⟨d, rfl, h.rehashed_refl, .refl d⟩

end Dict

end RedisCounter
