import RedisCounter.Dict.Table

/-!
# The invariant of the two tables, and one step of a rehash

`Dict.Inv` is the joint invariant of the tables and the rehash index; `Dict.Load` is the bound on
the number of entries, tied to the progress of the rehash: since the expansion the index has moved
at least once for every insertion but the first. One step of a rehash keeps the entries up to their
order, restores the invariant and makes room for one more insertion.
-/

namespace RedisCounter

open List Buckets

variable {K V : Type}

namespace Dict

/-- The entries of both tables. -/
def entries (d : Dict K V) : List (DictEntry K V) := d.ht0.entries ++ d.ht1.entries

/-- Both tables are sound and no key occurs twice in the two together. Without a rehash the second
table is absent; during one the buckets below `rehashidx` have been moved and entries remain. -/
structure Inv (T : DictType K) (d : Dict K V) : Prop where
  ht0 : d.ht0.Inv T
  ht1 : d.ht1.Inv T
  nodup : d.entries.NodupKeys
  idle : d.rehashidx = none → d.ht1 = dictReset
  moved : ∀ ⦃i⦄, d.rehashidx = some i → ∀ j < i, d.ht0.table[j]? = some []
  remain : d.rehashidx.isSome → d.ht0.used ≠ 0 ∧ d.ht1.size ≠ 0
  iterators : d.iterators = 0

/-- Without a rehash the entries fit the buckets with `free` to spare; during one the new table has
twice the buckets, and `room` more entries may be added before the index has to move again. -/
structure Load (free room : ℕ) (d : Dict K V) : Prop where
  idle : d.rehashidx = none → d.ht0.used + free ≤ d.ht0.size
  moving : ∀ ⦃i⦄, d.rehashidx = some i → d.ht1.size = 2 * d.ht0.size ∧
    d.ht0.used + d.ht1.used + room ≤ d.ht0.size + 1 + i

variable {T : DictType K} {d : Dict K V}

theorem inv_dictCreate : (dictCreate : Dict K V).Inv T where
  ht0 := Dictht.inv_dictReset
  ht1 := Dictht.inv_dictReset
  nodup := nodupKeys_nil
  idle _ := rfl
  moved _ h := by cases h
  remain h := Bool.noConfusion h
  iterators := rfl

@[simp] theorem entries_dictCreate : (dictCreate : Dict K V).entries = [] := rfl

theorem load_dictCreate : Load 0 0 (dictCreate : Dict K V) where
  idle _ := le_rfl
  moving _ h := by cases h

theorem Load.mono {m n m' n' : ℕ} (h : Load m n d) (hm : m' ≤ m) (hn : n' ≤ n) : Load m' n' d where
  idle hi := (Nat.add_le_add_left hm _).trans (h.idle hi)
  moving _ hi := ⟨(h.moving hi).1, (Nat.add_le_add_left hn _).trans (h.moving hi).2⟩

theorem Inv.length_entries (h : d.Inv T) : d.ht0.used + d.ht1.used = d.entries.length := by
  rw [entries, length_append, h.ht0.used, h.ht1.used]

theorem rehashidx_eq_none (h : ¬ dictIsRehashing d = true) : d.rehashidx = none := by
  simpa [dictIsRehashing] using h

/-- While a rehash runs, a bucket at or behind the index still holds an entry. -/
theorem Inv.exists_remaining (h : d.Inv T) {i : ℕ} (hi : d.rehashidx = some i) :
    ∃ j he chain, i ≤ j ∧ j < d.ht0.size ∧ d.ht0.table[j]? = some (he :: chain) := by
  have hne : d.ht0.entries ≠ [] := by
    rw [ne_eq, Dictht.entries_eq_nil_iff h.ht0]
    exact (h.remain (by simp [hi])).1
  obtain ⟨j, he, chain, hj⟩ := exists_chain_of_flatten_ne_nil hne
  refine ⟨j, he, chain, ?_, ?_, hj⟩
  · -- the buckets below the index are empty
    by_contra hlt
    rw [h.moved hi j (by omega)] at hj
    cases hj
  · rw [← h.ht0.length]
    exact (List.getElem?_eq_some_iff.1 hj).1

/-- The assertion of `dictRehash`. -/
theorem Inv.rehashidx_lt (h : d.Inv T) {i : ℕ} (hi : d.rehashidx = some i) : i < d.ht0.size := by
  obtain ⟨j, -, -, hij, hlt, -⟩ := h.exists_remaining hi
  omega

/-! ## Moving a bucket -/

theorem dictMoveEntry_eq (d : Dict K V) (de : DictEntry K V) :
    dictMoveEntry T d de = (dictInsertAt d.ht1 (d.ht1.index T de.1) de).map fun ht =>
      { d with ht0 := { d.ht0 with used := d.ht0.used - 1 }, ht1 := ht } := by
  unfold dictMoveEntry dictInsertAt Dictht.index
  dsimp only
  split <;> rfl

/-- Moving a chain inserts its entries into the second table. -/
theorem foldlM_dictMoveEntry_spec (chain : List (DictEntry K V)) (d : Dict K V)
    (h : d.ht1.Inv T) (hs : d.ht1.size ≠ 0) :
    ∃ ht, chain.foldlM (dictMoveEntry T) d = .ok { d with
        ht0 := { d.ht0 with used := d.ht0.used - chain.length }, ht1 := ht } ∧
      ht.Inv T ∧ ht.size = d.ht1.size ∧ ht.entries ~ chain ++ d.ht1.entries := by
  induction chain generalizing d with
  | nil => exact ⟨d.ht1, rfl, h, rfl, Perm.refl _⟩
  | cons de chain ih =>
    obtain ⟨ht, hins, hinv, hsize, hperm⟩ := h.dictInsertAt_spec hs de
    obtain ⟨ht', hfold, hinv', hsize', hperm'⟩ :=
      ih { d with ht0 := { d.ht0 with used := d.ht0.used - 1 }, ht1 := ht } hinv (hsize ▸ hs)
    refine ⟨ht', ?_, hinv', hsize'.trans hsize, ?_⟩
    · rw [foldlM_cons, dictMoveEntry_eq, hins]
      apply hfold.trans
      rw [length_cons, Nat.sub_sub, Nat.add_comm 1]
    · calc ht'.entries ~ chain ++ ht.entries := hperm'
        _ ~ chain ++ de :: d.ht1.entries := hperm.append_left chain
        _ ~ de :: chain ++ d.ht1.entries := perm_middle

theorem dictSkipEmpty_bucket {table : List (List (DictEntry K V))} {idx : ℕ} {de : DictEntry K V}
    {chain : List (DictEntry K V)} (h : table[idx]? = some (de :: chain)) (visits : ℕ) :
    dictSkipEmpty table visits idx = .ok (.bucket idx visits (de :: chain)) := by
  unfold dictSkipEmpty
  simp only [h]
  rfl

theorem dictSkipEmpty_stop {table : List (List (DictEntry K V))} {idx : ℕ}
    (h : table[idx]? = some []) : dictSkipEmpty table 0 idx = .ok (.stop (idx + 1)) := by
  unfold dictSkipEmpty
  simp only [h]
  rfl

theorem dictSkipEmpty_skip {table : List (List (DictEntry K V))} {idx : ℕ}
    (h : table[idx]? = some []) (visits : ℕ) :
    dictSkipEmpty table (visits + 1) idx = dictSkipEmpty table visits (idx + 1) := by
  conv_lhs => unfold dictSkipEmpty
  simp only [h]

/-- The scan ends at a bucket with all buckets before it empty, or it stops among the empty ones;
with an entry ahead it stays inside the table. -/
theorem dictSkipEmpty_spec {table : List (List (DictEntry K V))} {k : ℕ} {he : DictEntry K V}
    {c : List (DictEntry K V)} (hk : table[k]? = some (he :: c)) (visits idx : ℕ) (hidx : idx ≤ k) :
    ∃ idx', idx ≤ idx' ∧ (∀ j, idx ≤ j → j < idx' → table[j]? = some []) ∧
      ((∃ visits' chain, dictSkipEmpty table visits idx = .ok (.bucket idx' visits' chain) ∧
          table[idx']? = some chain) ∨
        (dictSkipEmpty table visits idx = .ok (.stop idx') ∧ idx < idx' ∧ idx' ≤ k)) := by
  induction visits generalizing idx with
  | zero =>
    rcases hget : table[idx]? with _ | _ | ⟨de, chain⟩
    · -- past the table: the entry at `k` is inside, and `idx ≤ k`
      have := (List.getElem?_eq_some_iff.1 hk).1
      rw [List.getElem?_eq_none_iff] at hget
      omega
    · have hne : idx ≠ k := fun h => by simp [h, hk] at hget
      refine ⟨idx + 1, by omega, fun j hj hj' => ?_, .inr ⟨dictSkipEmpty_stop hget, ?_, ?_⟩⟩
      · rw [show j = idx by omega, hget]
      · omega
      · omega
    · exact ⟨idx, le_rfl, by omega, .inl ⟨0, de :: chain, dictSkipEmpty_bucket hget 0, hget⟩⟩
  | succ visits ih =>
    rcases hget : table[idx]? with _ | _ | ⟨de, chain⟩
    · have := (List.getElem?_eq_some_iff.1 hk).1
      rw [List.getElem?_eq_none_iff] at hget
      omega
    · have hne : idx ≠ k := fun h => by simp [h, hk] at hget
      rw [dictSkipEmpty_skip hget]
      obtain ⟨idx', hle, hrest, hend⟩ := ih (idx + 1) (by omega)
      refine ⟨idx', by omega, fun j hj hj' => ?_, ?_⟩
      · rcases eq_or_lt_of_le hj with rfl | hlt
        · exact hget
        · exact hrest j hlt hj'
      · rcases hend with hb | ⟨hs, hlt, hle'⟩
        · exact .inl hb
        · exact .inr ⟨hs, by omega, hle'⟩
    · exact ⟨idx, le_rfl, by omega, .inl ⟨_, de :: chain, dictSkipEmpty_bucket hget _, hget⟩⟩

/-! ## One step -/

/-- What a step that moves entries leaves behind: the same entries in another order, the invariant,
and room for one insertion more. -/
structure Migrated (T : DictType K) (d d' : Dict K V) : Prop where
  inv : d'.Inv T
  perm : d'.entries ~ d.entries
  load : d.Load 0 0 → d'.Load 0 1

/-- Without a rehash there is nothing to move and no limit on the room. -/
theorem Inv.migrated_refl (h : d.Inv T) (hidle : d.rehashidx = none) : Migrated T d d where
  inv := h
  perm := Perm.refl _
  load hl := ⟨hl.idle, fun _ hi => by simp [hidle] at hi⟩

/-- `dictRehash(d, 1)` stopped among empty buckets. -/
theorem Inv.migrated_stop (h : d.Inv T) {i i' : ℕ} (hi : d.rehashidx = some i) (hlt : i < i')
    (hempty : ∀ j, i ≤ j → j < i' → d.ht0.table[j]? = some []) :
    Migrated T d { d with rehashidx := some i' } where
  inv :=
    { ht0 := h.ht0
      ht1 := h.ht1
      nodup := h.nodup
      idle := fun hi' => by cases hi'
      moved := fun k hk j hj => by
        cases hk
        rcases lt_or_ge j i with hji | hji
        · exact h.moved hi j hji
        · exact hempty j hji hj
      remain := fun _ => h.remain (by simp [hi])
      iterators := h.iterators }
  perm := Perm.refl _
  load hl :=
    { idle := fun hi' => by cases hi'
      moving := fun k hk => by
        cases hk
        have := hl.moving hi
        exact ⟨this.1, by dsimp only; omega⟩ }

/-- The tables after the bucket `i'` has been moved, before the check for the end of the rehash. -/
structure BucketMoved (T : DictType K) (d : Dict K V) (i' : ℕ) (h0 h1 : Dictht K V) : Prop where
  inv0 : h0.Inv T
  inv1 : h1.Inv T
  size0 : h0.size = d.ht0.size
  size1 : h1.size = d.ht1.size
  perm : h0.entries ++ h1.entries ~ d.entries
  moved : ∀ j ≤ i', h0.table[j]? = some []

/-- The rehash goes on. -/
theorem Inv.migrated_bucket (h : d.Inv T) {i i' : ℕ} {h0 h1 : Dictht K V}
    (hi : d.rehashidx = some i) (hle : i ≤ i') (hm : BucketMoved T d i' h0 h1) (hused : h0.used ≠ 0) :
    Migrated T d { d with ht0 := h0, ht1 := h1, rehashidx := some (i' + 1) } where
  inv :=
    { ht0 := hm.inv0
      ht1 := hm.inv1
      nodup := (perm_nodupKeys hm.perm).2 h.nodup
      idle := fun hi' => by cases hi'
      moved := fun k hk j hj => by
        cases hk
        exact hm.moved j (by omega)
      remain := fun _ => ⟨hused, by rw [hm.size1]; exact (h.remain (by simp [hi])).2⟩
      iterators := h.iterators }
  perm := hm.perm
  load hl :=
    { idle := fun hi' => by cases hi'
      moving := fun k hk => by
        cases hk
        have hlen := hm.perm.length_eq
        rw [length_append, ← hm.inv0.used, ← hm.inv1.used, ← h.length_entries] at hlen
        have := hl.moving hi
        dsimp only
        rw [hm.size0, hm.size1]
        exact ⟨this.1, by omega⟩ }

/-- The rehash ends: the second table takes the place of the first. -/
theorem Inv.migrated_swap (h : d.Inv T) {i i' : ℕ} {h0 h1 : Dictht K V}
    (hi : d.rehashidx = some i) (hm : BucketMoved T d i' h0 h1) (hused : h0.used = 0) :
    Migrated T d { d with ht0 := h1, ht1 := dictReset, rehashidx := none } := by
  have hnil : h0.entries = [] := (Dictht.entries_eq_nil_iff hm.inv0).2 hused
  have hperm : h1.entries ~ d.entries := by
    have := hm.perm
    rwa [hnil, nil_append] at this
  have hentries : Dict.entries { d with ht0 := h1, ht1 := dictReset, rehashidx := none }
      = h1.entries := by
    rw [entries, Dictht.entries_dictReset, append_nil]
  refine ⟨⟨hm.inv1, Dictht.inv_dictReset, ?_, ?_, ?_, ?_, h.iterators⟩, ?_, fun hl => ⟨fun _ => ?_, ?_⟩⟩
  · rw [hentries]
    exact (perm_nodupKeys hperm).2 h.nodup
  · exact fun _ => rfl
  · exact fun _ hk => by cases hk
  · exact fun hk => by cases hk
  · rw [hentries]
    exact hperm
  · -- the index was still inside the old table, of half the size
    obtain ⟨j, -, -, hij, hjlt, -⟩ := h.exists_remaining hi
    have hlen := hperm.length_eq
    rw [← hm.inv1.used, ← h.length_entries] at hlen
    have := hl.moving hi
    dsimp only
    rw [hm.size1]
    omega
  · exact fun _ hk => by cases hk

/-- Moving the chain of bucket `i'` and clearing the bucket. -/
theorem Inv.bucketMoved (h : d.Inv T) {i i' : ℕ} {chain : List (DictEntry K V)} {ht : Dictht K V}
    (hi : d.rehashidx = some i) (hempty : ∀ j, i ≤ j → j < i' → d.ht0.table[j]? = some [])
    (hchain : d.ht0.table[i']? = some chain) (hinv : ht.Inv T) (hsize : ht.size = d.ht1.size)
    (hperm : ht.entries ~ chain ++ d.ht1.entries) :
    BucketMoved T d i' { d.ht0 with
      used := d.ht0.used - chain.length, table := d.ht0.table.set i' [] } ht := by
  have hcut := flatten_set_nil_perm hchain
  have hlt := (List.getElem?_eq_some_iff.1 hchain).1
  refine ⟨⟨?_, h.ht0.size_pow, h.ht0.sizemask, ?_, ?_⟩, hinv, rfl, hsize, ?_, fun j hj => ?_⟩
  · rw [length_set]
    exact h.ht0.length
  · have hlen := hcut.length_eq
    rw [length_append] at hlen
    dsimp only [Dictht.entries]
    rw [h.ht0.used, Dictht.entries]
    omega
  · exact h.ht0.placed.set (by simp)
  · calc (d.ht0.table.set i' []).flatten ++ ht.entries
        ~ (d.ht0.table.set i' []).flatten ++ (chain ++ d.ht1.entries) := hperm.append_left _
      _ ~ chain ++ (d.ht0.table.set i' []).flatten ++ d.ht1.entries := by
          rw [← append_assoc]
          exact perm_append_comm.append_right _
      _ ~ d.ht0.entries ++ d.ht1.entries := hcut.append_right _
  · rw [getElem?_set]
    split_ifs with hij
    · rfl
    · rcases lt_or_ge j i with hji | hji
      · exact h.moved hi j hji
      · exact hempty j hji (by omega)

/-- One step of a rehash never fails. -/
theorem Inv.dictRehashStep_spec (h : d.Inv T) :
    ∃ d', dictRehashStep T d = .ok d' ∧ Migrated T d d' := by
  rw [dictRehashStep, if_pos h.iterators]
  rcases hi : d.rehashidx with _ | i
  · refine ⟨d, ?_, h.migrated_refl hi⟩
    rw [dictRehash, hi]
    rfl
  · obtain ⟨hused, hsize⟩ := h.remain (by simp [hi])
    obtain ⟨k, he, c, hik, hklt, hk⟩ := h.exists_remaining hi
    obtain ⟨i', hle, hempty, hend⟩ := dictSkipEmpty_spec hk (1 * 10 - 1) i hik
    have hnot : ¬ d.ht0.size ≤ i := by omega
    rcases hend with ⟨v, chain, hscan, hchain⟩ | ⟨hscan, hlt, -⟩
    · -- a bucket is moved, and with the last entry the rehash ends
      obtain ⟨ht, hfold, hinv, hsz, hperm⟩ := foldlM_dictMoveEntry_spec chain d h.ht1 hsize
      have hm := h.bucketMoved hi hempty hchain hinv hsz hperm
      have hloop : dictRehashLoop T 1 (1 * 10 - 1) i d = .ok ({ d with
          ht0 := { d.ht0 with
            used := d.ht0.used - chain.length, table := d.ht0.table.set i' [] }
          ht1 := ht, rehashidx := some (i' + 1) }, false) := by
        rw [dictRehashLoop, if_neg hused, if_neg hnot, hscan]
        simp only [bind, Except.bind, hfold]
        rfl
      by_cases hzero : d.ht0.used - chain.length = 0
      · refine ⟨_, ?_, h.migrated_swap hi hm hzero⟩
        simp only [dictRehash, hi, hloop, bind, Except.bind]
        rw [if_neg (by simp), if_pos hzero]
        rfl
      · refine ⟨_, ?_, h.migrated_bucket hi hle hm hzero⟩
        simp only [dictRehash, hi, hloop, bind, Except.bind]
        rw [if_neg (by simp), if_neg hzero]
        rfl
    · -- ten empty buckets in a row: only the index moves
      refine ⟨_, ?_, h.migrated_stop hi hlt hempty⟩
      have hloop : dictRehashLoop T 1 (1 * 10 - 1) i d
          = .ok ({ d with rehashidx := some i' }, true) := by
        rw [dictRehashLoop, if_neg hused, if_neg hnot, hscan]
        rfl
      simp only [dictRehash, hi, hloop, bind, Except.bind]
      rfl

theorem Inv.dictMigrate_spec (h : d.Inv T) :
    ∃ d', dictMigrate T d = .ok d' ∧ Migrated T d d' := by
  unfold dictMigrate
  by_cases hr : dictIsRehashing d = true
  · rw [if_pos hr]
    exact h.dictRehashStep_spec
  · rw [if_neg hr]
    exact ⟨d, rfl, h.migrated_refl (rehashidx_eq_none hr)⟩

end Dict

end RedisCounter
