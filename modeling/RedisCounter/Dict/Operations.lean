import Mathlib.Tactic.Linarith
import Mathlib.Tactic.Ring
import RedisCounter.Dict.Rehash

/-!
# What the operations of the dictionary do to its entries

Each operation succeeds on a dictionary with the invariant and keeps it. A lookup leaves the entries
as they are, up to their order; an insertion adds one entry; an overwrite replaces one value. Read
as partial functions (`Dict.get`) the last two are updates. `Dict.Reach` collects what any sequence
of calls can make of an empty dictionary.
-/

namespace RedisCounter

open List Buckets

variable {K V : Type} {T : DictType K}

/-! ## Growing -/

theorem dictNextPowerLoop_spec (fuel i size : ℕ) (h : size ≤ i * 2 ^ fuel) :
    ∃ m, dictNextPowerLoop fuel i size = i * 2 ^ m ∧ size ≤ i * 2 ^ m ∧
      ∀ m' < m, i * 2 ^ m' < size := by
  induction fuel generalizing i with
  | zero => exact ⟨0, by simp [dictNextPowerLoop], h, by simp⟩
  | succ fuel ih =>
    rw [dictNextPowerLoop]
    split_ifs with hi
    · exact ⟨0, by simp, by simpa using hi, by simp⟩
    · obtain ⟨m, hm, hle, hmin⟩ := ih (i * 2) (by rw [pow_succ] at h; linarith)
      refine ⟨m + 1, ?_, ?_, fun m' hm' => ?_⟩
      · rw [hm]
        ring
      · rw [pow_succ]
        linarith
      · cases m' with
        | zero => simpa using hi
        | succ m' =>
          have := hmin m' (by omega)
          rw [pow_succ]
          linarith

/-- `_dictNextPower` is the least power of two from 4 on that is not below `size`. -/
theorem dictNextPower_spec (size : ℕ) :
    ∃ n ≥ 2, dictNextPower size = 2 ^ n ∧ size ≤ 2 ^ n ∧ ∀ n' ≥ 2, n' < n → 2 ^ n' < size := by
  have hfuel : size ≤ DICT_HT_INITIAL_SIZE * 2 ^ size :=
    (Nat.lt_two_pow_self).le.trans (Nat.le_mul_of_pos_left _ (by decide))
  obtain ⟨m, hm, hle, hmin⟩ := dictNextPowerLoop_spec size DICT_HT_INITIAL_SIZE size hfuel
  have hpow : ∀ k, DICT_HT_INITIAL_SIZE * 2 ^ k = 2 ^ (k + 2) := fun k => by
    rw [DICT_HT_INITIAL_SIZE]
    ring
  rw [hpow] at hm hle
  refine ⟨m + 2, by omega, hm, hle, fun n' hn' hlt => ?_⟩
  have := hmin (n' - 2) (by omega)
  rwa [hpow, Nat.sub_add_cancel hn'] at this

/-- Doubling a table that is exactly full doubles its size. -/
theorem dictNextPower_mul_two {n : ℕ} (hn : 2 ≤ n) : dictNextPower (2 ^ n * 2) = 2 ^ n * 2 := by
  obtain ⟨m, hm2, hm, hle, hmin⟩ := dictNextPower_spec (2 ^ n * 2)
  rw [← pow_succ] at hle hmin hm ⊢
  have h1 : n + 1 ≤ m := (Nat.pow_le_pow_iff_right (by omega)).1 hle
  have h2 : ¬ n + 1 < m := fun hlt => absurd (hmin (n + 1) (by omega) hlt) (lt_irrefl _)
  rw [hm, show m = n + 1 by omega]

namespace Dict

variable {d : Dict K V} {key : K} {val : V}

/-- What growing leaves behind: the same entries, a table to insert into, and room for one entry. -/
structure Expanded (T : DictType K) (d d' : Dict K V) : Prop where
  inv : d'.Inv T
  entries : d'.entries = d.entries
  size0 : d'.ht0.size ≠ 0
  load : d.Load 0 1 → d'.Load 1 1

/-- The first table. -/
theorem Inv.expanded_first (h : d.Inv T) (hidle : d.rehashidx = none) (hs : d.ht0.size = 0) :
    Expanded T d { d with ht0 := ⟨replicate (2 ^ 2) [], 2 ^ 2, 2 ^ 2 - 1, 0⟩ } := by
  have hnil : d.ht0.entries = [] := by
    rw [Dictht.entries, length_eq_zero_iff.1 (h.ht0.length.trans hs), flatten_nil]
  have hentries : Dict.entries { d with ht0 := ⟨replicate (2 ^ 2) [], 2 ^ 2, 2 ^ 2 - 1, 0⟩ }
      = d.entries := by
    rw [entries, entries, hnil]
    rfl
  refine ⟨⟨Dictht.inv_replicate le_rfl, h.ht1, ?_, h.idle, ?_, ?_, h.iterators⟩, hentries, ?_, ?_⟩
  · rw [hentries]
    exact h.nodup
  · intro i hi
    rw [hidle] at hi
    cases hi
  · intro hsome
    rw [hidle] at hsome
    cases hsome
  · exact Nat.succ_ne_zero 3
  · refine fun _ => ⟨fun _ => Nat.le_add_left 1 3, fun i hi => ?_⟩
    rw [show d.rehashidx = some i from hi] at hidle
    cases hidle

/-- A second table, and the start of a rehash. -/
theorem Inv.expanded_second (h : d.Inv T) (hidle : d.rehashidx = none) (hs : d.ht0.size ≠ 0)
    (hfull : d.ht0.size ≤ d.ht0.used) {n : ℕ} (hn : 2 ≤ n)
    (hsize : dictNextPower (d.ht0.used * 2) = 2 ^ n) :
    Expanded T d
      { d with ht1 := ⟨replicate (2 ^ n) [], 2 ^ n, 2 ^ n - 1, 0⟩, rehashidx := some 0 } := by
  have hentries : Dict.entries { d with
      ht1 := ⟨replicate (2 ^ n) [], 2 ^ n, 2 ^ n - 1, 0⟩, rehashidx := some 0 } = d.entries := by
    rw [entries, entries, h.idle hidle, Dictht.entries_dictReset]
    simp [Dictht.entries]
  refine ⟨⟨h.ht0, Dictht.inv_replicate hn, ?_, ?_, ?_, ?_, h.iterators⟩, hentries, hs, ?_⟩
  · rw [hentries]
    exact h.nodup
  · exact fun hi => by cases hi
  · intro i hi j hj
    cases hi
    omega
  · exact fun _ => ⟨fun hu => hs (Nat.le_zero.1 (hu ▸ hfull)), (Nat.two_pow_pos n).ne'⟩
  · refine fun hl => ⟨fun hi => (by cases hi), fun i hi => ?_⟩
    cases hi
    obtain ⟨m, hm, hpow⟩ := h.ht0.size_pow hs
    have hused : d.ht0.used = d.ht0.size := le_antisymm (hl.idle hidle) hfull
    rw [hused, hpow, dictNextPower_mul_two hm] at hsize
    dsimp only
    omega

/-- Growing never fails. -/
theorem Inv.dictExpandIfNeeded_spec (h : d.Inv T) :
    ∃ d', dictExpandIfNeeded d = some d' ∧ Expanded T d d' := by
  unfold dictExpandIfNeeded
  split_ifs with hr hs hfull
  · -- a rehash in progress: nothing grows
    have hsome : d.rehashidx.isSome := hr
    exact ⟨d, rfl, h, rfl, h.ht0.size_ne_zero (h.remain hsome).1,
      fun hl => ⟨fun hi => by simp [hi] at hsome, hl.moving⟩⟩
  · have hidle : d.rehashidx = none := rehashidx_eq_none hr
    refine ⟨_, ?_, h.expanded_first hidle hs⟩
    have hused : d.ht0.used = 0 := by
      by_contra hu
      exact h.ht0.size_ne_zero hu hs
    have htable : d.ht0.table = [] := length_eq_zero_iff.1 (h.ht0.length.trans hs)
    have hpow : dictNextPower DICT_HT_INITIAL_SIZE = 4 := rfl
    unfold dictExpand
    dsimp only
    rw [if_neg (by simp [hr, hused]), hpow, if_neg (by omega), if_pos htable]
    rfl
  · -- full: the guards of `dictExpand` hold since the new size is at least twice `used`
    have hidle : d.rehashidx = none := rehashidx_eq_none hr
    obtain ⟨n, hn, hsize, hle, -⟩ := dictNextPower_spec (d.ht0.used * 2)
    refine ⟨_, ?_, h.expanded_second hidle hs hfull.1 hn hsize⟩
    have htable : d.ht0.table ≠ [] := fun ht => hs (h.ht0.length.symm.trans (by rw [ht]; rfl))
    unfold dictExpand
    dsimp only
    rw [if_neg (by simp only [hr]; simp; omega), hsize, if_neg (by omega), if_neg htable]
  · have hidle : d.rehashidx = none := rehashidx_eq_none hr
    refine ⟨d, rfl, h, rfl, hs, fun hl => ⟨fun _ => ?_, hl.moving⟩⟩
    have hlt : ¬ d.ht0.used ≥ d.ht0.size := fun hge => hfull ⟨hge, .inl rfl⟩
    omega

/-! ## Lookups -/

/-- The entry a pointer points to. -/
def At (d : Dict K V) (p : EntryPtr) (he : DictEntry K V) : Prop :=
  if p.table = 0 then d.ht0.At p.idx p.pos he else d.ht1.At p.idx p.pos he

theorem At.mem_entries {p : EntryPtr} {he : DictEntry K V} (h : d.At p he) : he ∈ d.entries := by
  unfold At at h
  split_ifs at h
  · exact mem_append_left _ h.mem_entries
  · exact mem_append_right _ h.mem_entries

theorem keys_entries (d : Dict K V) : d.entries.keys = d.ht0.entries.keys ++ d.ht1.entries.keys :=
  map_append

/-- What a lookup returns: an entry of the key with a pointer to it, or nothing if the key has no
entry. -/
inductive Found (d : Dict K V) (key : K) : Option (EntryPtr × DictEntry K V) → Prop
  | absent (h : key ∉ d.entries.keys) : Found d key none
  | present (p : EntryPtr) (val : V) (h : d.At p ⟨key, val⟩) : Found d key (some (p, ⟨key, val⟩))

/-- A lookup never fails. It leaves the entries and the bound on their number as they are, also
where it moves a bucket or ends a rehash. -/
theorem Inv.dictFind_spec (h : d.Inv T) (key : K) :
    ∃ d' r, dictFind T d key = .ok (d', r) ∧ d'.Inv T ∧ d'.entries ~ d.entries ∧
      (d.Load 0 0 → d'.Load 0 0) ∧ Found d' key r := by
  unfold dictFind
  split_ifs with hzero
  · have hnil : d.entries = [] := by
      rw [← length_eq_zero_iff, ← h.length_entries, hzero]
    exact ⟨d, none, rfl, h, Perm.refl _, id, .absent (by simp [hnil])⟩
  · obtain ⟨d', hmig, hd⟩ := h.dictMigrate_spec
    have hload : d.Load 0 0 → d'.Load 0 0 := fun hl => (hd.load hl).mono le_rfl (by omega)
    have hsum : d'.ht0.used + d'.ht1.used ≠ 0 := by
      rw [hd.inv.length_entries, hd.perm.length_eq, ← h.length_entries]
      exact hzero
    -- the step may have ended the rehash, so which table is in use is asked of `d'`
    have hs0 : d'.ht0.size ≠ 0 := by
      apply hd.inv.ht0.size_ne_zero
      rcases hi : d'.rehashidx with _ | i
      · rw [hd.inv.idle hi] at hsum
        exact hsum
      · exact (hd.inv.remain (by simp [hi])).1
    simp only [hmig, bind, Except.bind]
    rcases hd.inv.ht0.dictSearch_spec hs0 key with ⟨hsearch, habs⟩ | ⟨pos, val, hsearch, hat⟩
    · simp only [hsearch]
      by_cases hr : dictIsRehashing d' = true
      · obtain ⟨-, hs1⟩ := hd.inv.remain hr
        rcases hd.inv.ht1.dictSearch_spec hs1 key with ⟨hsearch', habs'⟩ | ⟨pos, val, hsearch', hat⟩
        · refine ⟨d', none, ?_, hd.inv, hd.perm, hload, .absent ?_⟩
          · simp [hr, hsearch', pure, Except.pure]
          · rw [keys_entries, mem_append]
            exact not_or.2 ⟨habs, habs'⟩
        · refine ⟨d', _, ?_, hd.inv, hd.perm, hload, .present ⟨1, d'.ht1.index T key, pos⟩ val ?_⟩
          · simp [hr, hsearch', pure, Except.pure]
          · rw [At, if_neg (by simp)]
            exact hat
      · refine ⟨d', none, ?_, hd.inv, hd.perm, hload, .absent ?_⟩
        · simp [hr, pure, Except.pure]
        · have hidle : d'.rehashidx = none := rehashidx_eq_none hr
          rw [keys_entries, hd.inv.idle hidle]
          simpa using habs
    · refine ⟨d', _, ?_, hd.inv, hd.perm, hload, .present ⟨0, d'.ht0.index T key, pos⟩ val ?_⟩
      · simp [hsearch, pure, Except.pure]
      · rw [At, if_pos rfl]
        exact hat

/-! ## Insertions -/

/-- The table new entries go to. -/
def newest (d : Dict K V) : Dictht K V := if dictIsRehashing d then d.ht1 else d.ht0

/-- The bucket of an absent key is one of the newest table. -/
theorem Inv.dictKeyIndex_spec (h : d.Inv T) (hkey : key ∉ d.entries.keys) :
    ∃ d', dictKeyIndex T d key = .ok (d', some (d'.newest.index T key)) ∧ Expanded T d d' := by
  obtain ⟨d', hexp, hd⟩ := h.dictExpandIfNeeded_spec
  rw [← hd.entries, keys_entries, mem_append, not_or] at hkey
  refine ⟨d', ?_, hd⟩
  simp only [dictKeyIndex, hexp, bind, Except.bind]
  rcases hd.inv.ht0.dictSearch_spec hd.size0 key with ⟨hsearch, -⟩ | ⟨pos, val, -, hat⟩
  · simp only [hsearch]
    by_cases hr : dictIsRehashing d' = true
    · obtain ⟨-, hs1⟩ := hd.inv.remain hr
      rcases hd.inv.ht1.dictSearch_spec hs1 key with ⟨hsearch', -⟩ | ⟨pos, val, -, hat⟩
      · simp [hr, hsearch', newest, pure, Except.pure]
      · exact absurd (mem_keys_of_mem hat.mem_entries) hkey.2
    · simp [hr, newest, pure, Except.pure]
  · exact absurd (mem_keys_of_mem hat.mem_entries) hkey.1

/-- A key that is there has no bucket to go to. -/
theorem Inv.dictKeyIndex_present (h : d.Inv T) (hkey : key ∈ d.entries.keys) :
    ∃ d', dictKeyIndex T d key = .ok (d', none) ∧ Expanded T d d' := by
  obtain ⟨d', hexp, hd⟩ := h.dictExpandIfNeeded_spec
  rw [← hd.entries, keys_entries, mem_append] at hkey
  refine ⟨d', ?_, hd⟩
  simp only [dictKeyIndex, hexp, bind, Except.bind]
  rcases hd.inv.ht0.dictSearch_spec hd.size0 key with ⟨hsearch, habs⟩ | ⟨pos, val, hsearch, -⟩
  · have hkey1 := hkey.resolve_left habs
    have hr : dictIsRehashing d' = true := by
      by_contra hr
      have hidle : d'.rehashidx = none := rehashidx_eq_none hr
      rw [hd.inv.idle hidle] at hkey1
      simp at hkey1
    obtain ⟨-, hs1⟩ := hd.inv.remain hr
    rcases hd.inv.ht1.dictSearch_spec hs1 key with ⟨-, habs'⟩ | ⟨pos, val, hsearch', -⟩
    · exact absurd hkey1 habs'
    · simp [hsearch, hr, hsearch', pure, Except.pure]
  · simp [hsearch, pure, Except.pure]

/-- What an insertion leaves behind: one entry more, in the room that growing has left. -/
structure Inserted (T : DictType K) (d : Dict K V) (entry : DictEntry K V) (d' : Dict K V) : Prop where
  inv : d'.Inv T
  perm : d'.entries ~ entry :: d.entries
  load : d.Load 1 1 → d'.Load 0 0

/-- Without a rehash the entry goes to the first table. -/
theorem Inv.inserted_first (h : d.Inv T) (hkey : key ∉ d.entries.keys) {ht : Dictht K V}
    (hidle : d.rehashidx = none) (hinv : ht.Inv T) (hsize : ht.size = d.ht0.size)
    (hperm : ht.entries ~ ⟨key, val⟩ :: d.ht0.entries) :
    Inserted T d ⟨key, val⟩ { d with ht0 := ht } := by
  have hentries : Dict.entries { d with ht0 := ht } ~ ⟨key, val⟩ :: d.entries :=
    hperm.append_right _
  have hnever : ∀ i, d.rehashidx ≠ some i := by
    intro i hi
    rw [hidle] at hi
    cases hi
  refine ⟨⟨hinv, h.ht1, ?_, h.idle, ?_, ?_, h.iterators⟩, hentries, fun hl => ⟨fun _ => ?_, ?_⟩⟩
  · exact nodupKeys_cons_of_perm h.nodup hkey hentries
  · exact fun i hi => absurd hi (hnever i)
  · intro hsome
    obtain ⟨i, hi⟩ := Option.isSome_iff_exists.1 hsome
    exact absurd hi (hnever i)
  · have hroom := hl.idle hidle
    have hlen := hperm.length_eq
    rw [length_cons, ← hinv.used, ← h.ht0.used] at hlen
    dsimp only at hroom ⊢
    omega
  · exact fun i hi => absurd hi (hnever i)

/-- During a rehash the entry goes to the second table. -/
theorem Inv.inserted_second (h : d.Inv T) (hkey : key ∉ d.entries.keys) {ht : Dictht K V}
    (hr : d.rehashidx.isSome) (hinv : ht.Inv T) (hsize : ht.size = d.ht1.size)
    (hperm : ht.entries ~ ⟨key, val⟩ :: d.ht1.entries) :
    Inserted T d ⟨key, val⟩ { d with ht1 := ht } := by
  have hentries : Dict.entries { d with ht1 := ht } ~ ⟨key, val⟩ :: d.entries :=
    (hperm.append_left _).trans perm_middle
  obtain ⟨hu0, hs1⟩ := h.remain hr
  refine ⟨⟨h.ht0, hinv, ?_, ?_, h.moved, ?_, h.iterators⟩, hentries,
    fun hl => ⟨fun hi => Nat.le_of_succ_le (hl.idle hi), fun i hi => ?_⟩⟩
  · exact nodupKeys_cons_of_perm h.nodup hkey hentries
  · intro hi
    rw [show d.rehashidx = none from hi] at hr
    cases hr
  · exact fun _ => ⟨hu0, by dsimp only; rw [hsize]; exact hs1⟩
  · obtain ⟨hsz, hroom⟩ := hl.moving hi
    have hlen := hperm.length_eq
    rw [length_cons, ← hinv.used, ← h.ht1.used] at hlen
    dsimp only at hroom ⊢
    exact ⟨hsize.trans hsz, by omega⟩

/-- Adding an absent key succeeds and adds its entry. The move that precedes the insertion pays for
the room it takes. -/
theorem Inv.dictAdd_spec (h : d.Inv T) (hkey : key ∉ d.entries.keys) (val : V) :
    ∃ d', dictAdd T d key val = .ok (d', true) ∧ d'.Inv T ∧ d'.entries ~ ⟨key, val⟩ :: d.entries ∧
      (d.Load 0 0 → d'.Load 0 0) := by
  obtain ⟨d1, hmig, hd1⟩ := h.dictMigrate_spec
  have hkey1 : key ∉ d1.entries.keys := fun hmem => hkey ((hd1.perm.map _).mem_iff.1 hmem)
  obtain ⟨d2, hidx, hd2⟩ := hd1.inv.dictKeyIndex_spec hkey1
  have hperm2 : d2.entries ~ d.entries := by
    rw [hd2.entries]
    exact hd1.perm
  have hkey2 : key ∉ d2.entries.keys := by
    rw [hd2.entries]
    exact hkey1
  suffices hins : ∃ d', dictAdd T d key val = .ok (d', true) ∧ Inserted T d2 ⟨key, val⟩ d' by
    obtain ⟨d', hadd, hd'⟩ := hins
    exact ⟨d', hadd, hd'.inv, hd'.perm.trans (hperm2.cons _),
      fun hl => hd'.load (hd2.load (hd1.load hl))⟩
  simp only [dictAdd, dictAddRaw, hmig, hidx, bind, Except.bind]
  by_cases hr : dictIsRehashing d2 = true
  · obtain ⟨ht, hins, hinv, hsize, hperm⟩ :=
      hd2.inv.ht1.dictInsertAt_spec (hd2.inv.remain hr).2 ⟨key, val⟩
    refine ⟨_, ?_, hd2.inv.inserted_second hkey2 hr hinv hsize hperm⟩
    simp only [newest, hr, if_true, hins]
    rfl
  · obtain ⟨ht, hins, hinv, hsize, hperm⟩ := hd2.inv.ht0.dictInsertAt_spec hd2.size0 ⟨key, val⟩
    refine ⟨_, ?_, hd2.inv.inserted_first hkey2 (rehashidx_eq_none hr) hinv hsize hperm⟩
    simp only [newest, hr, Bool.false_eq_true, if_false, hins]
    rfl

/-- Adding a key that is there fails, and changes no entry. -/
theorem Inv.dictAdd_present (h : d.Inv T) (hkey : key ∈ d.entries.keys) (val : V) :
    ∃ d', dictAdd T d key val = .ok (d', false) ∧ d'.Inv T ∧ d'.entries ~ d.entries ∧
      (d.Load 0 0 → d'.Load 0 0) := by
  obtain ⟨d1, hmig, hd1⟩ := h.dictMigrate_spec
  have hkey1 : key ∈ d1.entries.keys := (hd1.perm.map _).mem_iff.2 hkey
  obtain ⟨d2, hidx, hd2⟩ := hd1.inv.dictKeyIndex_present hkey1
  refine ⟨d2, ?_, hd2.inv, ?_, fun hl => (hd2.load (hd1.load hl)).mono (by omega) (by omega)⟩
  · simp only [dictAdd, dictAddRaw, hmig, hidx, bind, Except.bind]
    rfl
  · rw [hd2.entries]
    exact hd1.perm

/-! ## Overwrites -/

/-- Overwriting through a pointer replaces the value of that entry in its table. -/
theorem exists_entries_dictSetVal (h0 : d.ht0.Inv T) (h1 : d.ht1.Inv T) {p : EntryPtr}
    (hat : d.At p ⟨key, val⟩) (val' : V) :
    ((dictSetVal d p val').ht0.Inv T ∧ (dictSetVal d p val').ht1.Inv T) ∧
      ∃ pre post, d.entries = pre ++ ⟨key, val⟩ :: post ∧
        (dictSetVal d p val').entries = pre ++ ⟨key, val'⟩ :: post := by
  unfold At at hat
  unfold dictSetVal
  split_ifs at hat ⊢ with htable
  · obtain ⟨hinv, pre, post, hpre, hpost⟩ := Dictht.dicthtSetVal_spec h0 hat val'
    refine ⟨⟨hinv, h1⟩, pre, post ++ d.ht1.entries, ?_, ?_⟩
    · rw [entries, hpre]
      simp
    · rw [entries, hpost]
      simp
  · obtain ⟨hinv, pre, post, hpre, hpost⟩ := Dictht.dicthtSetVal_spec h1 hat val'
    refine ⟨⟨h0, hinv⟩, d.ht0.entries ++ pre, post, ?_, ?_⟩
    · rw [entries, hpre]
      simp
    · rw [entries, hpost]
      simp

/-- The keys stay distinct. -/
theorem nodup_dictSetVal (h0 : d.ht0.Inv T) (h1 : d.ht1.Inv T) (hnodup : d.entries.NodupKeys)
    {p : EntryPtr} (hat : d.At p ⟨key, val⟩) (val' : V) : (dictSetVal d p val').entries.NodupKeys := by
  obtain ⟨-, pre, post, hentries, hentries'⟩ := exists_entries_dictSetVal h0 h1 hat val'
  rw [hentries', NodupKeys, keys_replace, ← hentries]
  exact hnodup

/-- An empty bucket stays empty. -/
theorem table_dicthtSetVal {ht : Dictht K V} {j : ℕ} (hj : ht.table[j]? = some []) (idx pos : ℕ)
    (val' : V) : (dicthtSetVal ht idx pos val').table[j]? = some [] := by
  rw [dicthtSetVal, getElem?_modify, hj]
  split_ifs <;> simp

/-- Overwriting through a pointer replaces the value of that entry and nothing else. -/
theorem Inv.dictSetVal_spec (h : d.Inv T) {p : EntryPtr} (hat : d.At p ⟨key, val⟩) (val' : V) :
    (dictSetVal d p val').Inv T ∧ (d.Load 0 0 → (dictSetVal d p val').Load 0 0) ∧
      ∃ pre post, d.entries = pre ++ ⟨key, val⟩ :: post ∧
        (dictSetVal d p val').entries = pre ++ ⟨key, val'⟩ :: post := by
  obtain ⟨⟨h0, h1⟩, hsplit⟩ := exists_entries_dictSetVal h.ht0 h.ht1 hat val'
  have hnodup := nodup_dictSetVal h.ht0 h.ht1 h.nodup hat val'
  by_cases htable : p.table = 0
  · have hset : dictSetVal d p val' = { d with ht0 := dicthtSetVal d.ht0 p.idx p.pos val' } :=
      if_pos htable
    rw [hset] at h0 h1 hnodup hsplit ⊢
    exact ⟨⟨h0, h1, hnodup, h.idle, fun i hi j hj => table_dicthtSetVal (h.moved hi j hj) _ _ _,
      h.remain, h.iterators⟩, fun hl => ⟨hl.idle, hl.moving⟩, hsplit⟩
  · have hset : dictSetVal d p val' = { d with ht1 := dicthtSetVal d.ht1 p.idx p.pos val' } :=
      if_neg htable
    rw [hset] at h0 h1 hnodup hsplit ⊢
    refine ⟨⟨h0, h1, hnodup, fun hi => ?_, h.moved, h.remain, h.iterators⟩,
      fun hl => ⟨hl.idle, hl.moving⟩, hsplit⟩
    -- without a rehash there is no entry in the second table to point to
    rw [At, if_neg htable] at hat
    have hmem := hat.mem_entries
    rw [h.idle hi] at hmem
    simp at hmem

/-! ## Dictionaries as partial functions -/

section Get

variable [DecidableEq K]

/-- The value of a key. -/
def get (d : Dict K V) : K → Option V := toFun d.entries

theorem Inv.get_eq_of_perm {d' : Dict K V} (h : d.Inv T) (hp : d'.entries ~ d.entries) :
    d'.get = d.get :=
  (toFun_perm h.nodup hp.symm).symm

theorem Inv.get_eq_of_perm_cons {d' : Dict K V} (h' : d'.Inv T)
    (hp : d'.entries ~ ⟨key, val⟩ :: d.entries) : d'.get = Function.update d.get key (some val) :=
  (toFun_perm h'.nodup hp).trans toFun_cons

theorem Inv.get_dictSetVal (h : d.Inv T) {p : EntryPtr} (hat : d.At p ⟨key, val⟩) (val' : V) :
    (dictSetVal d p val').get = Function.update d.get key (some val') := by
  obtain ⟨-, -, pre, post, hentries, hentries'⟩ := h.dictSetVal_spec hat val'
  have hnodup := h.nodup
  rw [hentries] at hnodup
  rw [get, get, hentries, hentries']
  exact toFun_replace hnodup

theorem get_eq_none_iff : d.get key = none ↔ key ∉ d.entries.keys := toFun_eq_none_iff

/-- A lookup returns the value of its key. -/
theorem Found.get_eq {r : Option (EntryPtr × DictEntry K V)} (h : d.Inv T) (hr : Found d key r) :
    d.get key = r.map fun x => x.2.2 := by
  rcases hr with habs | ⟨p, val, hat⟩
  · exact get_eq_none_iff.2 habs
  · exact (toFun_eq_some_iff h.nodup).2 hat.mem_entries

/-- `dictFetchValue` returns the value of its key and changes no value. -/
theorem Inv.dictFetchValue_spec (h : d.Inv T) (key : K) :
    ∃ d', dictFetchValue T d key = .ok (d', d.get key) ∧ d'.Inv T ∧ d'.get = d.get ∧
      (d.Load 0 0 → d'.Load 0 0) := by
  obtain ⟨d', r, hfind, hinv, hperm, hload, hr⟩ := h.dictFind_spec key
  have hget := h.get_eq_of_perm hperm
  refine ⟨d', ?_, hinv, hget, hload⟩
  simp only [dictFetchValue, hfind, bind, Except.bind]
  rw [← hget, hr.get_eq hinv]
  rfl

end Get

/-! ## Any sequence of calls -/

/-- The dictionaries that calls to the dictionary's interface make of an empty one; an overwrite goes
through a pointer that a lookup has just returned. -/
inductive Reach (T : DictType K) : Dict K V → Prop
  | create : Reach T dictCreate
  | find {d d' : Dict K V} {key : K} {r : Option (EntryPtr × DictEntry K V)} (h : Reach T d)
      (hfind : dictFind T d key = .ok (d', r)) : Reach T d'
  | add {d d' : Dict K V} {key : K} {val : V} {ok : Bool} (h : Reach T d)
      (hadd : dictAdd T d key val = .ok (d', ok)) : Reach T d'
  | setVal {d d' : Dict K V} {key : K} {p : EntryPtr} {he : DictEntry K V} (h : Reach T d)
      (hfind : dictFind T d key = .ok (d', some (p, he))) (val : V) : Reach T (dictSetVal d' p val)

/-- Every call keeps the invariant and the bound. -/
theorem Reach.inv_load (h : Reach T d) : d.Inv T ∧ d.Load 0 0 := by
  induction h with
  | create => exact ⟨inv_dictCreate, load_dictCreate⟩
  | @find d d' key r _ hfind ih =>
    obtain ⟨d1, r1, hfind1, hinv, -, hload, -⟩ := ih.1.dictFind_spec key
    rw [hfind1] at hfind
    cases hfind
    exact ⟨hinv, hload ih.2⟩
  | @add d d' key val ok _ hadd ih =>
    by_cases hkey : key ∈ d.entries.keys
    · obtain ⟨d1, hadd1, hinv, -, hload⟩ := ih.1.dictAdd_present hkey val
      rw [hadd1] at hadd
      cases hadd
      exact ⟨hinv, hload ih.2⟩
    · obtain ⟨d1, hadd1, hinv, -, hload⟩ := ih.1.dictAdd_spec hkey val
      rw [hadd1] at hadd
      cases hadd
      exact ⟨hinv, hload ih.2⟩
  | @setVal d d' key p he _ hfind val ih =>
    obtain ⟨d1, r1, hfind1, hinv, -, hload, hr⟩ := ih.1.dictFind_spec key
    rw [hfind1] at hfind
    cases hfind
    rcases hr with _ | ⟨_, val1, hat⟩
    obtain ⟨hinv', hload', -⟩ := hinv.dictSetVal_spec hat val
    exact ⟨hinv', hload' (hload ih.2)⟩

/-- The bound on the number of entries, as the tables show it. -/
structure Bounded (d : Dict K V) : Prop where
  idle : d.rehashidx = none → d.ht0.used ≤ d.ht0.size
  double : d.rehashidx.isSome → d.ht1.size = 2 * d.ht0.size
  moving : d.rehashidx.isSome → d.ht0.used + d.ht1.used ≤ d.ht1.size
  newest : d.entries.length ≤ d.newest.size

/-- The index is still inside the first table, so the insertions since the expansion are fewer than
its buckets. -/
theorem Inv.bounded (h : d.Inv T) (hl : d.Load 0 0) : d.Bounded := by
  have hmoving : d.rehashidx.isSome → d.ht1.size = 2 * d.ht0.size ∧
      d.ht0.used + d.ht1.used ≤ d.ht1.size := by
    intro hsome
    obtain ⟨i, hi⟩ := Option.isSome_iff_exists.1 hsome
    obtain ⟨j, -, -, hij, hjlt, -⟩ := h.exists_remaining hi
    have := hl.moving hi
    exact ⟨this.1, by omega⟩
  refine ⟨hl.idle, fun hs => (hmoving hs).1, fun hs => (hmoving hs).2, ?_⟩
  rw [← h.length_entries]
  by_cases hr : dictIsRehashing d = true
  · rw [Dict.newest, if_pos hr]
    exact (hmoving hr).2
  · have hidle : d.rehashidx = none := rehashidx_eq_none hr
    have hle := hl.idle hidle
    rw [Dict.newest, if_neg hr, h.idle hidle]
    exact hle

end Dict

end RedisCounter
