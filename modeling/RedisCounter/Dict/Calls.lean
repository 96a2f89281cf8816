import RedisCounter.Dict.Sound

/-!
# What each call of the interface does

Every call succeeds on a sound dictionary and keeps it sound. Read as partial functions, a lookup and
a resize change nothing, an insertion and a replacement set one key, a deletion clears one, and what
is freed on clearing is every entry once.
-/

namespace RedisCounter

open List Buckets

variable {K V : Type} {T : DictType K}

/-! ## Unlinking from a table -/

theorem Dictht.dictUnlinkAt_spec {ht : Dictht K V} {idx pos : ℕ} {he : DictEntry K V}
    (h : ht.Inv T) (hat : ht.At idx pos he) :
    (dictUnlinkAt ht idx pos).Inv T ∧ ht.entries ~ he :: (dictUnlinkAt ht idx pos).entries ∧
      ∀ j : ℕ, ht.table[j]? = some [] → (dictUnlinkAt ht idx pos).table[j]? = some [] := by
  obtain ⟨chain, hchain, hpos⟩ := hat
  obtain ⟨pre, post, hl, hl'⟩ := exists_flatten_eraseIdx hchain hpos
  have hperm : ht.entries ~ he :: (dictUnlinkAt ht idx pos).entries := by
    rw [entries, entries, dictUnlinkAt, hl, hl']
    exact perm_middle
  refine ⟨⟨?_, h.size_pow, h.sizemask, ?_, ?_⟩, hperm, fun j hj => ?_⟩
  · rw [dictUnlinkAt, length_modify]
    exact h.length
  · have hlen := hperm.length_eq
    rw [← h.used, length_cons] at hlen
    rw [dictUnlinkAt] at hlen ⊢
    dsimp only
    omega
  · intro i b hb a ha
    rw [dictUnlinkAt, getElem?_modify, Option.map_eq_map, Option.map_eq_some_iff] at hb
    obtain ⟨c, hc, rfl⟩ := hb
    split_ifs at ha
    · exact h.placed hc a (mem_of_mem_eraseIdx ha)
    · exact h.placed hc a ha
  · rw [dictUnlinkAt, getElem?_modify, hj]
    split_ifs <;> rfl

/-- A new entry is the first of its chain. -/
theorem Dictht.at_of_dictInsertAt {ht ht' : Dictht K V} {index : ℕ} {he : DictEntry K V}
    (h : dictInsertAt ht index he = .ok ht') : ht'.At index 0 he := by
  unfold dictInsertAt at h
  rcases hget : ht.table[index]? with _ | chain
  · rw [hget] at h
    cases h
  · rw [hget] at h
    cases h
    have hlt := (List.getElem?_eq_some_iff.1 hget).1
    exact ⟨he :: chain, by rw [getElem?_set_self hlt], rfl⟩

namespace Dict

variable {d : Dict K V} {key : K} {val : V}

/-! ## Searching both tables -/

/-- The search of the first table and, while a rehash runs, of the second. -/
inductive Lookup (T : DictType K) (d : Dict K V) (key : K) : Prop
  | first {pos : ℕ} {val : V}
      (search : dictSearch T d.ht0 key = .ok (d.ht0.index T key, some (pos, ⟨key, val⟩)))
      (hat : d.ht0.At (d.ht0.index T key) pos ⟨key, val⟩)
  | second {pos : ℕ} {val : V} (hr : dictIsRehashing d = true)
      (search0 : dictSearch T d.ht0 key = .ok (d.ht0.index T key, none))
      (search1 : dictSearch T d.ht1 key = .ok (d.ht1.index T key, some (pos, ⟨key, val⟩)))
      (hat : d.ht1.At (d.ht1.index T key) pos ⟨key, val⟩)
  | absent (search0 : dictSearch T d.ht0 key = .ok (d.ht0.index T key, none))
      (search1 : dictIsRehashing d = true →
        dictSearch T d.ht1 key = .ok (d.ht1.index T key, none))
      (habs : key ∉ d.entries.keys)

theorem Sound.lookup (h : d.Sound T) (hs : d.ht0.size ≠ 0) (key : K) : Lookup T d key := by
  rcases h.ht0.dictSearch_spec hs key with ⟨hsearch, habs⟩ | ⟨pos, val, hsearch, hat⟩
  · by_cases hr : dictIsRehashing d = true
    · rcases h.ht1.dictSearch_spec (h.tables hr).2 key with ⟨hsearch', habs'⟩ | ⟨pos, val, hs', hat⟩
      · refine .absent hsearch (fun _ => hsearch') ?_
        rw [keys_entries, mem_append]
        exact not_or.2 ⟨habs, habs'⟩
      · exact .second hr hsearch hs' hat
    · refine .absent hsearch (fun hr' => absurd hr' hr) ?_
      rw [keys_entries, h.idle (rehashidx_eq_none hr)]
      simpa using habs
  · exact .first hsearch hat

/-- `dictFind` never fails, and what it returns is right for the dictionary it leaves. -/
theorem Sound.dictFind_spec (h : d.Sound T) (key : K) :
    ∃ d' r, dictFind T d key = .ok (d', r) ∧ Rehashed T d d' ∧ Found d' key r := by
  unfold dictFind
  by_cases hzero : d.ht0.used + d.ht1.used = 0
  · rw [if_pos hzero]
    have hnil : d.entries = [] := by
      rw [← length_eq_zero_iff, ← h.dictSize_eq]
      exact hzero
    exact ⟨d, none, rfl, h.rehashed_refl, .absent (by simp [hnil])⟩
  · rw [if_neg hzero]
    obtain ⟨d', hmig, hd, -⟩ := h.dictMigrate_spec
    have hs0 : d'.ht0.size ≠ 0 := by
      apply hd.sound.size0_ne_zero
      rw [hd.sound.dictSize_eq, hd.perm.length_eq, ← h.dictSize_eq]
      exact hzero
    simp only [hmig, bind, Except.bind]
    cases hd.sound.lookup hs0 key with
    | @first pos val search hat =>
      refine ⟨d', _, by simp [search, pure, Except.pure], hd,
        .present ⟨0, d'.ht0.index T key, pos⟩ val ?_⟩
      rw [At, if_pos rfl]
      exact hat
    | @second pos val hr search0 search1 hat =>
      refine ⟨d', _, by simp [search0, hr, search1, pure, Except.pure], hd,
        .present ⟨1, d'.ht1.index T key, pos⟩ val ?_⟩
      rw [At, if_neg (by simp)]
      exact hat
    | absent search0 search1 habs =>
      refine ⟨d', none, ?_, hd, .absent habs⟩
      by_cases hr : dictIsRehashing d' = true
      · simp [search0, hr, search1 hr, pure, Except.pure]
      · simp [search0, hr, pure, Except.pure]

/-- A lookup changes nothing but the rehash it moves ahead, and in an empty dictionary not even that. -/
theorem Sound.dictFind_cases (h : d.Sound T) {d' : Dict K V} {r : Option (EntryPtr × DictEntry K V)}
    (hfind : dictFind T d key = .ok (d', r)) : d' = d ∧ dictSize d = 0 ∨ dictMigrate T d = .ok d' := by
  unfold dictFind at hfind
  split_ifs at hfind with hzero
  · cases hfind
    exact .inl ⟨rfl, hzero⟩
  · refine .inr ?_
    obtain ⟨d1, hmig, hd, -⟩ := h.dictMigrate_spec
    have hs0 : d1.ht0.size ≠ 0 := by
      apply hd.sound.size0_ne_zero
      rw [hd.sound.dictSize_eq, hd.perm.length_eq, ← h.dictSize_eq]
      exact hzero
    simp only [hmig, bind, Except.bind] at hfind ⊢
    cases hd.sound.lookup hs0 key with
    | first search hat =>
      rw [search] at hfind
      cases hfind
      rfl
    | second hr search0 search1 hat =>
      simp only [search0, hr, search1, pure, Except.pure] at hfind
      cases hfind
      rfl
    | absent search0 search1 habs =>
      by_cases hr : dictIsRehashing d1 = true
      · simp only [search0, hr, search1 hr, pure, Except.pure] at hfind
        cases hfind
        rfl
      · simp only [search0, hr, pure, Except.pure] at hfind
        cases hfind
        rfl

/-! ## Growing and shrinking -/

/-- What a new table leaves behind. -/
structure Resized (T : DictType K) (d d' : Dict K V) : Prop where
  sound : d'.Sound T
  entries : d'.entries = d.entries
  iterators : d'.iterators = d.iterators
  size0 : d'.ht0.size ≠ 0

theorem Resized.rehashed {d' : Dict K V} (h : Resized T d d') : Rehashed T d d' :=
  ⟨h.sound, .of_eq h.entries, h.iterators⟩

/-- `dictExpand` to any size, larger or smaller: an error, or a second table to move to. -/
theorem Sound.dictExpand_spec (h : d.Sound T) {size : ℕ} {d' : Dict K V}
    (hexp : dictExpand d size = some d') : Resized T d d' := by
  unfold dictExpand at hexp
  dsimp only at hexp
  obtain ⟨n, hn, hpow, -, -⟩ := dictNextPower_spec size
  rw [hpow] at hexp
  split_ifs at hexp with hguard hsame hnil
  · -- the first table
    cases hexp
    have hidle : d.rehashidx = none := rehashidx_eq_none (not_or.1 hguard).1
    have hentries : Dict.entries { d with ht0 := ⟨replicate (2 ^ n) [], 2 ^ n, 2 ^ n - 1, 0⟩ }
        = d.entries := by
      rw [Dict.entries, Dict.entries, show d.ht0.entries = [] by rw [Dictht.entries, hnil]; rfl]
      simp [Dictht.entries]
    refine ⟨⟨Dictht.inv_replicate hn, h.ht1, ?_, h.idle, fun i hi => ?_, fun hs => ?_⟩, hentries, rfl,
      (Nat.two_pow_pos n).ne'⟩
    · rw [hentries]
      exact h.nodup
    · rw [show d.rehashidx = some i from hi] at hidle
      cases hidle
    · rw [show d.rehashidx = none from hidle] at hs
      cases hs
  · -- a second table
    cases hexp
    have hidle : d.rehashidx = none := rehashidx_eq_none (not_or.1 hguard).1
    have hs0 : d.ht0.size ≠ 0 := by
      rw [← h.ht0.length]
      exact fun h0 => hnil (length_eq_zero_iff.1 h0)
    have hentries : Dict.entries { d with
        ht1 := ⟨replicate (2 ^ n) [], 2 ^ n, 2 ^ n - 1, 0⟩, rehashidx := some 0 } = d.entries := by
      rw [Dict.entries, Dict.entries, h.idle hidle, Dictht.entries_dictReset]
      simp [Dictht.entries]
    refine ⟨⟨h.ht0, Dictht.inv_replicate hn, ?_, fun hi => ?_, fun i hi j hj => ?_, fun _ => ?_⟩,
      hentries, rfl, hs0⟩
    · rw [hentries]
      exact h.nodup
    · cases hi
    · cases hi
      omega
    · exact ⟨hs0, (Nat.two_pow_pos n).ne'⟩

/-- `dictResize` is an error or shrinks the table by a second one. -/
theorem Sound.dictResize_spec (h : d.Sound T) {d' : Dict K V} (hres : dictResize d = some d') :
    Resized T d d' := by
  unfold dictResize at hres
  split_ifs at hres
  exact h.dictExpand_spec hres

/-- Growing before an insertion never fails. -/
theorem Sound.dictExpandIfNeeded_spec (h : d.Sound T) :
    ∃ d', dictExpandIfNeeded d = some d' ∧ Resized T d d' := by
  suffices hsome : ∃ d', dictExpandIfNeeded d = some d' by
    obtain ⟨d', hd'⟩ := hsome
    refine ⟨d', hd', ?_⟩
    unfold dictExpandIfNeeded at hd'
    split_ifs at hd' with hr hs hfull
    · cases hd'
      exact ⟨h, rfl, rfl, (h.tables hr).1⟩
    · exact h.dictExpand_spec hd'
    · exact h.dictExpand_spec hd'
    · cases hd'
      exact ⟨h, rfl, rfl, hs⟩
  unfold dictExpandIfNeeded
  split_ifs with hr hs hfull
  · exact ⟨d, rfl⟩
  · have hused : d.ht0.used = 0 := by
      by_contra hu
      exact h.ht0.size_ne_zero hu hs
    have hpow : dictNextPower DICT_HT_INITIAL_SIZE = 4 := rfl
    unfold dictExpand
    dsimp only
    rw [if_neg (by simp [hr, hused]), hpow, if_neg (by omega)]
    split_ifs
    · exact ⟨_, rfl⟩
    · exact ⟨_, rfl⟩
  · -- full: the new size is at least twice `used`
    obtain ⟨n, hn, hsize, hle, -⟩ := dictNextPower_spec (d.ht0.used * 2)
    unfold dictExpand
    dsimp only
    rw [if_neg (by simp only [hr]; simp; omega), hsize, if_neg (by omega)]
    split_ifs
    · exact ⟨_, rfl⟩
    · exact ⟨_, rfl⟩
  · exact ⟨d, rfl⟩

/-! ## Insertions -/

theorem dictKeyIndex_eq (T : DictType K) (d : Dict K V) (key : K) :
    dictKeyIndex T d key = (dictKeyIndexExisting T d key).map fun r => (r.1, r.2.2) := by
  rw [dictKeyIndex, dictKeyIndexExisting]
  rcases dictExpandIfNeeded d with _ | d'
  · rfl
  · rcases h0 : dictSearch T d'.ht0 key with e | ⟨idx, _ | ⟨pos, he⟩⟩
    · simp only [h0, bind, Except.bind]
      rfl
    · simp only [h0, bind, Except.bind]
      by_cases hr : dictIsRehashing d' = true
      · rcases h1 : dictSearch T d'.ht1 key with e | ⟨idx', _ | ⟨pos, he⟩⟩ <;> simp [hr] <;> rfl
      · simp [hr]
        rfl
    · simp only [h0, bind, Except.bind]
      rfl

theorem dictAddRaw_eq (T : DictType K) (d : Dict K V) (key : K) (val : V) :
    dictAddRaw T d key val
      = (dictAddRawExisting T d key val).map fun r => (r.1, r.2.2.isSome) := by
  rw [dictAddRaw, dictAddRawExisting]
  rcases hm : dictMigrate T d with e | d1
  · rfl
  · simp only [bind, Except.bind, dictKeyIndex_eq]
    rcases hi : dictKeyIndexExisting T d1 key with e | ⟨d2, existing, _ | index⟩
    · rfl
    · rfl
    · simp only [Except.map]
      split_ifs
      · rcases dictInsertAt d2.ht1 index ⟨key, val⟩ with e | ht <;> rfl
      · rcases dictInsertAt d2.ht0 index ⟨key, val⟩ with e | ht <;> rfl

/-- The key has an entry to point to, or a bucket of the newest table to go to. -/
theorem Sound.dictKeyIndexExisting_spec (h : d.Sound T) (key : K) :
    ∃ d', Resized T d d' ∧
      ((key ∉ d'.entries.keys ∧
          dictKeyIndexExisting T d key = .ok (d', none, some (d'.newest.index T key))) ∨
        ∃ p val, d'.At p ⟨key, val⟩ ∧ dictKeyIndexExisting T d key = .ok (d', some p, none)) := by
  obtain ⟨d', hexp, hd⟩ := h.dictExpandIfNeeded_spec
  refine ⟨d', hd, ?_⟩
  simp only [dictKeyIndexExisting, hexp, bind, Except.bind]
  cases hd.sound.lookup hd.size0 key with
  | @first pos val search hat =>
    refine .inr ⟨⟨0, d'.ht0.index T key, pos⟩, val, ?_, by simp [search, pure, Except.pure]⟩
    rw [At, if_pos rfl]
    exact hat
  | @second pos val hr search0 search1 hat =>
    refine .inr ⟨⟨1, d'.ht1.index T key, pos⟩, val, ?_, ?_⟩
    · rw [At, if_neg (by simp)]
      exact hat
    · simp [search0, hr, search1, pure, Except.pure]
  | absent search0 search1 habs =>
    refine .inl ⟨habs, ?_⟩
    by_cases hr : dictIsRehashing d' = true
    · simp [search0, hr, search1 hr, newest, pure, Except.pure]
    · simp [search0, hr, newest, pure, Except.pure]

/-- What `dictAddRaw` leaves behind: a new entry of the key, or a pointer to the one there was. -/
inductive Added (T : DictType K) (d : Dict K V) (key : K) (val : V) (d' : Dict K V) :
    Option EntryPtr → Option EntryPtr → Prop
  | new (p : EntryPtr) (hkey : key ∉ d.entries.keys) (sound : d'.Sound T)
      (perm : d'.entries ~ ⟨key, val⟩ :: d.entries) (iterators : d'.iterators = d.iterators)
      (hat : d'.At p ⟨key, val⟩) : Added T d key val d' none (some p)
  | old (p : EntryPtr) (val' : V) (rehashed : Rehashed T d d') (hat : d'.At p ⟨key, val'⟩) :
      Added T d key val d' (some p) none

theorem Added.sound_iterators {d' : Dict K V} {existing entry : Option EntryPtr}
    (h : Added T d key val d' existing entry) : d'.Sound T ∧ d'.iterators = d.iterators := by
  cases h with
  | new p hkey sound perm iterators hat => exact ⟨sound, iterators⟩
  | old p val' rehashed hat => exact ⟨rehashed.sound, rehashed.iterators⟩

/-- `dictAddRaw` never fails. -/
theorem Sound.dictAddRawExisting_spec (h : d.Sound T) (key : K) (val : V) :
    ∃ d' existing entry, dictAddRawExisting T d key val = .ok (d', existing, entry) ∧
      Added T d key val d' existing entry := by
  obtain ⟨d1, hmig, hd1, -⟩ := h.dictMigrate_spec
  obtain ⟨d2, hd2, hidx⟩ := hd1.sound.dictKeyIndexExisting_spec key
  have hd : Rehashed T d d2 := hd1.trans hd2.rehashed
  simp only [dictAddRawExisting, hmig, bind, Except.bind]
  rcases hidx with ⟨habs, hidx⟩ | ⟨p, val', hat, hidx⟩
  · simp only [hidx]
    have hkey : key ∉ d.entries.keys := fun hmem => habs ((hd.perm.map _).mem_iff.2 hmem)
    have hcons : (⟨key, val⟩ :: d2.entries : List (DictEntry K V)).NodupKeys :=
      nodupKeys_cons.2 ⟨habs, hd2.sound.nodup⟩
    by_cases hr : dictIsRehashing d2 = true
    · obtain ⟨ht, hins, hinv, hsize, hperm⟩ :=
        hd2.sound.ht1.dictInsertAt_spec (hd2.sound.tables hr).2 ⟨key, val⟩
      have hentries : d2.ht0.entries ++ ht.entries ~ ⟨key, val⟩ :: d2.entries :=
        (hperm.append_left _).trans perm_middle
      rw [newest, if_pos hr, if_pos hr]
      simp only [hins]
      refine ⟨_, _, _, rfl, .new _ hkey ?_ ?_ hd.iterators ?_⟩
      · exact hd2.sound.set_ht1 hr hinv hsize ((perm_nodupKeys hentries).2 hcons)
      · exact hentries.trans (hd.perm.cons _)
      · rw [At, if_neg (by simp)]
        exact Dictht.at_of_dictInsertAt hins
    · obtain ⟨ht, hins, hinv, hsize, hperm⟩ := hd2.sound.ht0.dictInsertAt_spec hd2.size0 ⟨key, val⟩
      have hidle : d2.rehashidx = none := rehashidx_eq_none hr
      have hentries : ht.entries ++ d2.ht1.entries ~ ⟨key, val⟩ :: d2.entries :=
        hperm.append_right _
      rw [newest, if_neg hr, if_neg hr]
      simp only [hins]
      refine ⟨_, _, _, rfl, .new _ hkey ?_ ?_ hd.iterators ?_⟩
      · refine hd2.sound.set_ht0 hinv hsize ((perm_nodupKeys hentries).2 hcons) fun i hi => ?_
        rw [hidle] at hi
        cases hi
      · exact hentries.trans (hd.perm.cons _)
      · rw [At, if_pos rfl]
        exact Dictht.at_of_dictInsertAt hins
  · simp only [hidx]
    exact ⟨_, _, _, rfl, .old p val' hd hat⟩

/-- A new entry in front of a chain of one of the tables. -/
def Prepended (d : Dict K V) (he : DictEntry K V) (d' : Dict K V) : Prop :=
  he.1 ∉ d.entries.keys ∧ ∃ idx ht,
    (dictInsertAt d.ht0 idx he = .ok ht ∧ d' = { d with ht0 := ht }) ∨
      (dictInsertAt d.ht1 idx he = .ok ht ∧ d' = { d with ht1 := ht })

/-- An insertion moves the rehash ahead and grows, and then finds the key or puts a new entry into one
of the tables. -/
theorem Sound.dictAddRawExisting_cases (h : d.Sound T) {d' : Dict K V} {existing entry : Option EntryPtr}
    (hadd : dictAddRawExisting T d key val = .ok (d', existing, entry)) :
    ∃ d1, dictMigrate T d = .ok d1 ∧ d1.Sound T ∧
      ∃ d2, dictExpandIfNeeded d1 = some d2 ∧ Resized T d1 d2 ∧
        (d' = d2 ∨ d2.Prepended ⟨key, val⟩ d') := by
  obtain ⟨d1, hmig, hd1, -⟩ := h.dictMigrate_spec
  obtain ⟨d2, hexp, hd2⟩ := hd1.sound.dictExpandIfNeeded_spec
  refine ⟨d1, hmig, hd1.sound, d2, hexp, hd2, ?_⟩
  simp only [dictAddRawExisting, hmig, dictKeyIndexExisting, hexp, bind, Except.bind] at hadd
  cases hd2.sound.lookup hd2.size0 key with
  | first search hat =>
    simp only [search, pure, Except.pure] at hadd
    cases hadd
    exact .inl rfl
  | second hr search0 search1 hat =>
    simp only [search0, hr, search1, pure, Except.pure] at hadd
    cases hadd
    exact .inl rfl
  | absent search0 search1 habs =>
    refine .inr ⟨habs, ?_⟩
    by_cases hr : dictIsRehashing d2 = true
    · simp only [search0, hr, search1 hr, pure, Except.pure, Bool.not_true, Bool.false_eq_true,
        if_false, if_true] at hadd
      rcases hins : dictInsertAt d2.ht1 (d2.ht1.index T key) ⟨key, val⟩ with e | ht
      · rw [hins] at hadd
        cases hadd
      · rw [hins] at hadd
        cases hadd
        exact ⟨_, ht, .inr ⟨hins, rfl⟩⟩
    · simp only [search0, hr, pure, Except.pure, Bool.not_false, if_true, Bool.false_eq_true,
        if_false] at hadd
      rcases hins : dictInsertAt d2.ht0 (d2.ht0.index T key) ⟨key, val⟩ with e | ht
      · rw [hins] at hadd
        cases hadd
      · rw [hins] at hadd
        cases hadd
        exact ⟨_, ht, .inl ⟨hins, rfl⟩⟩

/-! ## Overwrites -/

/-- Overwriting through a pointer replaces the value of that entry and nothing else. -/
theorem Sound.dictSetVal_spec (h : d.Sound T) {p : EntryPtr} (hat : d.At p ⟨key, val⟩) (val' : V) :
    (dictSetVal d p val').Sound T ∧ (dictSetVal d p val').iterators = d.iterators ∧
      ∃ pre post, d.entries = pre ++ ⟨key, val⟩ :: post ∧
        (dictSetVal d p val').entries = pre ++ ⟨key, val'⟩ :: post := by
  obtain ⟨⟨h0, h1⟩, hsplit⟩ := exists_entries_dictSetVal h.ht0 h.ht1 hat val'
  have hnodup := nodup_dictSetVal h.ht0 h.ht1 h.nodup hat val'
  by_cases htable : p.table = 0
  · have hset : dictSetVal d p val' = { d with ht0 := dicthtSetVal d.ht0 p.idx p.pos val' } :=
      if_pos htable
    rw [hset] at h0 hnodup hsplit ⊢
    exact ⟨h.set_ht0 h0 rfl hnodup fun i hi j hj => table_dicthtSetVal (h.moved hi j hj) _ _ _,
      rfl, hsplit⟩
  · have hset : dictSetVal d p val' = { d with ht1 := dicthtSetVal d.ht1 p.idx p.pos val' } :=
      if_neg htable
    have hr : d.rehashidx.isSome := by
      -- without a rehash there is no entry in the second table to point to
      rw [At, if_neg htable] at hat
      by_contra hnone
      have hmem := hat.mem_entries
      rw [h.idle (by simpa using hnone)] at hmem
      simp at hmem
    rw [hset] at h1 hnodup hsplit ⊢
    exact ⟨h.set_ht1 hr h1 rfl hnodup, rfl, hsplit⟩

/-! ## Deletions -/

/-- What a deletion returns: the entry of the key, which is gone, or nothing if the key has none. -/
inductive Deleted (T : DictType K) (d : Dict K V) (key : K) (d' : Dict K V) :
    Option (DictEntry K V) → Prop
  | absent (hkey : key ∉ d.entries.keys) (rehashed : Rehashed T d d') : Deleted T d key d' none
  | present (val : V) (sound : d'.Sound T) (perm : d.entries ~ ⟨key, val⟩ :: d'.entries)
      (iterators : d'.iterators = d.iterators) : Deleted T d key d' (some ⟨key, val⟩)

theorem Deleted.sound_iterators {d' : Dict K V} {he : Option (DictEntry K V)}
    (h : Deleted T d key d' he) : d'.Sound T ∧ d'.iterators = d.iterators := by
  cases h with
  | absent hkey rehashed => exact ⟨rehashed.sound, rehashed.iterators⟩
  | present val sound perm iterators => exact ⟨sound, iterators⟩

/-- `dictGenericDelete` never fails, not even where the rehash it continues has emptied the first
table. -/
theorem Sound.dictGenericDelete_spec (h : d.Sound T) (key : K) :
    ∃ d' he, dictGenericDelete T d key = .ok (d', he) ∧ Deleted T d key d' he := by
  unfold dictGenericDelete
  by_cases hzero : d.ht0.used = 0 ∧ d.ht1.used = 0
  · rw [if_pos hzero]
    have hnil : d.entries = [] := by
      rw [← length_eq_zero_iff, ← h.dictSize_eq, dictSize, hzero.1, hzero.2]
    exact ⟨d, none, rfl, .absent (by simp [hnil]) h.rehashed_refl⟩
  · rw [if_neg hzero]
    obtain ⟨d1, hmig, hd, -⟩ := h.dictMigrate_spec
    have hs0 : d1.ht0.size ≠ 0 := by
      apply hd.sound.size0_ne_zero
      rw [hd.sound.dictSize_eq, hd.perm.length_eq, ← h.dictSize_eq, dictSize]
      omega
    simp only [hmig, bind, Except.bind]
    cases hd.sound.lookup hs0 key with
    | @first pos val search hat =>
      obtain ⟨hinv, hperm, hempty⟩ := Dictht.dictUnlinkAt_spec hd.sound.ht0 hat
      have hcut : d1.entries ~ ⟨key, val⟩ ::
          ((dictUnlinkAt d1.ht0 (d1.ht0.index T key) pos).entries ++ d1.ht1.entries) :=
        hperm.append_right _
      have hnodup := (perm_nodupKeys hcut).1 hd.sound.nodup
      refine ⟨{ d1 with ht0 := dictUnlinkAt d1.ht0 (d1.ht0.index T key) pos }, _,
        by simp only [search]; rfl, .present val ?_ (hd.perm.symm.trans hcut) hd.iterators⟩
      exact hd.sound.set_ht0 hinv rfl (nodupKeys_cons.1 hnodup).2 fun i hi j hj =>
        hempty j (hd.sound.moved hi j hj)
    | @second pos val hr search0 search1 hat =>
      obtain ⟨hinv, hperm, -⟩ := Dictht.dictUnlinkAt_spec hd.sound.ht1 hat
      have hcut : d1.entries ~ ⟨key, val⟩ ::
          (d1.ht0.entries ++ (dictUnlinkAt d1.ht1 (d1.ht1.index T key) pos).entries) :=
        (hperm.append_left _).trans perm_middle
      have hnodup := (perm_nodupKeys hcut).1 hd.sound.nodup
      refine ⟨{ d1 with ht1 := dictUnlinkAt d1.ht1 (d1.ht1.index T key) pos }, _,
        by simp only [search0, search1, hr]; rfl, .present val ?_ (hd.perm.symm.trans hcut)
          hd.iterators⟩
      exact hd.sound.set_ht1 hr hinv rfl (nodupKeys_cons.1 hnodup).2
    | absent search0 search1 habs =>
      have hkey : key ∉ d.entries.keys := fun hmem => habs ((hd.perm.map _).mem_iff.2 hmem)
      refine ⟨d1, none, ?_, .absent hkey hd⟩
      by_cases hr : dictIsRehashing d1 = true
      · simp [search0, hr, search1 hr, pure, Except.pure]
      · simp [search0, hr, pure, Except.pure]

/-- The entry of a key taken out of its chain in one of the tables. -/
def Unlinked (d : Dict K V) (key : K) (d' : Dict K V) : Prop :=
  (∃ idx pos val, d.ht0.At idx pos ⟨key, val⟩ ∧ d' = { d with ht0 := dictUnlinkAt d.ht0 idx pos }) ∨
    ∃ idx pos val, d.ht1.At idx pos ⟨key, val⟩ ∧ d' = { d with ht1 := dictUnlinkAt d.ht1 idx pos }

/-- A deletion moves the rehash ahead and then takes the entry out of its chain. -/
theorem Sound.dictGenericDelete_cases (h : d.Sound T) {d' : Dict K V} {he : Option (DictEntry K V)}
    (hdel : dictGenericDelete T d key = .ok (d', he)) :
    d' = d ∧ dictSize d = 0 ∨ ∃ d1, dictMigrate T d = .ok d1 ∧ (d' = d1 ∨ d1.Unlinked key d') := by
  unfold dictGenericDelete at hdel
  split_ifs at hdel with hzero
  · cases hdel
    exact .inl ⟨rfl, by rw [dictSize, hzero.1, hzero.2]⟩
  · refine .inr ?_
    obtain ⟨d1, hmig, hd, -⟩ := h.dictMigrate_spec
    have hs0 : d1.ht0.size ≠ 0 := by
      apply hd.sound.size0_ne_zero
      rw [hd.sound.dictSize_eq, hd.perm.length_eq, ← h.dictSize_eq, dictSize]
      omega
    refine ⟨d1, hmig, ?_⟩
    simp only [hmig, bind, Except.bind] at hdel
    cases hd.sound.lookup hs0 key with
    | first search hat =>
      rw [search] at hdel
      cases hdel
      exact .inr (.inl ⟨_, _, _, hat, rfl⟩)
    | second hr search0 search1 hat =>
      simp only [search0, hr, search1, pure, Except.pure] at hdel
      cases hdel
      exact .inr (.inr ⟨_, _, _, hat, rfl⟩)
    | absent search0 search1 habs =>
      refine .inl ?_
      by_cases hr : dictIsRehashing d1 = true
      · simp only [search0, hr, search1 hr, pure, Except.pure] at hdel
        cases hdel
        rfl
      · simp only [search0, hr, pure, Except.pure] at hdel
        cases hdel
        rfl

/-! ## Clearing -/

theorem dictClearLoop_eq {table : List (List (DictEntry K V))} {used : ℕ}
    (h : used = table.flatten.length) : dictClearLoop table used = table.flatten := by
  induction table generalizing used with
  | nil => rfl
  | cons chain table ih =>
    rw [flatten_cons, length_append] at h
    rw [dictClearLoop, flatten_cons]
    split_ifs with hpos
    · rw [ih (by omega)]
    · -- no entries left: the loop ends before the last bucket
      have hnil : chain = [] ∧ table.flatten = [] := by
        constructor
        · rw [← length_eq_zero_iff]
          omega
        · rw [← length_eq_zero_iff]
          omega
      rw [hnil.1, hnil.2, append_nil]

/-- `dictEmpty` frees every entry once, and what it leaves is as `dictCreate` made it. -/
theorem Sound.dictEmpty_eq (h : d.Sound T) : dictEmpty d = (dictCreate, d.entries) := by
  rw [dictEmpty, dictClear, dictClear, dictClearLoop_eq h.ht0.used, dictClearLoop_eq h.ht1.used]
  rfl

/-! ## Rehashing for a time -/

/-- The index never leaves the first table. -/
theorem Sound.rehashidx_le (h : d.Sound T) {i : ℕ} (hi : d.rehashidx = some i) :
    i ≤ d.ht0.size := by
  by_contra hlt
  have hget := h.moved hi d.ht0.size (by omega)
  have hlen := (List.getElem?_eq_some_iff.1 hget).1
  rw [h.ht0.length] at hlen
  omega

/-- The loop of `dictRehashMilliseconds` never fails. With fuel for the buckets ahead it ends because
there is no more to do or because of the clock, and what it counts are buckets it has passed. -/
theorem Sound.dictRehashFor_spec (h : d.Sound T) (ms : ℤ) (clock : ℕ → ℤ) (fuel k : ℕ)
    (hfuel : ∀ i, d.rehashidx = some i → d.ht0.size < i + fuel * 100) :
    ∃ d' m, dictRehashFor T ms clock fuel k d = .ok (d', m * 100) ∧ Rehashed T d d' ∧ k ≤ m ∧
      Ahead ((m - k) * 100) d d' ∧ (d'.rehashidx.isSome → k < m ∧ ms < clock m - clock 0) ∧
      d.rehashidx.getD 0 + (m - k) * 100 ≤ d.ht0.size := by
  have hindex : d.rehashidx.getD 0 ≤ d.ht0.size := by
    rcases hi : d.rehashidx with _ | i
    · exact Nat.zero_le _
    · exact h.rehashidx_le hi
  induction fuel generalizing d k with
  | zero =>
    -- the index is still inside the table, so no rehash runs
    have hnone : ∀ i, ¬ d.rehashidx = some i := fun i hi => by
      have := hfuel i hi
      have := h.rehashidx_le hi
      omega
    refine ⟨d, k, rfl, h.rehashed_refl, le_rfl, by rw [Nat.sub_self]; exact .refl d, fun hs => ?_,
      by omega⟩
    obtain ⟨i, hi⟩ := Option.isSome_iff_exists.1 hs
    exact absurd hi (hnone i)
  | succ fuel ih =>
    obtain ⟨d1, more, hok, hp⟩ := h.dictRehashMore_spec 100
    simp only [dictRehashFor, hok, bind, Except.bind]
    by_cases hmore : more = true
    · obtain ⟨i1, hi1⟩ := Option.isSome_iff_exists.1 (hp.more_iff.1 hmore)
      obtain ⟨i, hi, hle, hsize0, hsize1⟩ := hp.ahead.going i1 hi1
      have hle1 := hp.rehashed.sound.rehashidx_le hi1
      rw [if_neg (by simp [hmore]), hi, Option.getD_some]
      by_cases hclock : clock (k + 1) - clock 0 > ms
      · rw [if_pos hclock]
        refine ⟨d1, k + 1, rfl, hp.rehashed, by omega, ?_, fun _ => ⟨by omega, hclock⟩, by omega⟩
        rw [Nat.add_sub_cancel_left]
        exact hp.ahead
      · rw [if_neg hclock]
        have hfuel1 : ∀ j, d1.rehashidx = some j → d1.ht0.size < j + fuel * 100 := by
          intro j hj
          obtain ⟨j', hj', hle', hsize', -⟩ := hp.ahead.going j hj
          have := hfuel j' hj'
          omega
        obtain ⟨d', m, hrun, hr, hkm, hahead, hend, hcount⟩ :=
          ih hp.rehashed.sound (k + 1) hfuel1 (by rwa [hi1])
        rw [hi1, Option.getD_some] at hcount
        refine ⟨d', m, hrun, hp.rehashed.trans hr, by omega, ?_, fun hs => ?_, by omega⟩
        · have hadd : (m - k) * 100 = 100 + (m - (k + 1)) * 100 := by omega
          rw [hadd]
          exact hp.ahead.trans hahead
        · have := hend hs
          exact ⟨by omega, this.2⟩
    · have hdone : ¬ d1.rehashidx.isSome := fun hs => hmore (hp.more_iff.2 hs)
      rw [if_pos (by simp [hmore])]
      exact ⟨d1, k, rfl, hp.rehashed, le_rfl, hp.ahead.mono (by omega), fun hs => absurd hs hdone,
        by omega⟩

end Dict

end RedisCounter
