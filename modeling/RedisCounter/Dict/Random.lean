import RedisCounter.Dict.Runs

/-!
# Random entries

`dictGetRandomKey` draws buckets until it meets one with entries and takes one of them;
`dictGetSomeKeys` collects entries from a random bucket on, through both tables at once. Where the random
numbers come from does not matter here: whatever they are, only entries of the dictionary come out, and
every entry has numbers it comes out with, as long as there are no more buckets than random numbers.
-/

namespace RedisCounter

open List Buckets Run

variable {K V : Type}

/-! ## The code -/

/-- What `random()` can return: 0 to `RAND_MAX`. -/
abbrev Random := Fin (2 ^ 31)

/-- The entries of a bucket. -/
def dictBucket (ht : Dictht K V) (h : ℕ) : Except Fault (List (DictEntry K V)) :=
  match ht.table[h]? with
  | none => throw .tableBounds
  | some chain => pure chain

/-- The bucket that one draw of `dictGetRandomKey` gives. -/
def dictDraw (d : Dict K V) (r : Random) : Except Fault (List (DictEntry K V)) :=
  match d.rehashidx with
  | some rehashidx =>
    let h := rehashidx + r.val % (d.ht0.size + d.ht1.size - rehashidx)
    if h ≥ d.ht0.size then dictBucket d.ht1 (h - d.ht0.size) else dictBucket d.ht0 h
  | none => dictBucket d.ht0 (r.val &&& d.ht0.sizemask)

/-- `do … while(he == NULL)`: the chain, and how many numbers have been drawn. With its fuel used up the
loop is still running. -/
def dictDrawLoop (d : Dict K V) (random : ℕ → Random) :
    ℕ → ℕ → Except Fault (Option (ℕ × List (DictEntry K V)))
  | 0, _ => pure none
  | fuel + 1, k => do
    let chain ← dictDraw d (random k)
    if chain = [] then dictDrawLoop d random fuel (k + 1) else pure (some (k + 1, chain))

/-- The entry of a chain that `dictGetRandomKey` takes; it counts the chain with an `int`. -/
def dictPick (chain : List (DictEntry K V)) (r : Random) : Except Fault (DictEntry K V) :=
  if 2 ^ 31 ≤ chain.length then throw .intOverflow
  else
    match chain[r.val % chain.length]? with
    | none => throw .badPointer
    | some he => pure he

/-- `dictGetRandomKey`, or `none` while it is still drawing. -/
def dictGetRandomKey (T : DictType K) (random : ℕ → Random) (fuel : ℕ) (d : Dict K V) :
    Except Fault (Option (Dict K V × Option (DictEntry K V))) :=
  if dictSize d = 0 then pure (some (d, none))
  else do
    let d ← dictMigrate T d
    match ← dictDrawLoop d random fuel 0 with
    | none => pure none
    | some (k, chain) => do
      let he ← dictPick chain (random k)
      pure (some (d, some he))

/-- `for (j = 0; j < count; j++)` with a rehash step each, while there is a rehash. -/
def dictRehashSteps (T : DictType K) : ℕ → Dict K V → Except Fault (Dict K V)
  | 0, d => pure d
  | n + 1, d =>
    if dictIsRehashing d then do
      let d ← dictRehashStep T d
      dictRehashSteps T n d
    else pure d

/-- The local variables of `dictGetSomeKeys`: `i`, `emptylen`, how many random numbers have been drawn,
and what has been stored to `des`. -/
structure SomeKeys (K V : Type) where
  i : ℕ
  emptylen : ℕ
  drawn : ℕ
  des : List (DictEntry K V)

/-- The skip of the buckets already moved: where to look in `ht[j]`, or `none` for `continue`. -/
def someKeysSkip (d : Dict K V) (j i : ℕ) : Option ℕ :=
  match d.rehashidx with
  | some rehashidx =>
    if j = 0 ∧ i < rehashidx then
      if i ≥ d.ht1.size then some rehashidx else none
    else some i
  | none => some i

/-- Bucket `i` of one table; the flag is set when `count` entries are stored. -/
def someKeysBucket (ht : Dictht K V) (random : ℕ → Random) (count maxsizemask i : ℕ) (s : SomeKeys K V) :
    Except Fault (SomeKeys K V × Bool) :=
  -- out of range for this table
  if i ≥ ht.size then pure ({ s with i := i }, false)
  else do
    match ← dictBucket ht i with
    | [] =>
      let emptylen := s.emptylen + 1
      if emptylen ≥ 5 ∧ emptylen > count then
        pure (⟨(random s.drawn).val &&& maxsizemask, 0, s.drawn + 1, s.des⟩, false)
      else pure (⟨i, emptylen, s.drawn, s.des⟩, false)
    | chain =>
      pure (⟨i, 0, s.drawn, s.des ++ chain.take (count - s.des.length)⟩,
        count ≤ s.des.length + chain.length)

/-- One round of the loop over the tables. -/
def someKeysTable (d : Dict K V) (random : ℕ → Random) (count maxsizemask j : ℕ) (s : SomeKeys K V) :
    Except Fault (SomeKeys K V × Bool) :=
  match someKeysSkip d j s.i with
  | none => pure (s, false)
  | some i => someKeysBucket (if j = 0 then d.ht0 else d.ht1) random count maxsizemask i s

/-- The outer loop, with `maxsteps` to go. -/
def someKeysLoop (d : Dict K V) (random : ℕ → Random) (count maxsizemask : ℕ) :
    ℕ → SomeKeys K V → Except Fault (List (DictEntry K V))
  | 0, s => pure s.des
  | maxsteps + 1, s =>
    if s.des.length ≥ count then pure s.des
    else do
      let (s, full) ← someKeysTable d random count maxsizemask 0 s
      if full then pure s.des
      else do
        let (s, full) ←
          if dictIsRehashing d then someKeysTable d random count maxsizemask 1 s else pure (s, false)
        if full then pure s.des
        else
          someKeysLoop d random count maxsizemask maxsteps { s with i := (s.i + 1) &&& maxsizemask }

/-- `dictGetSomeKeys`: what is stored to `des`. `count` and `count*10` are `unsigned int`. -/
def dictGetSomeKeys (T : DictType K) (random : ℕ → Random) (d : Dict K V) (count : UInt32) :
    Except Fault (Dict K V × List (DictEntry K V)) := do
  let count := if dictSize d < count.toNat then dictSize d else count.toNat
  let d ← dictRehashSteps T count d
  let maxsizemask :=
    if dictIsRehashing d then max d.ht0.sizemask d.ht1.sizemask else d.ht0.sizemask
  let des ← someKeysLoop d random count maxsizemask (count * 10 % 2 ^ 32)
    ⟨(random 0).val &&& maxsizemask, 0, 1, []⟩
  pure (d, des)

/-! ## Drawing a bucket -/

section Draw

variable {T : DictType K} {d : Dict K V}

theorem Dictht.Inv.dictBucket_spec {ht : Dictht K V} (h : ht.Inv T) {idx : ℕ} (hlt : idx < ht.size) :
    ∃ chain, dictBucket ht idx = .ok chain ∧ chain <+ ht.entries := by
  rw [← h.length] at hlt
  refine ⟨ht.table[idx], ?_, sublist_flatten_of_mem (getElem_mem hlt)⟩
  rw [dictBucket, getElem?_eq_getElem hlt]
  rfl

theorem Dictht.Inv.exists_dictBucket {ht : Dictht K V} (h : ht.Inv T) {he : DictEntry K V}
    (hmem : he ∈ ht.entries) :
    ∃ idx < ht.size, ∃ chain, ht.table[idx]? = some chain ∧ dictBucket ht idx = .ok chain ∧
      he ∈ chain ∧ chain <+ ht.entries := by
  obtain ⟨chain, hchain, hhe⟩ := mem_flatten.1 hmem
  obtain ⟨idx, hidx⟩ := mem_iff_getElem?.1 hchain
  have hlt := (List.getElem?_eq_some_iff.1 hidx).1
  rw [h.length] at hlt
  refine ⟨idx, hlt, chain, hidx, ?_, hhe, sublist_flatten_of_mem hchain⟩
  rw [dictBucket, hidx]
  rfl

/-- A draw stays in the tables. -/
theorem Dict.Sound.dictDraw_spec (h : d.Sound T) (hs0 : d.ht0.size ≠ 0) (r : Random) :
    ∃ chain, dictDraw d r = .ok chain ∧ chain <+ d.entries := by
  unfold dictDraw
  rcases hi : d.rehashidx with _ | i
  · obtain ⟨n, -, hn⟩ := h.ht0.size_pow hs0
    have hlt : r.val &&& d.ht0.sizemask < d.ht0.size := by
      rw [h.ht0.sizemask hs0, hn, Nat.and_two_pow_sub_one_eq_mod]
      exact Nat.mod_lt _ (Nat.two_pow_pos n)
    obtain ⟨chain, hchain, hsub⟩ := h.ht0.dictBucket_spec hlt
    exact ⟨chain, hchain, hsub.trans (sublist_append_left ..)⟩
  · have hle := h.rehashidx_le hi
    have hs1 := (h.tables (by simp [hi])).2
    have hlt := Nat.mod_lt r.val (show 0 < d.ht0.size + d.ht1.size - i by omega)
    dsimp only
    split_ifs with hge
    · obtain ⟨chain, hchain, hsub⟩ := h.ht1.dictBucket_spec
        (show i + r.val % (d.ht0.size + d.ht1.size - i) - d.ht0.size < d.ht1.size by omega)
      exact ⟨chain, hchain, hsub.trans (sublist_append_right ..)⟩
    · obtain ⟨chain, hchain, hsub⟩ := h.ht0.dictBucket_spec (Nat.not_le.1 hge)
      exact ⟨chain, hchain, hsub.trans (sublist_append_left ..)⟩

/-- Every bucket with entries is the bucket of some number: the draw leaves out only buckets that have
been moved. -/
theorem Dict.Sound.exists_dictDraw (h : d.Sound T) (hbuckets : d.ht0.size + d.ht1.size ≤ 2 ^ 31)
    {he : DictEntry K V} (hmem : he ∈ d.entries) :
    ∃ r : Random, r.val < d.ht0.size + d.ht1.size ∧ ∃ chain, dictDraw d r = .ok chain ∧ he ∈ chain ∧
      chain <+ d.entries := by
  have hmem' := mem_append.1 hmem
  unfold dictDraw
  rcases hi : d.rehashidx with _ | i
  · rw [h.idle hi] at hmem'
    obtain ⟨idx, hlt, chain, -, hchain, hhe, hsub⟩ :=
      h.ht0.exists_dictBucket (hmem'.resolve_right (by simp))
    have hs0 : d.ht0.size ≠ 0 := by omega
    obtain ⟨n, -, hn⟩ := h.ht0.size_pow hs0
    refine ⟨⟨idx, by omega⟩, by dsimp only; omega, chain, ?_, hhe, hsub.trans (sublist_append_left ..)⟩
    dsimp only
    rw [h.ht0.sizemask hs0, hn, Nat.and_two_pow_sub_one_eq_mod, Nat.mod_eq_of_lt (hn ▸ hlt)]
    exact hchain
  · have hle := h.rehashidx_le hi
    dsimp only
    rcases hmem' with hmem0 | hmem1
    · obtain ⟨idx, hlt, chain, hget, hchain, hhe, hsub⟩ := h.ht0.exists_dictBucket hmem0
      have hidx : i ≤ idx := by
        by_contra hlt'
        rw [h.moved hi idx (Nat.not_le.1 hlt')] at hget
        cases hget
        cases hhe
      refine ⟨⟨idx - i, by omega⟩, by dsimp only; omega, chain, ?_, hhe,
        hsub.trans (sublist_append_left ..)⟩
      dsimp only
      rw [Nat.mod_eq_of_lt (by omega), Nat.add_sub_cancel' hidx, if_neg (by omega)]
      exact hchain
    · obtain ⟨idx, hlt, chain, -, hchain, hhe, hsub⟩ := h.ht1.exists_dictBucket hmem1
      refine ⟨⟨d.ht0.size + idx - i, by omega⟩, by dsimp only; omega, chain, ?_, hhe,
        hsub.trans (sublist_append_right ..)⟩
      dsimp only
      rw [Nat.mod_eq_of_lt (by omega), show i + (d.ht0.size + idx - i) = d.ht0.size + idx by omega,
        if_pos (by omega), Nat.add_sub_cancel_left]
      exact hchain

theorem Dict.Sound.dictDrawLoop_spec (h : d.Sound T) (hs0 : d.ht0.size ≠ 0) (random : ℕ → Random)
    (fuel k : ℕ) :
    ∃ r, dictDrawLoop d random fuel k = .ok r ∧
      ∀ m chain, r = some (m, chain) → chain ≠ [] ∧ chain <+ d.entries := by
  induction fuel generalizing k with
  | zero => exact ⟨none, rfl, fun m chain hr => by cases hr⟩
  | succ fuel ih =>
    obtain ⟨chain, hchain, hsub⟩ := h.dictDraw_spec hs0 (random k)
    simp only [dictDrawLoop, hchain, bind, Except.bind]
    split_ifs with hnil
    · exact ih (k + 1)
    · refine ⟨some (k + 1, chain), rfl, fun m c hr => ?_⟩
      cases hr
      exact ⟨hnil, hsub⟩

/-- Drawing ends with the first number whose bucket has entries. -/
theorem Dict.Sound.dictDrawLoop_ends (h : d.Sound T) (hs0 : d.ht0.size ≠ 0) {random : ℕ → Random}
    {fuel k j : ℕ} {chain : List (DictEntry K V)} (hj : k ≤ j) (hfuel : j < k + fuel)
    (hdraw : dictDraw d (random j) = .ok chain) (hne : chain ≠ []) :
    ∃ r, dictDrawLoop d random fuel k = .ok (some r) := by
  induction fuel generalizing k with
  | zero => omega
  | succ fuel ih =>
    obtain ⟨chain', hchain', -⟩ := h.dictDraw_spec hs0 (random k)
    simp only [dictDrawLoop, hchain', bind, Except.bind]
    split_ifs with hnil
    · have hkj : k ≠ j := by
        rintro rfl
        rw [hdraw] at hchain'
        cases hchain'
        exact hne hnil
      exact ih (by omega) (by omega)
    · exact ⟨_, rfl⟩

end Draw

/-! ## `dictGetRandomKey` -/

section RandomKey

variable {T : DictType K} {d : Dict K V}

theorem Dict.Sound.dictGetRandomKey_eq (h : d.Sound T) (hsize : dictSize d ≠ 0) :
    ∃ d', Dict.Rehashed T d d' ∧ d'.ht0.size ≠ 0 ∧
      d'.ht0.size + d'.ht1.size ≤ d.ht0.size + d.ht1.size ∧
      ∀ random fuel, dictGetRandomKey T random fuel d = (dictDrawLoop d' random fuel 0).bind fun r =>
        match r with
        | none => pure none
        | some (k, chain) => (dictPick chain (random k)).map fun he => some (d', some he) := by
  obtain ⟨d', hmig, hd, hahead⟩ := h.dictMigrate_spec
  refine ⟨d', hd, ?_, ?_, fun random fuel => ?_⟩
  · apply hd.sound.size0_ne_zero
    rw [hd.sound.dictSize_eq, hd.perm.length_eq, ← h.dictSize_eq]
    exact hsize
  · rcases hi' : d'.rehashidx with _ | i'
    · have hs1 : d'.ht1.size = 0 := by
        rw [hd.sound.idle hi']
        rfl
      rcases hi : d.rehashidx with _ | i
      · have := hahead.idle hi
        omega
      · have := hahead.ended hi' (by simp [hi])
        omega
    · obtain ⟨i, -, -, hsize0, hsize1⟩ := hahead.going i' hi'
      omega
  · rw [dictGetRandomKey, if_neg hsize, hmig, ok_bind]
    refine congrArg _ (funext fun r => ?_)
    rcases r with _ | ⟨k, chain⟩
    · rfl
    · rcases hpick : dictPick chain (random k) with e | he
      · simp only [hpick, bind, Except.bind]
        rfl
      · simp only [hpick, bind, Except.bind]
        rfl

/-- A chain that an `int` counts has an entry for every number. -/
theorem dictPick_eq {chain : List (DictEntry K V)} (hint : chain.length < 2 ^ 31) (hne : chain ≠ [])
    (r : Random) :
    ∃ hlt : r.val % chain.length < chain.length, dictPick chain r = .ok chain[r.val % chain.length] := by
  have hlt := Nat.mod_lt r.val (length_pos_iff.2 hne)
  refine ⟨hlt, ?_⟩
  rw [dictPick, if_neg (Nat.not_le.2 hint), getElem?_eq_getElem hlt]
  rfl

variable [DecidableEq K]

/-- Whatever the random numbers are, what `dictGetRandomKey` returns is an entry of the dictionary, or
`NULL` if there is none; it never reads outside of the tables or past the end of a chain. -/
theorem dictGetRandomKey_mem (T : DictType K) (d : Dict K V) (hmade : d.Made T)
    (hint : dictSize d < 2 ^ 31) (random : ℕ → Random) (fuel : ℕ) :
    ∃ r, dictGetRandomKey T random fuel d = .ok r ∧ ∀ d' o, r = some (d', o) →
      d'.entries ~ d.entries ∧ (o = none ↔ d.entries = []) ∧ ∀ he ∈ o, he ∈ d.entries := by
  have h := hmade.ready.sound
  by_cases hsize : dictSize d = 0
  · refine ⟨some (d, none), by rw [dictGetRandomKey, if_pos hsize]; rfl, fun d' o hr => ?_⟩
    cases hr
    refine ⟨.refl _, iff_of_true rfl ?_, fun he hhe => by cases hhe⟩
    rw [← length_eq_zero_iff, ← h.dictSize_eq]
    exact hsize
  · obtain ⟨d', hd, hs0, -, heq⟩ := h.dictGetRandomKey_eq hsize
    obtain ⟨r, hloop, hr⟩ := hd.sound.dictDrawLoop_spec hs0 random fuel 0
    rw [heq, hloop]
    rcases r with _ | ⟨k, chain⟩
    · exact ⟨none, rfl, fun d' o hr => by cases hr⟩
    · obtain ⟨hne, hsub⟩ := hr k chain rfl
      have hlength : chain.length ≤ d.entries.length := hd.perm.length_eq ▸ hsub.length_le
      rw [h.dictSize_eq] at hint
      obtain ⟨hlt, hpick⟩ := dictPick_eq (hlength.trans_lt hint) hne (random k)
      have hin := hd.perm.mem_iff.1 (hsub.subset (getElem_mem hlt))
      refine ⟨some (d', some chain[(random k).val % chain.length]), ?_, fun d2 o ho => ?_⟩
      · simp only [Except.bind, hpick]
        rfl
      · cases ho
        refine ⟨hd.perm, iff_of_false (by simp) (ne_nil_of_mem hin), fun he hhe => ?_⟩
        cases hhe
        exact hin

theorem dictGetRandomKey_mem_five :
    ∃ r, dictGetRandomKey natDictType (fun k => .ofNat _ (5 * k)) 9 fiveKeys = .ok r ∧
      ∀ d' o, r = some (d', o) → d'.entries ~ fiveKeys.entries ∧
        (o = none ↔ fiveKeys.entries = []) ∧ ∀ he ∈ o, he ∈ fiveKeys.entries :=
  dictGetRandomKey_mem natDictType fiveKeys made_fiveKeys (by decide) (fun k => .ofNat _ (5 * k)) 9

/-- As long as `random()` reaches all buckets, every entry has a number for its bucket, below the number
of buckets, and one for its place in the chain with which it is returned; and a call ends at the latest
when the first of them is drawn. -/
theorem dictGetRandomKey_reaches (T : DictType K) (d : Dict K V) (hmade : d.Made T)
    (hbuckets : d.ht0.size + d.ht1.size ≤ 2 ^ 31) (hint : dictSize d < 2 ^ 31) (he : DictEntry K V)
    (hmem : he ∈ d.entries) :
    ∃ r0 r1 : Random, r0.val < d.ht0.size + d.ht1.size ∧ r1.val < d.entries.length ∧
      ∀ (random : ℕ → Random) (fuel : ℕ),
      (∀ k < fuel, random k = r0 → ∃ out, dictGetRandomKey T random fuel d = .ok (some out)) ∧
      (0 < fuel → random 0 = r0 → random 1 = r1 →
        ∃ d', dictGetRandomKey T random fuel d = .ok (some (d', some he))) := by
  have h := hmade.ready.sound
  have hsize : dictSize d ≠ 0 := by
    rw [h.dictSize_eq]
    exact (length_pos_of_mem hmem).ne'
  obtain ⟨d', hd, hs0, hle, heq⟩ := h.dictGetRandomKey_eq hsize
  obtain ⟨r0, hr0, chain, hdraw, hhe, hsub⟩ :=
    hd.sound.exists_dictDraw (hle.trans hbuckets) (hd.perm.mem_iff.2 hmem)
  have hne : chain ≠ [] := ne_nil_of_mem hhe
  obtain ⟨r1, hr1, hget⟩ := mem_iff_getElem.1 hhe
  have hshort : ∀ {c : List (DictEntry K V)}, c <+ d'.entries → c.length < 2 ^ 31 := by
    intro c hc
    rw [h.dictSize_eq, ← hd.perm.length_eq] at hint
    exact hc.length_le.trans_lt hint
  refine ⟨r0, ⟨r1, hr1.trans (hshort hsub)⟩, hr0.trans_le hle,
    hr1.trans_le (hd.perm.length_eq ▸ hsub.length_le),
    fun random fuel => ⟨fun k hk hr => ?_, fun hpos h0 h1 => ?_⟩⟩
  · subst hr
    obtain ⟨⟨m, chain'⟩, hloop⟩ :=
      hd.sound.dictDrawLoop_ends hs0 (Nat.zero_le k) (Nat.zero_add fuel ▸ hk) hdraw hne
    obtain ⟨r, hok, hr⟩ := hd.sound.dictDrawLoop_spec hs0 random fuel 0
    rw [hloop] at hok
    cases hok
    obtain ⟨hne', hsub'⟩ := hr m chain' rfl
    obtain ⟨hlt, hpick⟩ := dictPick_eq (hshort hsub') hne' (random m)
    refine ⟨(d', some chain'[(random m).val % chain'.length]), ?_⟩
    rw [heq, hloop]
    simp only [Except.bind, hpick]
    rfl
  · obtain ⟨fuel, rfl⟩ := Nat.exists_eq_add_of_lt hpos
    refine ⟨d', ?_⟩
    have hloop : dictDrawLoop d' random (0 + fuel + 1) 0 = .ok (some (1, chain)) := by
      rw [dictDrawLoop, h0, hdraw]
      simp only [bind, Except.bind, if_neg hne]
      rfl
    have hpick : dictPick chain (random 1) = .ok he := by
      obtain ⟨hlt, hpick⟩ := dictPick_eq (hshort hsub) hne (random 1)
      rw [hpick]
      simp only [h1, Nat.mod_eq_of_lt hr1, hget]
    rw [heq, hloop]
    simp only [Except.bind, hpick]
    rfl

theorem dictGetRandomKey_reaches_last :
    ∃ r0 r1 : Random, r0.val < 12 ∧ r1.val < 5 ∧ ∀ (random : ℕ → Random) (fuel : ℕ),
      (∀ k < fuel, random k = r0 →
        ∃ out, dictGetRandomKey natDictType random fuel fiveKeys = .ok (some out)) ∧
      (0 < fuel → random 0 = r0 → random 1 = r1 →
        ∃ d', dictGetRandomKey natDictType random fuel fiveKeys = .ok (some (d', some ⟨9, 90⟩))) :=
  dictGetRandomKey_reaches natDictType fiveKeys made_fiveKeys (by decide) (by decide) ⟨9, 90⟩
    (by decide)

end RandomKey

/-! ## `dictGetSomeKeys` -/

section SomeKeys

variable {T : DictType K} {d : Dict K V}

theorem Dict.Sound.dictRehashSteps_spec (h : d.Sound T) (n : ℕ) :
    ∃ d', dictRehashSteps T n d = .ok d' ∧ Dict.Rehashed T d d' := by
  induction n generalizing d with
  | zero => exact ⟨d, rfl, h.rehashed_refl⟩
  | succ n ih =>
    rw [dictRehashSteps]
    split_ifs with hr
    · obtain ⟨d1, hmig, hd1, -⟩ := h.dictMigrate_spec
      rw [dictMigrate, if_pos hr] at hmig
      obtain ⟨d', hrest, hd'⟩ := ih hd1.sound
      refine ⟨d', ?_, hd1.trans hd'⟩
      simp only [hmig, bind, Except.bind]
      exact hrest
    · exact ⟨d, rfl, h.rehashed_refl⟩

/-- What has been stored: entries of the dictionary, and no more than there is room for. -/
structure SomeKeys.Inv (d : Dict K V) (count : ℕ) (s : SomeKeys K V) : Prop where
  length : s.des.length ≤ count
  mem : ∀ he ∈ s.des, he ∈ d.entries

variable {count : ℕ}

theorem SomeKeys.Inv.someKeysBucket_spec {ht : Dictht K V} (hht : ht.Inv T)
    (hsub : ht.entries <+ d.entries) {s : SomeKeys K V} (h : s.Inv d count) (random : ℕ → Random)
    (maxsizemask i : ℕ) : ∃ s' full, someKeysBucket ht random count maxsizemask i s = .ok (s', full) ∧
      s'.Inv d count := by
  unfold someKeysBucket
  by_cases hrange : i ≥ ht.size
  · rw [if_pos hrange]
    exact ⟨_, _, rfl, h.length, h.mem⟩
  · obtain ⟨chain, hchain, hchainsub⟩ := hht.dictBucket_spec (Nat.not_le.1 hrange)
    rw [if_neg hrange, hchain]
    rcases chain with _ | ⟨he, chain⟩
    · by_cases hjump : s.emptylen + 1 ≥ 5 ∧ s.emptylen + 1 > count
      · exact ⟨_, _, if_pos hjump, h.length, h.mem⟩
      · exact ⟨_, _, if_neg hjump, h.length, h.mem⟩
    · have hlength := h.length
      refine ⟨_, _, rfl, ?_, fun he' hmem => ?_⟩
      · dsimp only
        rw [length_append, length_take]
        omega
      · rcases mem_append.1 hmem with hold | hnew
        · exact h.mem he' hold
        · exact (hchainsub.trans hsub).subset (mem_of_mem_take hnew)

theorem SomeKeys.Inv.someKeysTable_spec (hd : d.Sound T) {s : SomeKeys K V} (h : s.Inv d count)
    (random : ℕ → Random) (maxsizemask j : ℕ) :
    ∃ s' full, someKeysTable d random count maxsizemask j s = .ok (s', full) ∧ s'.Inv d count := by
  unfold someKeysTable
  rcases someKeysSkip d j s.i with _ | i
  · exact ⟨s, false, rfl, h⟩
  · dsimp only
    by_cases hj : j = 0
    · rw [if_pos hj]
      exact h.someKeysBucket_spec hd.ht0 (sublist_append_left ..) random maxsizemask i
    · rw [if_neg hj]
      exact h.someKeysBucket_spec hd.ht1 (sublist_append_right ..) random maxsizemask i

theorem SomeKeys.Inv.someKeysLoop_spec (hd : d.Sound T) {s : SomeKeys K V} (h : s.Inv d count)
    (random : ℕ → Random) (maxsizemask maxsteps : ℕ) :
    ∃ des, someKeysLoop d random count maxsizemask maxsteps s = .ok des ∧
      des.length ≤ count ∧ ∀ he ∈ des, he ∈ d.entries := by
  induction maxsteps generalizing s with
  | zero => exact ⟨s.des, rfl, h.length, h.mem⟩
  | succ maxsteps ih =>
    obtain ⟨s0, full0, h0, hinv0⟩ := h.someKeysTable_spec hd random maxsizemask 0
    obtain ⟨s1, full1, h1, hinv1⟩ := hinv0.someKeysTable_spec hd random maxsizemask 1
    rw [someKeysLoop]
    by_cases hcount : s.des.length ≥ count
    · exact ⟨s.des, by rw [if_pos hcount]; rfl, h.length, h.mem⟩
    · rw [if_neg hcount]
      simp only [h0, bind, Except.bind]
      by_cases hfull0 : full0 = true
      · exact ⟨s0.des, by rw [if_pos hfull0]; rfl, hinv0.length, hinv0.mem⟩
      · rw [if_neg hfull0]
        by_cases hr : dictIsRehashing d = true
        · simp only [if_pos hr, h1]
          by_cases hfull1 : full1 = true
          · exact ⟨s1.des, by rw [if_pos hfull1]; rfl, hinv1.length, hinv1.mem⟩
          · rw [if_neg hfull1]
            exact ih ⟨hinv1.length, hinv1.mem⟩
        · simp only [if_neg hr, pure, Except.pure, Bool.false_eq_true, if_false]
          exact ih ⟨hinv0.length, hinv0.mem⟩

variable [DecidableEq K]

/-- Whatever the random numbers are and however far a rehash has come, `dictGetSomeKeys` stores no more
entries than it is asked for and than there are, only entries of the dictionary, and reads no bucket
outside of the tables. -/
theorem dictGetSomeKeys_mem (T : DictType K) (d : Dict K V) (hmade : d.Made T)
    (random : ℕ → Random) (count : UInt32) :
    ∃ d' des, dictGetSomeKeys T random d count = .ok (d', des) ∧ d'.entries ~ d.entries ∧
      des.length ≤ min count.toNat d.entries.length ∧ ∀ he ∈ des, he ∈ d.entries := by
  have h := hmade.ready.sound
  have hcount : (if dictSize d < count.toNat then dictSize d else count.toNat)
      = min count.toNat d.entries.length := by
    rw [h.dictSize_eq]
    split_ifs with hlt
    · exact (min_eq_right hlt.le).symm
    · exact (min_eq_left (Nat.not_lt.1 hlt)).symm
  obtain ⟨d', hsteps, hd⟩ := h.dictRehashSteps_spec (min count.toNat d.entries.length)
  have hinv : ∀ i, SomeKeys.Inv d' (min count.toNat d.entries.length) ⟨i, 0, 1, []⟩ :=
    fun i => ⟨Nat.zero_le _, fun he hmem => absurd hmem not_mem_nil⟩
  obtain ⟨des, hloop, hlength, hmem⟩ := (hinv _).someKeysLoop_spec hd.sound random _
    (min count.toNat d.entries.length * 10 % 2 ^ 32)
  refine ⟨d', des, ?_, hd.perm, hlength, fun he hhe => hd.perm.mem_iff.1 (hmem he hhe)⟩
  simp only [dictGetSomeKeys, hcount, hsteps, bind, Except.bind]
  rw [hloop]
  rfl

theorem dictGetSomeKeys_mem_three :
    ∃ d' des, dictGetSomeKeys natDictType (fun _ => 6) fiveKeys 3 = .ok (d', des) ∧
      d'.entries ~ fiveKeys.entries ∧ des.length ≤ min 3 5 ∧ ∀ he ∈ des, he ∈ fiveKeys.entries :=
  dictGetSomeKeys_mem natDictType fiveKeys made_fiveKeys (fun _ => 6) 3

end SomeKeys

end RedisCounter
