import RedisCounter.Dict.Calls

/-!
# Iterators

An iterator walks the buckets of the first table and, if a rehash runs when it gets to their end, those
of the second; it remembers the entry it has returned and the one behind it, since the first may be
deleted before the next call. `iterPending` is what it has still to return, and one call takes the
first entry of that.
-/

namespace RedisCounter

open List Buckets

variable {K V : Type}

/-! ## The code -/

/-- `dictIterator`. An entry is given by its key, which no other entry has. The fingerprint is left
out: it is made of the addresses of the tables. -/
structure DictIterator (K : Type) where
  table : ℕ
  index : ℤ
  safe : Bool
  entry : Option K
  nextEntry : Option K
deriving DecidableEq

/-- `dictGetIterator`. -/
def dictGetIterator : DictIterator K := ⟨0, -1, false, none, none⟩

/-- `dictGetSafeIterator`. -/
def dictGetSafeIterator : DictIterator K := { dictGetIterator with safe := true }

/-- `&d->ht[table]`. -/
def Dict.ht (d : Dict K V) (table : ℕ) : Dictht K V := if table = 0 then d.ht0 else d.ht1

/-- A chain from the entry of `key` on. -/
def chainFrom (T : DictType K) (key : K) (chain : List (DictEntry K V)) : List (DictEntry K V) :=
  chain.dropWhile fun he => !T.keyCompare key he.1

/-- An entry and its `next`; a key that has no entry belongs to one that has been freed. -/
def dictEntryNext (T : DictType K) (d : Dict K V) (key : K) :
    Except Fault (DictEntry K V × Option K) :=
  match (d.ht0.table ++ d.ht1.table).find? fun chain => !(chainFrom T key chain).isEmpty with
  | none => throw .badPointer
  | some chain =>
    match chainFrom T key chain with
    | [] => throw .badPointer
    | he :: rest => pure (he, rest.head?.map Sigma.fst)

/-- `ht->table[index]`. -/
def dictBucketHead (ht : Dictht K V) (index : ℤ) : Except Fault (Option K) :=
  match ht.table[index.toNat]? with
  | none => throw .tableBounds
  | some chain => pure (chain.head?.map Sigma.fst)

/-- What the first `dictNext` of a safe iterator does to the dictionary; `iterators` is an
`unsigned long`. -/
def dictIterStart (d : Dict K V) (iter : DictIterator K) : Dict K V :=
  if iter.index = -1 ∧ iter.table = 0 ∧ iter.safe then
    { d with iterators := (d.iterators + 1) % 2 ^ 64 }
  else d

/-- The first half of the body of `dictNext`: where `iter->entry` moves to. The flag is unset at
`break`. -/
def dictIterAdvance (d : Dict K V) (iter : DictIterator K) : Except Fault (DictIterator K × Bool) :=
  if iter.entry.isSome then pure ({ iter with entry := iter.nextEntry }, true)
  else
    let index := iter.index + 1
    if index ≥ (d.ht iter.table).size then
      if dictIsRehashing d ∧ iter.table = 0 then do
        let entry ← dictBucketHead d.ht1 0
        pure ({ iter with table := 1, index := 0, entry := entry }, true)
      else pure ({ iter with index := index }, false)
    else do
      let entry ← dictBucketHead (d.ht iter.table) index
      pure ({ iter with index := index, entry := entry }, true)

/-- The loop of `dictNext`. -/
def dictNextLoop (T : DictType K) : ℕ → Dict K V → DictIterator K →
    Except Fault (Dict K V × DictIterator K × Option (DictEntry K V))
  | 0, d, iter => pure (d, iter, none)
  | fuel + 1, d, iter => do
    let d := if iter.entry.isSome then d else dictIterStart d iter
    match ← dictIterAdvance d iter with
    | (iter, false) => pure (d, iter, none)
    | (iter, true) =>
      match iter.entry with
      | none => dictNextLoop T fuel d iter
      | some key => do
        -- the user may delete the entry we are returning
        let (he, next) ← dictEntryNext T d key
        pure (d, { iter with nextEntry := next }, some he)

/-- `dictNext`; the loop passes each bucket once. -/
def dictNext (T : DictType K) (d : Dict K V) (iter : DictIterator K) :
    Except Fault (Dict K V × DictIterator K × Option (DictEntry K V)) :=
  dictNextLoop T (d.ht0.size + d.ht1.size + 3) d iter

/-- `dictReleaseIterator`, without the assertion for an unsafe iterator; 0 less one is the largest
`unsigned long`. -/
def dictReleaseIterator (d : Dict K V) (iter : DictIterator K) : Dict K V :=
  if ¬ (iter.index = -1 ∧ iter.table = 0) ∧ iter.safe then
    { d with iterators := (d.iterators + (2 ^ 64 - 1)) % 2 ^ 64 }
  else d

/-! ## What is still to come -/

/-- The entries behind the one returned last, in its bucket. -/
def iterChain (T : DictType K) (d : Dict K V) (iter : DictIterator K) : List (DictEntry K V) :=
  match iter.entry, iter.nextEntry with
  | some _, some key => chainFrom T key ((d.ht iter.table).table.getD iter.index.toNat [])
  | _, _ => []

/-- The entries of the buckets behind. -/
def iterRest (d : Dict K V) (iter : DictIterator K) : List (DictEntry K V) :=
  ((d.ht iter.table).table.drop (iter.index + 1).toNat).flatten ++
    if iter.table = 0 then d.ht1.entries else []

/-- What an iterator has still to return. -/
def iterPending (T : DictType K) (d : Dict K V) (iter : DictIterator K) : List (DictEntry K V) :=
  iterChain T d iter ++ iterRest d iter

/-- The iterator stands in a table that is there, and the entry it goes on with is in its bucket. -/
structure IterInv (T : DictType K) (d : Dict K V) (iter : DictIterator K) : Prop where
  sound : d.Sound T
  table : iter.table = 0 ∨ iter.table = 1 ∧ dictIsRehashing d = true
  index : -1 ≤ iter.index
  fresh : iter.index = -1 → iter.table = 0 ∧ iter.entry = none
  next : ∀ e key, iter.entry = some e → iter.nextEntry = some key →
    ∃ chain, (d.ht iter.table).table[iter.index.toNat]? = some chain ∧ key ∈ chain.keys

variable {T : DictType K} {d : Dict K V} {iter : DictIterator K}

theorem iterInv_create (h : d.Sound T) (safe : Bool) :
    IterInv T d { dictGetIterator with safe := safe } where
  sound := h
  table := .inl rfl
  index := le_rfl
  fresh _ := ⟨rfl, rfl⟩
  next e key he := by cases he

/-! ## Chains -/

theorem chainFrom_eq_nil_iff {key : K} {chain : List (DictEntry K V)} :
    chainFrom T key chain = [] ↔ key ∉ chain.keys := by
  rw [chainFrom, dropWhile_eq_nil_iff, keys, mem_map]
  constructor
  · rintro h ⟨he, hmem, rfl⟩
    have := h he hmem
    rw [(T.keyCompare_iff he.1 he.1).2 rfl] at this
    cases this
  · intro h he hmem
    by_contra hcmp
    have hcmp : T.keyCompare key he.1 = true := by simpa using hcmp
    exact h ⟨he, hmem, ((T.keyCompare_iff _ _).1 hcmp).symm⟩

/-- Cutting a chain at its first entry leaves it whole. -/
theorem chainFrom_self (he : DictEntry K V) (rest : List (DictEntry K V)) :
    chainFrom T he.1 (he :: rest) = he :: rest := by
  rw [chainFrom, dropWhile_cons_of_neg]
  rw [(T.keyCompare_iff he.1 he.1).2 rfl]
  simp

/-- In a chain without repeated keys, cutting at the entry behind cuts one entry more. -/
theorem chainFrom_next {key : K} {chain rest : List (DictEntry K V)} {he he' : DictEntry K V}
    (hnodup : chain.NodupKeys) (h : chainFrom T key chain = he :: he' :: rest) :
    chainFrom T he'.1 chain = he' :: rest := by
  have hsplit : chain = (chain.takeWhile fun he => !T.keyCompare key he.1) ++ he :: he' :: rest := by
    rw [← h, chainFrom, takeWhile_append_dropWhile]
  generalize chain.takeWhile (fun he => !T.keyCompare key he.1) = pre at hsplit
  subst hsplit
  -- the entries before it have other keys
  have hother : ∀ a ∈ pre ++ [he], (!T.keyCompare he'.1 a.1) = true := by
    intro a ha
    by_contra hcmp
    have hcmp : he'.1 = a.1 := (T.keyCompare_iff _ _).1 (by simpa using hcmp)
    rw [show pre ++ he :: he' :: rest = (pre ++ [he]) ++ he' :: rest by simp, NodupKeys, keys,
      map_append, nodup_append] at hnodup
    exact hnodup.2.2 a.1 (mem_map_of_mem ha) he'.1 (by simp) hcmp.symm
  rw [show pre ++ he :: he' :: rest = (pre ++ [he]) ++ he' :: rest by simp, chainFrom,
    dropWhile_append_of_pos hother, dropWhile_cons_of_neg]
  rw [(T.keyCompare_iff he'.1 he'.1).2 rfl]
  simp

/-- Following the pointers of an entry that is there. -/
theorem Dict.Sound.dictEntryNext_eq (h : d.Sound T) {table idx : ℕ} {key : K}
    {chain rest : List (DictEntry K V)} {he : DictEntry K V}
    (hchain : (d.ht table).table[idx]? = some chain) (hfrom : chainFrom T key chain = he :: rest) :
    dictEntryNext T d key = .ok (he, rest.head?.map Sigma.fst) := by
  have hkey : key ∈ chain.keys := by
    by_contra hno
    rw [chainFrom_eq_nil_iff.2 hno] at hfrom
    cases hfrom
  have hmem : chain ∈ d.ht0.table ++ d.ht1.table := by
    unfold Dict.ht at hchain
    split_ifs at hchain
    · exact mem_append_left _ (mem_of_getElem? hchain)
    · exact mem_append_right _ (mem_of_getElem? hchain)
  have hnodup : (d.ht0.table ++ d.ht1.table).flatten.NodupKeys := by
    rw [flatten_append]
    exact h.nodup
  have hfind := find?_chain (p := fun chain => !(chainFrom T key chain).isEmpty) hnodup hmem
    (fun c => by simp [chainFrom_eq_nil_iff]) hkey
  rw [dictEntryNext, hfind]
  simp only [hfrom]
  rfl

/-! ## One call -/

/-- How many rounds the loop of `dictNext` can still take. -/
def iterRounds (d : Dict K V) (iter : DictIterator K) : ℕ :=
  (d.ht iter.table).size - (iter.index + 1).toNat + (if iter.table = 0 then d.ht1.size + 1 else 0) +
    if iter.entry.isSome then 1 else 0

/-- What the first half of a round leads to: the end, an empty bucket or the end of a chain, or the
next entry. -/
inductive Advanced (T : DictType K) (d : Dict K V) (iter : DictIterator K) : Prop
  | ended (iter' : DictIterator K) (eq : dictIterAdvance d iter = .ok (iter', false))
      (inv : IterInv T d iter') (safe : iter'.safe = iter.safe) (index : 0 ≤ iter'.index)
      (pending : iterPending T d iter = []) (pending' : iterPending T d iter' = [])
  | empty (iter' : DictIterator K) (eq : dictIterAdvance d iter = .ok (iter', true))
      (inv : IterInv T d iter') (safe : iter'.safe = iter.safe) (index : 0 ≤ iter'.index)
      (entry : iter'.entry = none) (pending : iterPending T d iter' = iterPending T d iter)
      (rounds : iterRounds d iter' < iterRounds d iter)
  | found (iter' : DictIterator K) (key : K) (chain : List (DictEntry K V))
      (eq : dictIterAdvance d iter = .ok (iter', true)) (safe : iter'.safe = iter.safe)
      (index : 0 ≤ iter'.index) (entry : iter'.entry = some key)
      (table : iter'.table = 0 ∨ iter'.table = 1 ∧ dictIsRehashing d = true)
      (hchain : (d.ht iter'.table).table[iter'.index.toNat]? = some chain) (hkey : key ∈ chain.keys)
      (pending : iterPending T d iter = chainFrom T key chain ++ iterRest d iter')

/-- An iterator that has just come to a bucket. -/
theorem advanced_bucket (h : d.Sound T) (iter' : DictIterator K) {chain : List (DictEntry K V)}
    (htable : iter'.table = 0 ∨ iter'.table = 1 ∧ dictIsRehashing d = true)
    (hindex : 0 ≤ iter'.index) (hsafe : iter'.safe = iter.safe)
    (hchain : (d.ht iter'.table).table[iter'.index.toNat]? = some chain)
    (hentry : iter'.entry = chain.head?.map Sigma.fst)
    (heq : dictIterAdvance d iter = .ok (iter', true))
    (hpending : iterPending T d iter = chain ++ iterRest d iter')
    (hrounds : chain = [] → iterRounds d iter' < iterRounds d iter) : Advanced T d iter := by
  cases chain with
  | nil =>
    refine .empty iter' heq ⟨h, htable, by omega, fun hi => by omega, fun e key he => ?_⟩ hsafe hindex
      hentry ?_ (hrounds rfl)
    · rw [hentry] at he
      cases he
    · rw [hpending, iterPending, iterChain, hentry]
      rfl
  | cons he rest =>
    exact .found iter' he.1 (he :: rest) heq hsafe hindex hentry htable hchain (by simp)
      (by rw [chainFrom_self, hpending])

theorem IterInv.advance (h : IterInv T d iter) : Advanced T d iter := by
  by_cases hentry : iter.entry.isSome
  · -- on to the entry behind, if there is one
    obtain ⟨e, he⟩ := Option.isSome_iff_exists.1 hentry
    have hindex : 0 ≤ iter.index := by
      rcases lt_or_eq_of_le h.index with hlt | heq
      · omega
      · rw [(h.fresh heq.symm).2] at he
        cases he
    have heq : dictIterAdvance d iter = .ok ({ iter with entry := iter.nextEntry }, true) := by
      rw [dictIterAdvance, if_pos hentry]
      rfl
    rcases hnext : iter.nextEntry with _ | key
    · rw [hnext] at heq
      refine .empty _ heq ⟨h.sound, h.table, h.index, fun hi => ⟨(h.fresh hi).1, rfl⟩,
        fun e key he => by cases he⟩ rfl hindex rfl ?_ ?_
      · rw [iterPending, iterPending, iterChain, iterChain, he, hnext]
        rfl
      · rw [iterRounds, iterRounds, if_pos hentry]
        exact Nat.lt_succ_self _
    · rw [hnext] at heq
      obtain ⟨chain, hchain, hkey⟩ := h.next e key he hnext
      refine .found _ key chain heq rfl hindex rfl h.table hchain hkey ?_
      rw [iterPending, iterChain, he, hnext]
      dsimp only
      rw [getD_eq_getElem?_getD, hchain]
      rfl
  · have hnone : iter.entry = none := by simpa using hentry
    have hchain : iterChain T d iter = [] := by rw [iterChain, hnone]
    have hindex := h.index
    have hrounds0 : iterRounds d iter = (d.ht iter.table).size - (iter.index + 1).toNat +
        (if iter.table = 0 then d.ht1.size + 1 else 0) := by
      rw [iterRounds, if_neg hentry, Nat.add_zero]
    have hlength : (d.ht iter.table).table.length = (d.ht iter.table).size := by
      unfold Dict.ht
      split_ifs
      · exact h.sound.ht0.length
      · exact h.sound.ht1.length
    by_cases hend : iter.index + 1 ≥ (d.ht iter.table).size
    · have hdrop : (d.ht iter.table).table.drop (iter.index + 1).toNat = [] := by
        rw [drop_eq_nil_iff, hlength]
        omega
      by_cases hswitch : dictIsRehashing d = true ∧ iter.table = 0
      · -- on to the second table
        obtain ⟨chain, rest, hht1⟩ : ∃ chain rest, d.ht1.table = chain :: rest := by
          apply exists_cons_of_ne_nil
          intro hnil
          have := (h.sound.tables hswitch.1).2
          rw [← h.sound.ht1.length, hnil] at this
          exact this rfl
        have heq : dictIterAdvance d iter
            = .ok ({ iter with table := 1, index := 0, entry := chain.head?.map Sigma.fst }, true) := by
          rw [dictIterAdvance, if_neg hentry]
          dsimp only
          rw [if_pos hend, if_pos hswitch, dictBucketHead, hht1]
          rfl
        refine advanced_bucket h.sound
          { iter with table := 1, index := 0, entry := chain.head?.map Sigma.fst }
          (.inr ⟨rfl, hswitch.1⟩) le_rfl rfl ?_ rfl heq ?_ fun hnil => ?_
        · show d.ht1.table[0]? = some chain
          rw [hht1]
          rfl
        · rw [iterPending, hchain, iterRest, hdrop, if_pos hswitch.2, Dictht.entries, hht1]
          show [] ++ ([] ++ (chain ++ rest.flatten)) = chain ++ ((d.ht1.table.drop 1).flatten ++ [])
          rw [hht1, drop_one, tail_cons, nil_append, nil_append, append_nil]
        · rw [hrounds0, if_pos hswitch.2, iterRounds, hnil]
          show d.ht1.size - 1 + 0 + 0 < _
          omega
      · -- the end
        have heq : dictIterAdvance d iter = .ok ({ iter with index := iter.index + 1 }, false) := by
          rw [dictIterAdvance, if_neg hentry]
          dsimp only
          rw [if_pos hend, if_neg hswitch]
          rfl
        have hsecond : (if iter.table = 0 then d.ht1.entries else []) = [] := by
          split_ifs with htable
          · have hidle : d.rehashidx = none :=
              Dict.rehashidx_eq_none fun hr => hswitch ⟨hr, htable⟩
            rw [h.sound.idle hidle]
            rfl
          · rfl
        refine .ended _ heq ⟨h.sound, h.table, by dsimp only; omega, fun hi => ?_, fun e key he => ?_⟩
          rfl (by dsimp only; omega) ?_ ?_
        · dsimp only at hi
          omega
        · rw [show iter.entry = some e from he] at hnone
          cases hnone
        · rw [iterPending, hchain, iterRest, hdrop, hsecond]
          rfl
        · have hdrop' : (d.ht iter.table).table.drop (iter.index + 1 + 1).toNat = [] := by
            rw [drop_eq_nil_iff, hlength]
            omega
          rw [iterPending, iterChain, iterRest]
          dsimp only
          rw [hnone, hdrop', hsecond]
          rfl
    · -- the next bucket of the same table
      have hlt : (iter.index + 1).toNat < (d.ht iter.table).table.length := by omega
      have hget := getElem?_eq_getElem hlt
      have heq : dictIterAdvance d iter = .ok ({ iter with
          index := iter.index + 1
          entry := ((d.ht iter.table).table[(iter.index + 1).toNat]).head?.map Sigma.fst }, true) := by
        rw [dictIterAdvance, if_neg hentry]
        dsimp only
        rw [if_neg hend, dictBucketHead, hget]
        rfl
      have hnext : (iter.index + 1 + 1).toNat = (iter.index + 1).toNat + 1 := by omega
      refine advanced_bucket h.sound { iter with
          index := iter.index + 1
          entry := ((d.ht iter.table).table[(iter.index + 1).toNat]).head?.map Sigma.fst }
        h.table (by dsimp only; omega) rfl hget rfl heq ?_ fun hnil => ?_
      · rw [iterPending, hchain, iterRest, iterRest, drop_eq_getElem_cons hlt, flatten_cons, nil_append,
          append_assoc]
        dsimp only
        rw [hnext]
      · rw [hrounds0, iterRounds, hnil]
        dsimp only
        rw [hnext]
        simp only [head?_nil, Option.map_none, Option.isSome_none, Bool.false_eq_true, if_false]
        omega

/-- The number of iterators is not looked at. -/
theorem IterInv.set_iterators (h : IterInv T d iter) (n : ℕ) :
    IterInv T { d with iterators := n } iter where
  sound := ⟨h.sound.ht0, h.sound.ht1, h.sound.nodup, h.sound.idle, h.sound.moved, h.sound.tables⟩
  table := h.table
  index := h.index
  fresh := h.fresh
  next := h.next

theorem Dict.Sound.chain_nodupKeys (h : d.Sound T) {table idx : ℕ} {chain : List (DictEntry K V)}
    (hchain : (d.ht table).table[idx]? = some chain) : chain.NodupKeys := by
  have hsub : ∀ {ht : Dictht K V}, ht.table[idx]? = some chain → chain <+ ht.entries := fun hget =>
    sublist_flatten_of_mem (mem_of_getElem? hget)
  unfold Dict.ht at hchain
  split_ifs at hchain
  · exact ((hsub hchain).trans (sublist_append_left ..)).map Sigma.fst |>.nodup h.nodup
  · exact ((hsub hchain).trans (sublist_append_right ..)).map Sigma.fst |>.nodup h.nodup

/-- The number of iterators after the first round of a call. -/
def iterCount (d : Dict K V) (iter : DictIterator K) : ℕ :=
  if iter.index = -1 ∧ iter.safe = true then (d.iterators + 1) % 2 ^ 64 else d.iterators

/-- The first call of `dictNext` counts the iterator. -/
theorem iterCount_spec (hfit : d.Fits) (hallow : iter.index = -1 → d.iterators + 1 < 2 ^ 64) :
    iterCount d iter < 2 ^ 64 ∧
      iterCount d iter = d.iterators + if iter.index = -1 ∧ iter.safe = true then 1 else 0 := by
  rw [iterCount]
  split_ifs with hfresh
  · have hlt := hallow hfresh.1
    rw [Nat.mod_eq_of_lt hlt]
    exact ⟨hlt, rfl⟩
  · exact ⟨hfit.iterators, rfl⟩

/-- What one call of `dictNext` does. A safe iterator registers with its first call; nothing else in
the dictionary changes. -/
structure Nexted (T : DictType K) (d : Dict K V) (iter : DictIterator K) (d' : Dict K V)
    (iter' : DictIterator K) (r : Option (DictEntry K V)) : Prop where
  inv : IterInv T d' iter'
  dict : d' = { d with iterators := iterCount d iter }
  safe : iter'.safe = iter.safe
  index : 0 ≤ iter'.index
  head : r = (iterPending T d iter).head?
  tail : iterPending T d' iter' = (iterPending T d iter).tail

theorem IterInv.start_eq (h : IterInv T d iter) :
    (if iter.entry.isSome then d else dictIterStart d iter)
      = { d with iterators := iterCount d iter } := by
  by_cases hfresh : iter.index = -1
  · obtain ⟨htable, hentry⟩ := h.fresh hfresh
    rw [hentry, dictIterStart, iterCount, hfresh, htable]
    by_cases hsafe : iter.safe = true
    · simp [hsafe]
    · simp [hsafe]
  · simp [dictIterStart, iterCount, hfresh]

theorem IterInv.dictNextLoop_spec (h : IterInv T d iter) (fuel : ℕ) (hfuel : iterRounds d iter < fuel) :
    ∃ d' iter' r, dictNextLoop T fuel d iter = .ok (d', iter', r) ∧ Nexted T d iter d' iter' r := by
  induction fuel generalizing d iter with
  | zero => omega
  | succ fuel ih =>
    have h1 := h.set_iterators (iterCount d iter)
    rw [dictNextLoop, h.start_eq]
    cases h1.advance with
    | ended iter' eq inv safe index pending pending' =>
      refine ⟨_, iter', none, ?_, inv, rfl, safe, index, ?_, ?_⟩
      · simp only [eq, bind, Except.bind]
        rfl
      · rw [show iterPending T d iter = [] from pending]
        rfl
      · rw [show iterPending T d iter = [] from pending]
        exact pending'
    | empty iter' eq inv safe index entry pending rounds =>
      obtain ⟨d', iter2, r, hloop, hn⟩ :=
        ih inv (lt_of_lt_of_le (show _ < iterRounds d iter from rounds) (Nat.le_of_lt_succ hfuel))
      have hstarted : ¬ (iter'.index = -1 ∧ iter'.safe = true) := fun hi => by
        have := hi.1
        omega
      have hcount : iterCount { d with iterators := iterCount d iter } iter' = iterCount d iter :=
        if_neg hstarted
      have hdict := hn.dict
      rw [hcount] at hdict
      refine ⟨d', iter2, r, ?_, hn.inv, hdict, hn.safe.trans safe, hn.index, ?_, ?_⟩
      · simp only [eq, bind, Except.bind, entry]
        exact hloop
      · rw [hn.head, pending]
        rfl
      · rw [hn.tail, pending]
        rfl
    | found iter' key chain eq safe index entry table hchain hkey pending =>
      obtain ⟨he, rest, hfrom⟩ : ∃ he rest, chainFrom T key chain = he :: rest := by
        apply exists_cons_of_ne_nil
        rw [ne_eq, chainFrom_eq_nil_iff, not_not]
        exact hkey
      have hnext := h1.sound.dictEntryNext_eq hchain hfrom
      have hpending : iterPending T d iter = he :: rest ++ iterRest d iter' := by
        rw [← hfrom]
        exact pending
      have hget : (d.ht iter'.table).table[iter'.index.toNat]? = some chain := hchain
      refine ⟨_, { iter' with nextEntry := rest.head?.map Sigma.fst }, some he, ?_,
        ⟨h1.sound, table, by dsimp only; omega, fun hi => ?_, fun e key' _ hkey' => ?_⟩, rfl, safe,
        index, by rw [hpending]; rfl, ?_⟩
      · simp only [eq, bind, Except.bind, entry, hnext]
        rfl
      · dsimp only at hi
        omega
      · -- the entry behind is in the same chain
        obtain ⟨he', hhead, rfl⟩ := Option.map_eq_some_iff.1 hkey'
        refine ⟨chain, hchain, mem_map_of_mem ?_⟩
        have hsuffix : he :: rest <:+ chain := by
          rw [← hfrom]
          exact dropWhile_suffix _
        exact hsuffix.subset (mem_cons_of_mem _ (mem_of_mem_head? hhead))
      · rw [hpending, cons_append, tail_cons, iterPending, iterChain]
        dsimp only
        rw [entry]
        cases rest with
        | nil => rfl
        | cons he' rest =>
          show chainFrom T he'.1 (((d.ht iter'.table).table).getD iter'.index.toNat [])
            ++ iterRest d iter' = he' :: rest ++ iterRest d iter'
          rw [getD_eq_getElem?_getD, hget, Option.getD_some,
            chainFrom_next (h1.sound.chain_nodupKeys hchain) hfrom]

/-- `dictNext` returns the first entry still to come, or `NULL` if there is none. -/
theorem IterInv.dictNext_spec (h : IterInv T d iter) :
    ∃ d' iter' r, dictNext T d iter = .ok (d', iter', r) ∧ Nexted T d iter d' iter' r := by
  apply h.dictNextLoop_spec
  rw [iterRounds]
  have htable : (d.ht iter.table).size ≤ max d.ht0.size d.ht1.size := by
    unfold Dict.ht
    split_ifs
    · exact le_max_left _ _
    · exact le_max_right _ _
  rcases h.table with h0 | ⟨h1, -⟩
  · have hht : d.ht iter.table = d.ht0 := by rw [h0]; rfl
    rw [hht, if_pos h0]
    split_ifs <;> omega
  · have hht : d.ht iter.table = d.ht1 := by rw [h1]; rfl
    rw [hht, if_neg (by omega)]
    split_ifs <;> omega

end RedisCounter
