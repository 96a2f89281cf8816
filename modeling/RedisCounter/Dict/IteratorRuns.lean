import RedisCounter.Dict.Iterator
import RedisCounter.Dict.ScanRuns

/-!
# Iterating while the dictionary changes

A safe iterator lets its user add, overwrite, look up and delete entries between two calls, as long as
it is not the entry the iterator will go on with that is deleted: it pauses the rehash, so entries stay
in their buckets. What has been returned and what is still to come then hold every key exactly once
that is in the dictionary all the time.
-/

namespace RedisCounter

open List Buckets Run

variable {K V : Type}

/-- The keys of a chain from `key` on. -/
def keysFrom (T : DictType K) (key : K) (ks : List K) : List K :=
  ks.dropWhile fun k => !T.keyCompare key k

theorem keys_chainFrom (T : DictType K) (key : K) (chain : List (DictEntry K V)) :
    (chainFrom T key chain).keys = keysFrom T key chain.keys :=
  (dropWhile_map (f := Sigma.fst) (p := fun k => !T.keyCompare key k) (l := chain)).symm

theorem DictType.not_keyCompare (T : DictType K) {key1 key2 : K} (h : key1 ≠ key2) :
    (!T.keyCompare key1 key2) = true := by
  rw [Bool.not_eq_true', Bool.eq_false_iff, ne_eq, T.keyCompare_iff]
  exact h

/-! ## Calls under a running iterator -/

section Paused

variable {T : DictType K} {d d' : Dict K V} {key : K} {val : V}

theorem dictMigrate_paused (hit : d.iterators ≠ 0) : dictMigrate T d = .ok d := by
  rw [dictMigrate, dictRehashStep, if_neg hit]
  split_ifs <;> rfl

/-- A paused lookup changes nothing. -/
theorem Dict.Sound.dictFind_paused (h : d.Sound T) (hit : d.iterators ≠ 0) (key : K) :
    ∃ r, dictFind T d key = .ok (d, r) ∧ Found d key r := by
  obtain ⟨d1, r, hfind, hd, hr⟩ := h.dictFind_spec key
  have heq : d1 = d := by
    rcases h.dictFind_cases hfind with ⟨heq, -⟩ | hmig
    · exact heq
    · rw [dictMigrate_paused hit] at hmig
      cases hmig
      rfl
  subst heq
  exact ⟨r, hfind, hr⟩

/-- A paused deletion takes the entry out of its chain and leaves all others where they are. -/
theorem Dict.Sound.dictGenericDelete_paused (h : d.Sound T) (hit : d.iterators ≠ 0)
    {he : Option (DictEntry K V)} (hdel : dictGenericDelete T d key = .ok (d', he)) :
    d' = d ∨ d.Unlinked key d' := by
  rcases h.dictGenericDelete_cases hdel with ⟨heq, -⟩ | ⟨d1, hmig, hcases⟩
  · exact .inl heq
  · rw [dictMigrate_paused hit] at hmig
    cases hmig
    exact hcases

/-- A dictionary, or the same with a second table to move to. -/
def Dict.Grown (d d' : Dict K V) : Prop :=
  d' = d ∨ d.rehashidx = none ∧ ∃ n, d' = { d with
    ht1 := ⟨replicate n [], n, n - 1, 0⟩, rehashidx := some 0 }

/-- With an entry there is a first table, so growing starts a rehash. -/
theorem Dict.Sound.grown_of_dictExpand (h : d.Sound T) (hkey : key ∈ d.entries.keys) {size : ℕ}
    (hexp : dictExpand d size = some d') : Dict.Grown d d' := by
  have htable : d.ht0.table ≠ [] := by
    intro hnil
    have hs0 : d.ht0.size ≠ 0 := by
      apply h.size0_ne_zero
      obtain ⟨val, hval⟩ := exists_of_mem_keys hkey
      rw [h.dictSize_eq]
      exact (length_pos_of_mem hval).ne'
    rw [← h.ht0.length, hnil] at hs0
    exact hs0 rfl
  unfold dictExpand at hexp
  dsimp only at hexp
  rw [if_neg htable] at hexp
  split_ifs at hexp with hguard hsame
  cases hexp
  exact .inr ⟨Dict.rehashidx_eq_none (not_or.1 hguard).1, _, rfl⟩

theorem Dict.Sound.grown_of_dictExpandIfNeeded (h : d.Sound T) (hkey : key ∈ d.entries.keys)
    (hexp : dictExpandIfNeeded d = some d') : Dict.Grown d d' := by
  unfold dictExpandIfNeeded at hexp
  split_ifs at hexp
  · cases hexp
    exact .inl rfl
  · exact h.grown_of_dictExpand hkey hexp
  · exact h.grown_of_dictExpand hkey hexp
  · cases hexp
    exact .inl rfl

/-- A paused insertion grows, and then finds the key or puts a new entry into one of the tables. -/
theorem Dict.Sound.dictAddRawExisting_paused (h : d.Sound T) (hit : d.iterators ≠ 0)
    {existing entry : Option EntryPtr}
    (hadd : dictAddRawExisting T d key val = .ok (d', existing, entry)) :
    ∃ d1, dictExpandIfNeeded d = some d1 ∧ Dict.Resized T d d1 ∧
      (d' = d1 ∨ d1.Prepended ⟨key, val⟩ d') := by
  obtain ⟨d2, hmig, -, hcases⟩ := h.dictAddRawExisting_cases hadd
  rw [dictMigrate_paused hit] at hmig
  cases hmig
  exact hcases

theorem exists_of_dictInsertAt {ht ht' : Dictht K V} {idx : ℕ} {he : DictEntry K V}
    (h : dictInsertAt ht idx he = .ok ht') :
    ∃ chain, ht.table[idx]? = some chain ∧ ht'.table = ht.table.set idx (he :: chain) := by
  unfold dictInsertAt at h
  rcases hget : ht.table[idx]? with _ | chain
  · rw [hget] at h
    cases h
  · rw [hget] at h
    cases h
    exact ⟨chain, rfl, rfl⟩

end Paused

/-! ## Edits of a chain that an iterator does not notice -/

section Edits

variable {T : DictType K} {key nk k' : K} {ks pre post : List K}

theorem keysFrom_append_of_mem (h : nk ∈ pre) :
    keysFrom T nk (pre ++ post) = keysFrom T nk pre ++ post := by
  rw [keysFrom, dropWhile_append, if_neg]
  · rfl
  · rw [List.isEmpty_iff, dropWhile_eq_nil_iff]
    intro hall
    have := hall nk h
    rw [(T.keyCompare_iff nk nk).2 rfl] at this
    cases this

theorem keysFrom_append_of_notMem (h : nk ∉ pre) :
    keysFrom T nk (pre ++ post) = keysFrom T nk post := by
  apply dropWhile_append_of_pos
  intro k hk
  have hne : nk ≠ k := fun heq => h (heq ▸ hk)
  exact T.not_keyCompare hne

variable [DecidableEq K]

/-- As far as `key` and an iterator that goes on with `nk` are concerned, the keys `ks` of a chain have
not changed. -/
def SameFor (T : DictType K) (key : K) (next : Option K) (ks ks' : List K) : Prop :=
  ks'.count key = ks.count key ∧ ∀ nk ∈ ks, next = some nk →
    nk ∈ ks' ∧ (keysFrom T nk ks').count key = (keysFrom T nk ks).count key

theorem SameFor.refl (next : Option K) (ks : List K) : SameFor T key next ks ks :=
  ⟨rfl, fun _ hnk _ => ⟨hnk, rfl⟩⟩

/-- Another key in front. -/
theorem SameFor.cons {next : Option K} (hkey : k' ≠ key) (hks : k' ∉ ks) :
    SameFor T key next ks (k' :: ks) := by
  refine ⟨count_cons_of_ne hkey, fun nk hnk _ => ⟨mem_cons_of_mem _ hnk, ?_⟩⟩
  rw [keysFrom, dropWhile_cons_of_pos]
  · rfl
  · -- the iterator's key is further on
    have hne : nk ≠ k' := fun h => hks (h ▸ hnk)
    exact T.not_keyCompare hne

/-- Another key taken out, which is not the one the iterator goes on with. -/
theorem SameFor.erase {next : Option K} (hkey : k' ≠ key) (hnext : next ≠ some k') :
    SameFor T key next (pre ++ k' :: post) (pre ++ post) := by
  refine ⟨by rw [count_append, count_append, count_cons_of_ne hkey], fun nk hnk hn => ?_⟩
  have hne : nk ≠ k' := fun h => hnext (h ▸ hn)
  by_cases hpre : nk ∈ pre
  · refine ⟨mem_append_left _ hpre, ?_⟩
    rw [keysFrom_append_of_mem hpre, keysFrom_append_of_mem hpre, count_append, count_append,
      count_cons_of_ne hkey]
  · have hpost : nk ∈ post := by
      rcases mem_append.1 hnk with h | h
      · exact absurd h hpre
      · exact (mem_cons.1 h).resolve_left hne
    refine ⟨mem_append_right _ hpost, ?_⟩
    rw [keysFrom_append_of_notMem hpre, keysFrom_append_of_notMem hpre, keysFrom, keysFrom,
      dropWhile_cons_of_pos]
    exact T.not_keyCompare hne

/-! ## Edits of a table -/

/-- Two tables with the same chains, as far as `key` and the iterator are concerned. -/
def SameTable (T : DictType K) (key : K) (next : Option K)
    (table table' : List (List (DictEntry K V))) : Prop :=
  Forall₂ (fun chain chain' => SameFor T key next chain.keys chain'.keys) table table'

variable {table table' : List (List (DictEntry K V))} {next : Option K}

theorem SameTable.refl (T : DictType K) (key : K) (next : Option K)
    (table : List (List (DictEntry K V))) : SameTable T key next table table :=
  forall₂_same.2 fun chain _ => SameFor.refl next chain.keys

/-- One chain replaced. -/
theorem SameTable.modify {i : ℕ} {f : List (DictEntry K V) → List (DictEntry K V)}
    (h : ∀ chain, table[i]? = some chain → SameFor T key next chain.keys (f chain).keys) :
    SameTable T key next table (table.modify i f) := by
  apply forall₂_of_length_eq_of_get (length_modify ..).symm
  intro j hj hj'
  have hget : (table.modify i f)[j] = if i = j then f table[j] else table[j] := getElem_modify ..
  rw [get_eq_getElem, get_eq_getElem, hget]
  split_ifs with hij
  · subst hij
    exact h _ (getElem?_eq_getElem hj)
  · exact SameFor.refl next _

theorem SameTable.count_flatten (h : SameTable T key next table table') :
    table'.flatten.keys.count key = table.flatten.keys.count key := by
  induction h with
  | nil => rfl
  | @cons chain chain' table table' hchain _ ih =>
    have hkeys : ∀ (c : List (DictEntry K V)) (t : List (List (DictEntry K V))),
        (c :: t).flatten.keys = c.keys ++ t.flatten.keys := fun c t => map_append
    rw [hkeys, hkeys, count_append, count_append, hchain.1, ih]

theorem SameTable.getElem? (h : SameTable T key next table table') {i : ℕ}
    {chain : List (DictEntry K V)} (hget : table[i]? = some chain) :
    ∃ chain', table'[i]? = some chain' ∧ SameFor T key next chain.keys chain'.keys := by
  obtain ⟨hlt, hchain⟩ := List.getElem?_eq_some_iff.1 hget
  have hlt' : i < table'.length := h.length_eq ▸ hlt
  have hsame := h.get hlt hlt'
  rw [get_eq_getElem, get_eq_getElem, hchain] at hsame
  exact ⟨_, getElem?_eq_getElem hlt', hsame⟩

theorem SameTable.set {i : ℕ} {chain chain' : List (DictEntry K V)} (hget : table[i]? = some chain)
    (h : SameFor T key next chain.keys chain'.keys) : SameTable T key next table (table.set i chain') := by
  rw [set_eq_modify]
  apply SameTable.modify
  intro c hc
  rw [hget] at hc
  cases hc
  exact h

/-! ## Edits of the dictionary -/

/-- The entry the iterator goes on with. -/
def DictIterator.goesOn (iter : DictIterator K) : Option K :=
  if iter.entry.isSome then iter.nextEntry else none

variable {d d' d1 : Dict K V} {iter : DictIterator K}

/-- The iterator stands as before, and `key` is still to come as often as before. -/
structure IterKept (T : DictType K) (key : K) (d d' : Dict K V) (iter : DictIterator K) : Prop where
  inv : IterInv T d' iter
  count : (iterPending T d' iter).keys.count key = (iterPending T d iter).keys.count key

theorem IterKept.trans (h1 : IterKept T key d d1 iter) (h2 : IterKept T key d1 d' iter) :
    IterKept T key d d' iter :=
  ⟨h2.inv, h2.count.trans h1.count⟩

/-- Another second table, while there was none, that does not have the key. -/
def SecondFor (T : DictType K) (key : K) (next : Option K) (d d' : Dict K V) : Prop :=
  SameTable T key next d.ht1.table d'.ht1.table ∨
    (d.ht1.table = [] ∧ key ∉ d'.ht1.entries.keys)

theorem SecondFor.count (h : SecondFor T key next d d') :
    d'.ht1.entries.keys.count key = d.ht1.entries.keys.count key := by
  rcases h with h | ⟨hnil, hkey⟩
  · exact h.count_flatten
  · have hnone : d.ht1.entries = [] := by rw [Dictht.entries, hnil]; rfl
    rw [count_eq_zero_of_not_mem hkey, hnone]
    rfl

theorem IterInv.kept (h : IterInv T d iter) (hs : d'.Sound T)
    (hr : dictIsRehashing d = true → dictIsRehashing d' = true)
    (h0 : SameTable T key iter.goesOn d.ht0.table d'.ht0.table)
    (h1 : SecondFor T key iter.goesOn d d') : IterKept T key d d' iter := by
  have htable : SameTable T key iter.goesOn (d.ht iter.table).table (d'.ht iter.table).table := by
    rcases h.table with ht | ⟨ht, hrehash⟩
    · rw [ht]
      exact h0
    · rw [ht]
      refine h1.resolve_right fun hnil => ?_
      -- while a rehash runs there is a second table
      apply (h.sound.tables hrehash).2
      rw [← h.sound.ht1.length, hnil.1]
      rfl
  have hkeys : ∀ l l' : List (DictEntry K V), (l ++ l').keys = l.keys ++ l'.keys :=
    fun _ _ => map_append
  have hrest : (iterRest d' iter).keys.count key = (iterRest d iter).keys.count key := by
    rw [iterRest, iterRest, hkeys, hkeys, count_append, count_append]
    congr 1
    · exact SameTable.count_flatten (forall₂_drop _ htable)
    · split_ifs
      · exact h1.count
      · rfl
  refine ⟨⟨hs, h.table.imp_right fun ht => ⟨ht.1, hr ht.2⟩, h.index, h.fresh, ?_⟩, ?_⟩
  · intro e nk he hn
    obtain ⟨chain, hchain, hnk⟩ := h.next e nk he hn
    obtain ⟨chain', hchain', hsame⟩ := htable.getElem? hchain
    have hgoes : iter.goesOn = some nk := by rw [DictIterator.goesOn, he]; exact hn
    exact ⟨chain', hchain', (hsame.2 nk hnk hgoes).1⟩
  · rw [iterPending, iterPending, hkeys, hkeys, count_append, count_append, hrest]
    congr 1
    rcases he : iter.entry with _ | e
    · rw [iterChain, iterChain, he]
    · rcases hn : iter.nextEntry with _ | nk
      · rw [iterChain, iterChain, he, hn]
      · obtain ⟨chain, hchain, hnk⟩ := h.next e nk he hn
        obtain ⟨chain', hchain', hsame⟩ := htable.getElem? hchain
        have hgoes : iter.goesOn = some nk := by rw [DictIterator.goesOn, he]; exact hn
        rw [iterChain, iterChain, he, hn]
        dsimp only
        rw [getD_eq_getElem?_getD, getD_eq_getElem?_getD, hchain, hchain', Option.getD_some,
          Option.getD_some, keys_chainFrom, keys_chainFrom]
        exact (hsame.2 nk hnk hgoes).2

theorem IterKept.refl (h : IterInv T d iter) : IterKept T key d d iter := ⟨h, rfl⟩

theorem IterKept.set_iterators (h : IterInv T d iter) (n : ℕ) :
    IterKept T key d { d with iterators := n } iter :=
  ⟨h.set_iterators n, rfl⟩

/-- Overwriting keeps the keys of every chain. -/
theorem IterInv.kept_setVal (h : IterInv T d iter) {p : EntryPtr} {val : V}
    (hat : d.At p ⟨k', val⟩) (val' : V) : IterKept T key d (dictSetVal d p val') iter := by
  have hsame : ∀ (next : Option K) (ht : Dictht K V),
      SameTable T key next ht.table (dicthtSetVal ht p.idx p.pos val').table := by
    intro next ht
    apply SameTable.modify
    intro chain _
    have hkeys : (chain.modify p.pos fun he => (⟨he.1, val'⟩ : DictEntry K V)).keys = chain.keys := by
      apply ext_getElem?
      intro j
      show (map Sigma.fst (chain.modify p.pos _))[j]? = (map Sigma.fst chain)[j]?
      rw [getElem?_map, getElem?_map, getElem?_modify]
      rcases chain[j]? with _ | he
      · rfl
      · simp only [Option.map_eq_map, Option.map_some]
        split_ifs <;> rfl
    rw [hkeys]
    exact SameFor.refl next _
  obtain ⟨hsound, -⟩ := h.sound.dictSetVal_spec hat val'
  revert hsound
  unfold dictSetVal
  split_ifs
  · exact fun hsound => h.kept hsound id (hsame _ _) (.inl (.refl ..))
  · exact fun hsound => h.kept hsound id (.refl ..) (.inl (hsame _ _))

/-- Unlinking another key, which is not the one the iterator goes on with. -/
theorem sameTable_dictUnlinkAt {ht : Dictht K V} {idx pos : ℕ} {val : V}
    (hat : ht.At idx pos ⟨k', val⟩) (hkey : k' ≠ key) (hnext : next ≠ some k') :
    SameTable T key next ht.table (dictUnlinkAt ht idx pos).table := by
  obtain ⟨chain, hchain, hpos⟩ := hat
  obtain ⟨hlt, hget⟩ := List.getElem?_eq_some_iff.1 hpos
  apply SameTable.modify
  intro c hc
  rw [hchain] at hc
  cases hc
  have hsplit : chain.keys = (chain.take pos).keys ++ k' :: (chain.drop (pos + 1)).keys := by
    conv_lhs => rw [← take_append_drop pos chain, drop_eq_getElem_cons hlt, hget]
    simp [keys]
  have hcut : (chain.eraseIdx pos).keys = (chain.take pos).keys ++ (chain.drop (pos + 1)).keys := by
    rw [eraseIdx_eq_take_drop_succ]
    simp [keys]
  rw [hsplit, hcut]
  exact SameFor.erase hkey hnext

/-- A new entry at the head of a chain. -/
theorem sameTable_insert {ht : Dictht K V} {idx : ℕ} {chain : List (DictEntry K V)} {val : V}
    (hchain : ht.table[idx]? = some chain) (hkey : k' ≠ key) (hnew : k' ∉ ht.entries.keys) :
    SameTable T key next ht.table (ht.table.set idx (⟨k', val⟩ :: chain)) := by
  apply SameTable.set hchain
  refine SameFor.cons hkey fun hmem => hnew ?_
  obtain ⟨v, hv⟩ := exists_of_mem_keys hmem
  exact mem_keys_of_mem (mem_flatten_of_mem_chain hchain hv)

/-- A second table without entries. -/
theorem IterInv.kept_grown (h : IterInv T d iter) (hd1 : d1.Sound T) (hg : Dict.Grown d d1) :
    IterKept T key d d1 iter := by
  rcases hg with rfl | ⟨hidle, n, rfl⟩
  · exact .refl h
  · refine h.kept hd1 (fun _ => rfl) (.refl ..) (.inr ⟨?_, ?_⟩)
    · rw [h.sound.idle hidle]
      rfl
    · simp [Dictht.entries]

/-- A second table, or the error that leaves the dictionary as it is. -/
theorem IterInv.kept_getD (h : IterInv T d iter) (hit : d.iterators ≠ 0) {r : Option (Dict K V)}
    (hr : ∀ d1, r = some d1 → Dict.Resized T d d1 ∧ Dict.Grown d d1) :
    IterKept T key d (r.getD d) iter ∧ (r.getD d).iterators ≠ 0 := by
  cases r with
  | none => exact ⟨.refl h, hit⟩
  | some d1 =>
    obtain ⟨hd1, hg⟩ := hr d1 rfl
    exact ⟨h.kept_grown hd1.sound hg, hd1.iterators ▸ hit⟩

/-- Adding under a running iterator. -/
theorem IterInv.kept_add (h : IterInv T d iter) (hit : d.iterators ≠ 0) (hkey : key ∈ d.entries.keys)
    {val : V} {existing entry : Option EntryPtr}
    (hadd : dictAddRawExisting T d k' val = .ok (d', existing, entry)) :
    IterKept T key d d' iter ∧ Dict.Added T d k' val d' existing entry := by
  obtain ⟨d2, ex, en, hadd2, hadded⟩ := h.sound.dictAddRawExisting_spec k' val
  rw [hadd] at hadd2
  cases hadd2
  have hd' := hadded.sound_iterators.1
  refine ⟨?_, hadded⟩
  obtain ⟨d1, hexp, hd1, hcases⟩ := h.sound.dictAddRawExisting_paused hit hadd
  have hgrown : IterKept T key d d1 iter :=
    h.kept_grown hd1.sound (h.sound.grown_of_dictExpandIfNeeded hkey hexp)
  rcases hcases with rfl | ⟨hnew, idx, ht, ⟨hins, rfl⟩ | ⟨hins, rfl⟩⟩
  · exact hgrown
  all_goals
    have hne : k' ≠ key := by
      rintro rfl
      rw [hd1.entries] at hnew
      exact hnew hkey
    rw [Dict.keys_entries, mem_append, not_or] at hnew
    obtain ⟨chain, hchain, hset⟩ := exists_of_dictInsertAt hins
  · refine hgrown.trans (hgrown.inv.kept hd' id ?_ (.inl (.refl ..)))
    rw [hset]
    exact sameTable_insert hchain hne hnew.1
  · refine hgrown.trans (hgrown.inv.kept hd' id (.refl ..) (.inl ?_))
    rw [hset]
    exact sameTable_insert hchain hne hnew.2

/-- Deleting under a running iterator. -/
theorem IterInv.kept_delete (h : IterInv T d iter) (hit : d.iterators ≠ 0) {he : Option (DictEntry K V)}
    (hdel : dictGenericDelete T d k' = .ok (d', he)) (hkey' : key ∈ d'.entries.keys)
    (hnext : iter.goesOn ≠ some k') : IterKept T key d d' iter ∧ d'.iterators = d.iterators := by
  obtain ⟨d2, he2, hdel2, hdeleted⟩ := h.sound.dictGenericDelete_spec k'
  rw [hdel] at hdel2
  cases hdel2
  have hd' := hdeleted.sound_iterators
  refine ⟨?_, hd'.2⟩
  have hne : k' ∈ d.entries.keys → k' ≠ key := by
    rintro hk rfl
    cases hdeleted with
    | absent habs rehashed => exact habs hk
    | present val sound perm iterators =>
      -- the key occurs once, and that entry is gone
      have hnodup := (perm_nodupKeys perm).1 h.sound.nodup
      exact (nodupKeys_cons.1 hnodup).1 hkey'
  rcases h.sound.dictGenericDelete_paused hit hdel with rfl | ⟨idx, pos, val, hat, rfl⟩ |
    ⟨idx, pos, val, hat, rfl⟩
  · exact .refl h
  · have hk := hne (mem_keys_of_mem (mem_append_left _ hat.mem_entries))
    exact h.kept hd'.1 id (sameTable_dictUnlinkAt hat hk hnext) (.inl (.refl ..))
  · have hk := hne (mem_keys_of_mem (mem_append_right _ hat.mem_entries))
    exact h.kept hd'.1 id (.refl ..) (.inl (sameTable_dictUnlinkAt hat hk hnext))

end Edits

/-! ## The user of a safe iterator -/

/-- What happens while an iterator is in use: a call of the dictionary's interface, or `dictNext`. -/
inductive IterStep (K V : Type)
  | call (c : DictCall K V)
  | next

/-- The dictionary, the iterator, what it has returned, and whether the last call returned `NULL`. -/
structure IterState (K V : Type) where
  dict : Dict K V
  iter : DictIterator K
  returned : List (DictEntry K V)
  finished : Bool
deriving DecidableEq

def iterStep (T : DictType K) (s : IterState K V) : IterStep K V → Except Fault (IterState K V × Unit)
  | .call c => do
    let (d, _) ← dictStep T s.dict c
    pure ({ s with dict := d }, ())
  | .next => do
    let (d, iter, r) ← dictNext T s.dict s.iter
    pure (⟨d, iter, s.returned ++ r.toList, r.isNone⟩, ())

/-- What keeps an iterator in order. From the first `dictNext` on the tables are not moved or cleared by
hand, and the entry the iterator goes on with is not deleted. Another iterator may be released, but not
this one. -/
def DictIterator.Spared (iter : DictIterator K) (d : Dict K V) : DictCall K V → Prop
  | .delete key => iter.goesOn ≠ some key
  | .unlink key => iter.goesOn ≠ some key
  | .rehash _ => iter.index = -1
  | .rehashMilliseconds _ _ => iter.index = -1
  | .empty => iter.index = -1
  | .release => (if iter.index = -1 then 0 else 1) < d.iterators
  | _ => True

-- one alternative for each call of `DictIterator.Spared`
instance decidableSpared [DecidableEq K] (iter : DictIterator K) (d : Dict K V) :
    ∀ c, Decidable (iter.Spared d c)
  | .delete key => inferInstanceAs (Decidable (iter.goesOn ≠ some key))
  | .unlink key => inferInstanceAs (Decidable (iter.goesOn ≠ some key))
  | .rehash _ => inferInstanceAs (Decidable (iter.index = -1))
  | .rehashMilliseconds _ _ => inferInstanceAs (Decidable (iter.index = -1))
  | .empty => inferInstanceAs (Decidable (iter.index = -1))
  | .release => inferInstanceAs (Decidable ((if iter.index = -1 then 0 else 1) < d.iterators))
  | .add _ _ => .isTrue trivial
  | .replace _ _ => .isTrue trivial
  | .addOrFind _ _ => .isTrue trivial
  | .overwrite _ _ => .isTrue trivial
  | .fetch _ => .isTrue trivial
  | .size => .isTrue trivial
  | .resize => .isTrue trivial
  | .expand _ => .isTrue trivial
  | .iterate => .isTrue trivial

/-- What the user of a safe iterator may do. -/
def IterAllowed (s : IterState K V) : IterStep K V → Prop
  | .call c => DictAllowed s.dict c ∧ s.iter.Spared s.dict c
  | .next => s.iter.index = -1 → s.dict.iterators + 1 < 2 ^ 64

instance decidableIterAllowed [DecidableEq K] (s : IterState K V) : ∀ i, Decidable (IterAllowed s i)
  | .call c => inferInstanceAs (Decidable (DictAllowed s.dict c ∧ s.iter.Spared s.dict c))
  | .next => inferInstanceAs (Decidable (s.iter.index = -1 → s.dict.iterators + 1 < 2 ^ 64))

section User

variable [DecidableEq K] {T : DictType K} {key : K}

/-- One call of the dictionary's interface under a running iterator. -/
theorem IterInv.kept_call {d d' : Dict K V} {iter : DictIterator K} (h : IterInv T d iter)
    (hfit : d.Fits) (hindex : 0 ≤ iter.index) (hit : d.iterators ≠ 0) (hkey : key ∈ d.entries.keys)
    (hkey' : key ∈ d'.entries.keys) {c : DictCall K V} {r : DictReply K V} (hallow : DictAllowed d c)
    (hspared : iter.Spared d c) (hcall : dictCall T d c = .ok (d', r)) :
    IterKept T key d d' iter ∧ d'.iterators ≠ 0 := by
  have hstarted : ¬ iter.index = -1 := by omega
  cases c with
  | add k' val =>
    obtain ⟨d1, existing, entry, hadd, -⟩ := h.sound.dictAddRawExisting_spec k' val
    simp only [dictCall, dictAdd, Dict.dictAddRaw_eq, hadd, bind, Except.bind, Except.map] at hcall
    cases hcall
    obtain ⟨hkept, hadded⟩ := h.kept_add hit hkey hadd
    exact ⟨hkept, hadded.sound_iterators.2 ▸ hit⟩
  | replace k' val =>
    obtain ⟨d1, existing, entry, hadd, -⟩ := h.sound.dictAddRawExisting_spec k' val
    obtain ⟨hkept, hadded⟩ := h.kept_add hit hkey hadd
    have hit1 := hadded.sound_iterators.2
    simp only [dictCall, dictReplace, hadd, bind, Except.bind] at hcall
    cases hadded with
    | new p hk sound perm iterators hat =>
      cases hcall
      exact ⟨hkept, hit1 ▸ hit⟩
    | old p val' rehashed hat =>
      cases hcall
      obtain ⟨-, hit2, -⟩ := rehashed.sound.dictSetVal_spec hat val
      exact ⟨hkept.trans (hkept.inv.kept_setVal hat val), (hit2.trans hit1) ▸ hit⟩
  | addOrFind k' val =>
    obtain ⟨d1, existing, entry, hadd, -⟩ := h.sound.dictAddRawExisting_spec k' val
    simp only [dictCall, dictAddOrFind, hadd, bind, Except.bind, pure, Except.pure] at hcall
    cases hcall
    obtain ⟨hkept, hadded⟩ := h.kept_add hit hkey hadd
    exact ⟨hkept, hadded.sound_iterators.2 ▸ hit⟩
  | overwrite k' val =>
    obtain ⟨r, hfind, hr⟩ := h.sound.dictFind_paused hit k'
    simp only [dictCall, hfind, bind, Except.bind] at hcall
    cases hr with
    | absent habs =>
      cases hcall
      exact ⟨.refl h, hit⟩
    | present p val' hat =>
      cases hcall
      obtain ⟨-, hit2, -⟩ := h.sound.dictSetVal_spec hat val
      exact ⟨h.kept_setVal hat val, hit2 ▸ hit⟩
  | fetch k' =>
    obtain ⟨r, hfind, -⟩ := h.sound.dictFind_paused hit k'
    simp only [dictCall, dictFetchValue, hfind, bind, Except.bind, pure, Except.pure] at hcall
    cases hcall
    exact ⟨.refl h, hit⟩
  | delete k' =>
    obtain ⟨d1, he, hdel, -⟩ := h.sound.dictGenericDelete_spec k'
    simp only [dictCall, dictDelete, hdel, bind, Except.bind, pure, Except.pure] at hcall
    cases hcall
    obtain ⟨hkept, hit1⟩ := h.kept_delete hit hdel hkey' hspared
    exact ⟨hkept, hit1 ▸ hit⟩
  | unlink k' =>
    obtain ⟨d1, he, hdel, -⟩ := h.sound.dictGenericDelete_spec k'
    simp only [dictCall, dictUnlink, hdel, bind, Except.bind, pure, Except.pure] at hcall
    cases hcall
    obtain ⟨hkept, hit1⟩ := h.kept_delete hit hdel hkey' hspared
    exact ⟨hkept, hit1 ▸ hit⟩
  | size =>
    cases hcall
    exact ⟨.refl h, hit⟩
  | resize =>
    cases hcall
    apply h.kept_getD hit
    intro d1 hd1
    refine ⟨h.sound.dictResize_spec hd1, ?_⟩
    unfold dictResize at hd1
    split_ifs at hd1
    exact h.sound.grown_of_dictExpand hkey hd1
  | expand size =>
    cases hcall
    exact h.kept_getD hit fun d1 hd1 =>
      ⟨h.sound.dictExpand_spec hd1, h.sound.grown_of_dictExpand hkey hd1⟩
  | rehash n => exact absurd hspared hstarted
  | rehashMilliseconds ms clock => exact absurd hspared hstarted
  | empty => exact absurd hspared hstarted
  | iterate =>
    have hlt : d.iterators + 1 < 2 ^ 64 := hallow
    rw [dictCall, Dict.dictIterStart_safe, Nat.mod_eq_of_lt hlt] at hcall
    cases hcall
    exact ⟨.set_iterators h _, Nat.succ_ne_zero _⟩
  | release =>
    rw [dictCall, Dict.dictReleaseIterator_started] at hcall
    cases hcall
    refine ⟨.set_iterators h _, ?_⟩
    have hmore : (if iter.index = -1 then 0 else 1) < d.iterators := hspared
    have hlt := hfit.iterators
    rw [if_neg hstarted] at hmore
    dsimp only
    omega

/-! ## Exactly once -/

/-- Before the first call everything is still to come; from then on the iterator is registered. What
has been returned and what is still to come hold the key once, and at the end it has been returned. -/
structure IterHist (T : DictType K) (key : K) (s : IterState K V) : Prop where
  inv : IterInv T s.dict s.iter
  fits : s.dict.Fits
  safe : s.iter.safe = true
  paused : 0 ≤ s.iter.index → s.dict.iterators ≠ 0
  fresh : s.iter.index = -1 → s.returned = [] ∧ s.iter = dictGetSafeIterator
  once : s.returned.keys.count key + (iterPending T s.dict s.iter).keys.count key = 1
  finished : s.finished = true → s.returned.keys.count key = 1

theorem count_keys_eq_one {d : Dict K V} (h : d.Sound T) (hkey : key ∈ d.entries.keys) :
    d.entries.keys.count key = 1 :=
  count_eq_one_of_mem h.nodup hkey

/-- `dictNext` passes the first entry from what is to come to what has been returned. -/
theorem IterHist.step_next {s : IterState K V} (h : IterHist T key s)
    (hallow : IterAllowed s .next) :
    ∃ s' o, iterStep T s .next = .ok (s', o) ∧ IterHist T key s' := by
  obtain ⟨d', iter', r, hnext, hn⟩ := h.inv.dictNext_spec
  obtain ⟨hlt, hcount⟩ := iterCount_spec h.fits hallow
  refine ⟨⟨d', iter', s.returned ++ r.toList, r.isNone⟩, (), ?_, hn.inv, ?_, hn.safe.trans h.safe,
    fun _ => ?_, fun hi => ?_, ?_, fun hfin => ?_⟩
  · simp only [iterStep, hnext, bind, Except.bind]
    rfl
  · dsimp only
    rw [hn.dict]
    exact ⟨h.fits.size0, h.fits.size1, hlt⟩
  · dsimp only
    rw [hn.dict]
    dsimp only
    rw [hcount]
    split_ifs with hfresh
    · exact Nat.succ_ne_zero _
    · have hindex := h.inv.index
      have hsafe := h.safe
      exact h.paused (by
        by_contra hneg
        exact hfresh ⟨by omega, hsafe⟩)
  · have := hn.index
    dsimp only at hi
    omega
  · have honce := h.once
    have hkeys : (s.returned ++ r.toList).keys = s.returned.keys ++ keys r.toList := map_append
    dsimp only
    rw [hkeys, hn.tail, hn.head, count_append, ← honce]
    rcases iterPending T s.dict s.iter with _ | ⟨he, rest⟩
    · rfl
    · have hcons : (he :: rest).keys = [he].keys ++ rest.keys := rfl
      rw [hcons, count_append, Nat.add_assoc]
      rfl
  · have honce := h.once
    have hnil : iterPending T s.dict s.iter = [] := by
      have hnone : r = none := by simpa using hfin
      rw [hn.head] at hnone
      exact head?_eq_none_iff.1 hnone
    have hr : r = none := by simpa using hfin
    dsimp only
    rw [hnil] at honce
    rw [hr]
    simpa using honce

theorem IterHist.step {s : IterState K V} (h : IterHist T key s) {i : IterStep K V}
    (hallow : IterAllowed s i) (hkey : key ∈ s.dict.entries.keys) :
    ∃ s' o, iterStep T s i = .ok (s', o) ∧ (key ∈ s'.dict.entries.keys → IterHist T key s') := by
  cases i with
  | next =>
    obtain ⟨s', o, hstep, h'⟩ := h.step_next hallow
    exact ⟨s', o, hstep, fun _ => h'⟩
  | call c =>
    have hready : s.dict.Ready T := ⟨h.inv.sound, h.fits⟩
    obtain ⟨d', r, hstep, hd'⟩ := hready.dictStep_spec hallow.1
    refine ⟨{ s with dict := d' }, (), ?_, fun hkey' => ?_⟩
    · simp only [iterStep, hstep, bind, Except.bind]
      rfl
    · by_cases hfresh : s.iter.index = -1
      · -- not yet started: everything there is now is to come
        obtain ⟨hreturned, hiter⟩ := h.fresh hfresh
        refine ⟨?_, hd'.fits, h.safe, fun hi => ?_, h.fresh, ?_, h.finished⟩
        · dsimp only
          rw [hiter]
          exact iterInv_create hd'.sound true
        · dsimp only at hi
          omega
        · dsimp only
          rw [hreturned, hiter]
          show 0 + d'.entries.keys.count key = 1
          rw [count_keys_eq_one hd'.sound hkey', Nat.zero_add]
      · have hindex : 0 ≤ s.iter.index := by
          have := h.inv.index
          omega
        obtain ⟨hkept, hit⟩ := h.inv.kept_call h.fits hindex (h.paused hindex) hkey hkey' hallow.1
          hallow.2 (Dict.dictCall_of_dictStep hstep)
        exact ⟨hkept.inv, hd'.fits, h.safe, fun _ => hit, h.fresh, hkept.count ▸ h.once, h.finished⟩

end User

end RedisCounter
