import RedisCounter.Dict.Iterator
import RedisCounter.Lib.Run

/-!
# One call of the interface

`DictCall` lists the calls and `dictStep` makes one. A call that counts an `int` past its range is a
fault, and so is one that makes a table whose bytes do not fit a `size_t`; `DictAllowed` says when
neither can happen. Whatever the call is, it does no more to the shape of the tables than `Shaped` says:
it moves the rehash ahead, makes at most one new table, and edits entries in place.
-/

namespace RedisCounter

open List Buckets Run

variable {K V : Type}

/-! ## Calls and replies -/

/-- A call of the interface. `overwrite` stores through the entry that `dictFind` returns; `iterate`
is the first `dictNext` of a safe iterator and `release` its `dictReleaseIterator`, as far as they
touch the dictionary. -/
inductive DictCall (K V : Type)
  | add (key : K) (val : V)
  | replace (key : K) (val : V)
  | addOrFind (key : K) (val : V)
  | overwrite (key : K) (val : V)
  | fetch (key : K)
  | delete (key : K)
  | unlink (key : K)
  | size
  | resize
  | expand (size : ℕ)
  | rehash (n : ℕ)
  | rehashMilliseconds (ms : ℤ) (clock : ℕ → ℤ)
  | empty
  | iterate
  | release

/-- What a call returns. -/
inductive DictReply (K V : Type)
  | flag (ok : Bool)
  | value (val : Option V)
  | entry (he : Option (DictEntry K V))
  | count (n : ℕ)
  | done
deriving DecidableEq

/-- The entry a pointer points to. -/
def dictEntryAt (d : Dict K V) (p : EntryPtr) : Option (DictEntry K V) :=
  (if p.table = 0 then d.ht0 else d.ht1).table[p.idx]?.bind (·[p.pos]?)

/-- The call itself. -/
def dictCall (T : DictType K) (d : Dict K V) :
    DictCall K V → Except Fault (Dict K V × DictReply K V)
  | .add key val => do
    let (d, ok) ← dictAdd T d key val
    pure (d, .flag ok)
  | .replace key val => do
    let (d, new) ← dictReplace T d key val
    pure (d, .flag new)
  | .addOrFind key val => do
    let (d, entry) ← dictAddOrFind T d key val
    pure (d, .entry (entry.bind (dictEntryAt d)))
  | .overwrite key val => do
    match ← dictFind T d key with
    | (d, some (p, _)) => pure (dictSetVal d p val, .flag true)
    | (d, none) => pure (d, .flag false)
  | .fetch key => do
    let (d, val) ← dictFetchValue T d key
    pure (d, .value val)
  | .delete key => do
    let (d, ok) ← dictDelete T d key
    pure (d, .flag ok)
  | .unlink key => do
    let (d, he) ← dictUnlink T d key
    pure (d, .entry he)
  | .size => pure (d, .count (dictSize d))
  | .resize => pure ((dictResize d).getD d, .done)
  | .expand size => pure ((dictExpand d size).getD d, .done)
  -- `int empty_visits = n*10`
  | .rehash n =>
    if n * 10 < 2 ^ 31 then do
      let (d, _) ← dictRehashMore T d n
      pure (d, .done)
    else throw .intOverflow
  -- `int rehashes`
  | .rehashMilliseconds ms clock => do
    let (d, rehashes) ← dictRehashMilliseconds T d ms clock
    if rehashes < 2 ^ 31 then pure (d, .done) else throw .intOverflow
  | .empty => pure ((dictEmpty d).1, .done)
  | .iterate => pure (dictIterStart d (dictGetSafeIterator : DictIterator K), .done)
  -- an iterator that has been started
  | .release =>
    pure (dictReleaseIterator d { (dictGetSafeIterator : DictIterator K) with index := 0 }, .done)

/-- `realsize*sizeof(dictEntry*)` of both tables is what it is without wrapping. -/
def dictBytesFit (d : Dict K V) : Bool := d.ht0.size * 8 < 2 ^ 64 ∧ d.ht1.size * 8 < 2 ^ 64

/-- One call on the dictionary. A table that it makes is allocated with its full size. -/
def dictStep (T : DictType K) (d : Dict K V) (c : DictCall K V) :
    Except Fault (Dict K V × DictReply K V) := do
  let (d, r) ← dictCall T d c
  if dictBytesFit d then pure (d, r) else throw .tableBytes

/-- When a call can be made: sizes stay below 2^60, an `int` does not run out of its range, and only a
running iterator is released. -/
def DictAllowed (d : Dict K V) : DictCall K V → Prop
  | .add _ _ => dictSize d ≤ 2 ^ 59
  | .replace _ _ => dictSize d ≤ 2 ^ 59
  | .addOrFind _ _ => dictSize d ≤ 2 ^ 59
  | .expand size => size ≤ 2 ^ 60
  | .rehash n => n * 10 < 2 ^ 31
  | .rehashMilliseconds _ _ => d.ht0.size < 2 ^ 31
  | .iterate => d.iterators + 1 < 2 ^ 64
  | .release => d.iterators ≠ 0
  | _ => True

-- one alternative for each call of `DictAllowed`
instance decidableDictAllowed (d : Dict K V) : ∀ c, Decidable (DictAllowed d c)
  | .add _ _ => inferInstanceAs (Decidable (dictSize d ≤ 2 ^ 59))
  | .replace _ _ => inferInstanceAs (Decidable (dictSize d ≤ 2 ^ 59))
  | .addOrFind _ _ => inferInstanceAs (Decidable (dictSize d ≤ 2 ^ 59))
  | .expand size => inferInstanceAs (Decidable (size ≤ 2 ^ 60))
  | .rehash n => inferInstanceAs (Decidable (n * 10 < 2 ^ 31))
  | .rehashMilliseconds _ _ => inferInstanceAs (Decidable (d.ht0.size < 2 ^ 31))
  | .iterate => inferInstanceAs (Decidable (d.iterators + 1 < 2 ^ 64))
  | .release => inferInstanceAs (Decidable (d.iterators ≠ 0))
  | .overwrite _ _ => .isTrue trivial
  | .fetch _ => .isTrue trivial
  | .delete _ => .isTrue trivial
  | .unlink _ => .isTrue trivial
  | .size => .isTrue trivial
  | .resize => .isTrue trivial
  | .empty => .isTrue trivial

/-- A dictionary that admissible calls have made from an empty one. -/
def Dict.Made (T : DictType K) (d : Dict K V) : Prop :=
  ∃ (calls : List (DictCall K V)) (replies : List (DictReply K V)),
    Along (dictStep T) DictAllowed dictCreate calls ∧
      run (dictStep T) dictCreate calls = .ok (d, replies)

/-- The buckets a call moves while it is not paused. -/
def DictCall.buckets : DictCall K V → ℕ
  | .add _ _ => 1
  | .replace _ _ => 1
  | .addOrFind _ _ => 1
  | .overwrite _ _ => 1
  | .fetch _ => 1
  | .delete _ => 1
  | .unlink _ => 1
  | .size => 0
  | .resize => 0
  | .expand _ => 0
  | .rehash n => n
  | .rehashMilliseconds _ _ => 100
  | .empty => 0
  | .iterate => 0
  | .release => 0

variable {T : DictType K}

namespace Dict

variable {d d1 d2 d' : Dict K V} {n : ℕ}

theorem Fits.dictBytesFit (h : d.Fits) : dictBytesFit d = true := by
  have := h.size0
  have := h.size1
  rw [RedisCounter.dictBytesFit, decide_eq_true_iff]
  omega

theorem Fits.dictStep_eq (h : d'.Fits) {c : DictCall K V} {r : DictReply K V}
    (hcall : dictCall T d c = .ok (d', r)) : dictStep T d c = .ok (d', r) := by
  rw [dictStep, hcall, ok_bind]
  exact if_pos h.dictBytesFit

theorem dictCall_of_dictStep {c : DictCall K V} {r : DictReply K V}
    (hstep : dictStep T d c = .ok (d', r)) : dictCall T d c = .ok (d', r) := by
  obtain ⟨⟨d1, r1⟩, hcall, hfit⟩ := bind_eq_ok hstep
  dsimp only at hfit
  split_ifs at hfit
  cases hfit
  exact hcall

theorem dictIterStart_safe (d : Dict K V) :
    dictIterStart d (dictGetSafeIterator : DictIterator K)
      = { d with iterators := (d.iterators + 1) % 2 ^ 64 } :=
  if_pos ⟨rfl, rfl, rfl⟩

theorem dictReleaseIterator_started (d : Dict K V) :
    dictReleaseIterator d { (dictGetSafeIterator : DictIterator K) with index := 0 }
      = { d with iterators := (d.iterators + (2 ^ 64 - 1)) % 2 ^ 64 } :=
  if_pos ⟨fun h => absurd h.1 (show ¬ (0 : ℤ) = -1 by omega), rfl⟩

/-- What every admissible call keeps. -/
structure Ready (T : DictType K) (d : Dict K V) : Prop where
  sound : d.Sound T
  fits : d.Fits

theorem ready_dictCreate : (dictCreate : Dict K V).Ready T := ⟨sound_dictCreate, fits_dictCreate⟩

/-! ## Edits in place -/

/-- The tables have the sizes that they had, and the rehash is where it was. -/
structure SameShape (d d' : Dict K V) : Prop where
  rehashidx : d'.rehashidx = d.rehashidx
  size0 : d'.ht0.size = d.ht0.size
  size1 : d'.ht1.size = d.ht1.size

theorem SameShape.refl (d : Dict K V) : SameShape d d := ⟨rfl, rfl, rfl⟩

theorem SameShape.trans (h1 : SameShape d d1) (h2 : SameShape d1 d2) : SameShape d d2 :=
  ⟨h2.rehashidx.trans h1.rehashidx, h2.size0.trans h1.size0, h2.size1.trans h1.size1⟩

theorem sameShape_dictSetVal (d : Dict K V) (p : EntryPtr) (val : V) :
    SameShape d (dictSetVal d p val) := by
  unfold dictSetVal
  split_ifs
  · exact ⟨rfl, rfl, rfl⟩
  · exact ⟨rfl, rfl, rfl⟩

theorem Unlinked.sameShape {key : K} (h : d.Unlinked key d') : SameShape d d' := by
  obtain ⟨idx, pos, val, -, rfl⟩ | ⟨idx, pos, val, -, rfl⟩ := h
  · exact ⟨rfl, rfl, rfl⟩
  · exact ⟨rfl, rfl, rfl⟩

theorem size_of_dictInsertAt {ht ht' : Dictht K V} {idx : ℕ} {he : DictEntry K V}
    (h : dictInsertAt ht idx he = .ok ht') : ht'.size = ht.size := by
  unfold dictInsertAt at h
  rcases hget : ht.table[idx]? with _ | chain
  · rw [hget] at h
    cases h
  · rw [hget] at h
    cases h
    rfl

theorem Prepended.sameShape {he : DictEntry K V} (h : d.Prepended he d') : SameShape d d' := by
  obtain ⟨-, idx, ht, ⟨hins, rfl⟩ | ⟨hins, rfl⟩⟩ := h
  · exact ⟨rfl, size_of_dictInsertAt hins, rfl⟩
  · exact ⟨rfl, rfl, size_of_dictInsertAt hins⟩

/-! ## What a call does to the tables -/

/-- The rehash has been moved `n` buckets ahead, then there may be a new table for at most 2^60 entries,
and then entries have been edited in place; or all has been cleared. -/
inductive Shaped (T : DictType K) (n : ℕ) (d d' : Dict K V) : Prop
  | kept {d1 : Dict K V} (sound : d1.Sound T) (ahead : Ahead n d d1) (same : SameShape d1 d')
  | expanded {d1 d2 : Dict K V} {size : ℕ} (sound : d1.Sound T) (ahead : Ahead n d d1)
      (hsize : size ≤ 2 ^ 60) (expand : dictExpand d1 size = some d2) (same : SameShape d2 d')
  | cleared (same : SameShape dictCreate d')

theorem Shaped.edit (h : Shaped T n d d1) (hsame : SameShape d1 d2) : Shaped T n d d2 := by
  cases h with
  | kept sound ahead same => exact .kept sound ahead (same.trans hsame)
  | expanded sound ahead hsize expand same =>
    exact .expanded sound ahead hsize expand (same.trans hsame)
  | cleared same => exact .cleared (same.trans hsame)

theorem Sound.shaped_refl (h : d.Sound T) (hn : n ≤ 0) : Shaped T n d d :=
  .kept h ((Ahead.refl d).mono hn) (.refl d)

/-- A new table is less than twice as large as it has to be. -/
theorem size_of_dictExpand {size : ℕ} (hsize : size ≤ 2 ^ 60) (hexp : dictExpand d size = some d') :
    d'.ht0.size ≤ max d.ht0.size (2 ^ 60) ∧ d'.ht1.size ≤ max d.ht1.size (2 ^ 60) ∧
      d'.iterators = d.iterators := by
  obtain ⟨k, -, hpow, -, hmin⟩ := dictNextPower_spec size
  have hle : dictNextPower size ≤ 2 ^ 60 := by
    by_contra hlt
    rw [hpow, Nat.not_le] at hlt
    have h60 := hmin 60 (by omega) ((Nat.pow_lt_pow_iff_right Nat.one_lt_two).1 hlt)
    omega
  unfold dictExpand at hexp
  dsimp only at hexp
  split_ifs at hexp
  · cases hexp
    exact ⟨hle.trans (le_max_right _ _), le_max_left _ _, rfl⟩
  · cases hexp
    exact ⟨le_max_left _ _, hle.trans (le_max_right _ _), rfl⟩

/-- A call leaves tables that fit. -/
theorem Fits.shaped (h : d.Fits) (hs : Shaped T n d d') (hit : d'.iterators < 2 ^ 64) : d'.Fits := by
  cases hs with
  | kept sound ahead same =>
    obtain ⟨h0, h1⟩ := ahead.size_le sound h.size0 h.size1
    exact ⟨same.size0.trans_le h0, same.size1.trans_le h1, hit⟩
  | expanded sound ahead hsize expand same =>
    obtain ⟨h0, h1⟩ := ahead.size_le sound h.size0 h.size1
    obtain ⟨h0', h1', -⟩ := size_of_dictExpand hsize expand
    exact ⟨same.size0.trans_le (h0'.trans (max_le h0 le_rfl)),
      same.size1.trans_le (h1'.trans (max_le h1 le_rfl)), hit⟩
  | cleared same => exact ⟨same.size0.trans_le (Nat.zero_le _), same.size1.trans_le (Nat.zero_le _), hit⟩

/-! ## One call -/

/-- Nothing keeps a call from moving the rehash ahead; the reading calls leave an empty dictionary
alone. -/
def Unpaused (d : Dict K V) : Prop := d.iterators = 0 ∧ dictSize d ≠ 0

variable {key : K} {val : V}

theorem Sound.dictMigrate_ahead (h : d.Sound T) (hn : n ≤ 1) (hgo : n = 0 ∨ d.Unpaused)
    (hmig : dictMigrate T d = .ok d') : Ahead n d d' := by
  obtain ⟨d1, hmig1, -, hahead⟩ := h.dictMigrate_spec
  rw [hmig] at hmig1
  cases hmig1
  rcases hgo with rfl | hgo
  · exact hahead.mono (Nat.zero_le _)
  · rw [if_pos hgo.1] at hahead
    exact hahead.mono hn

theorem Sound.dictFind_shaped (h : d.Sound T) (hn : n ≤ 1) (hgo : n = 0 ∨ d.Unpaused)
    {r : Option (EntryPtr × DictEntry K V)} (hfind : dictFind T d key = .ok (d', r)) :
    Shaped T n d d' := by
  rcases h.dictFind_cases hfind with ⟨rfl, hzero⟩ | hmig
  · have hn0 : n = 0 := hgo.resolve_right fun hgo => hgo.2 hzero
    exact h.shaped_refl hn0.le
  · obtain ⟨d1, hmig1, hd1, -⟩ := h.dictMigrate_spec
    rw [hmig] at hmig1
    cases hmig1
    exact .kept hd1.sound (h.dictMigrate_ahead hn hgo hmig) (.refl _)

theorem Sound.dictGenericDelete_shaped (h : d.Sound T) (hn : n ≤ 1) (hgo : n = 0 ∨ d.Unpaused)
    {he : Option (DictEntry K V)} (hdel : dictGenericDelete T d key = .ok (d', he)) :
    Shaped T n d d' := by
  rcases h.dictGenericDelete_cases hdel with ⟨rfl, hzero⟩ | ⟨d1, hmig, hcases⟩
  · have hn0 : n = 0 := hgo.resolve_right fun hgo => hgo.2 hzero
    exact h.shaped_refl hn0.le
  · obtain ⟨d2, hmig2, hd2, -⟩ := h.dictMigrate_spec
    rw [hmig] at hmig2
    cases hmig2
    have hshaped : Shaped T n d d1 := .kept hd2.sound (h.dictMigrate_ahead hn hgo hmig) (.refl _)
    rcases hcases with rfl | hunlinked
    · exact hshaped
    · exact hshaped.edit hunlinked.sameShape

/-- Growing before an insertion at most doubles the number of entries. -/
theorem Sound.dictAddRawExisting_shaped (h : d.Sound T) (hn : n ≤ 1) (hgo : n = 0 ∨ d.Unpaused)
    (hsize : dictSize d ≤ 2 ^ 59) {existing entry : Option EntryPtr}
    (hadd : dictAddRawExisting T d key val = .ok (d', existing, entry)) : Shaped T n d d' := by
  obtain ⟨d1, hmig, hd1, d2, hexp, -, hcases⟩ := h.dictAddRawExisting_cases hadd
  have hahead := h.dictMigrate_ahead hn hgo hmig
  have hused : d1.ht0.used * 2 ≤ 2 ^ 60 := by
    obtain ⟨d3, hmig3, hd3, -⟩ := h.dictMigrate_spec
    rw [hmig] at hmig3
    cases hmig3
    have hsize1 : dictSize d1 = dictSize d := by
      rw [hd1.dictSize_eq, h.dictSize_eq, hd3.perm.length_eq]
    rw [dictSize] at hsize1
    omega
  have hshaped : Shaped T n d d2 := by
    unfold dictExpandIfNeeded at hexp
    split_ifs at hexp
    · cases hexp
      exact .kept hd1 hahead (.refl _)
    · exact .expanded hd1 hahead (by decide) hexp (.refl _)
    · exact .expanded hd1 hahead hused hexp (.refl _)
    · cases hexp
      exact .kept hd1 hahead (.refl _)
  rcases hcases with rfl | hprepended
  · exact hshaped
  · exact hshaped.edit hprepended.sameShape

/-- A second table, or the error that leaves the dictionary as it is. -/
theorem Sound.shaped_getD (h : d.Sound T) {size : ℕ} (hsize : size ≤ 2 ^ 60) :
    Shaped T 0 d ((dictExpand d size).getD d) := by
  rcases hexp : dictExpand d size with _ | d1
  · exact h.shaped_refl le_rfl
  · exact .expanded h (.refl d) hsize hexp (.refl _)

theorem Sound.shaped_dictResize (h : d.Sound T) : Shaped T 0 d ((dictResize d).getD d) := by
  unfold dictResize
  dsimp only
  split_ifs with hidle hsmall
  · exact h.shaped_refl le_rfl
  · exact h.shaped_getD (by decide)
  · -- an `int`
    apply h.shaped_getD
    have := Int.bmod_lt (x := d.ht0.used) (m := 2 ^ 32) (by decide)
    omega

end Dict

open Dict in
/-- Every call does to the tables what `Shaped` says. -/
theorem Dict.Sound.dictCall_shaped {d d' : Dict K V} (h : d.Sound T) {c : DictCall K V}
    (hallow : DictAllowed d c) {n : ℕ} (hn : n ≤ c.buckets) (hgo : n = 0 ∨ d.Unpaused)
    {r : DictReply K V} (hcall : dictCall T d c = .ok (d', r)) : Shaped T n d d' := by
  cases c with
  | add key val =>
    obtain ⟨d1, existing, entry, hadd, -⟩ := h.dictAddRawExisting_spec key val
    simp only [dictCall, dictAdd, dictAddRaw_eq, hadd, bind, Except.bind, Except.map] at hcall
    cases hcall
    exact h.dictAddRawExisting_shaped hn hgo hallow hadd
  | replace key val =>
    obtain ⟨d1, existing, entry, hadd, hadded⟩ := h.dictAddRawExisting_spec key val
    have hshaped := h.dictAddRawExisting_shaped hn hgo hallow hadd
    simp only [dictCall, dictReplace, hadd, bind, Except.bind] at hcall
    cases hadded with
    | new p hkey sound perm iterators hat =>
      cases hcall
      exact hshaped
    | old p val' rehashed hat =>
      cases hcall
      exact hshaped.edit (sameShape_dictSetVal _ p val)
  | addOrFind key val =>
    obtain ⟨d1, existing, entry, hadd, -⟩ := h.dictAddRawExisting_spec key val
    simp only [dictCall, dictAddOrFind, hadd, bind, Except.bind, pure, Except.pure] at hcall
    cases hcall
    exact h.dictAddRawExisting_shaped hn hgo hallow hadd
  | overwrite key val =>
    obtain ⟨d1, r1, hfind, -, hr⟩ := h.dictFind_spec key
    have hshaped := h.dictFind_shaped hn hgo hfind
    simp only [dictCall, hfind, bind, Except.bind] at hcall
    cases hr with
    | absent habs =>
      cases hcall
      exact hshaped
    | present p val' hat =>
      cases hcall
      exact hshaped.edit (sameShape_dictSetVal _ p val)
  | fetch key =>
    obtain ⟨d1, r1, hfind, -⟩ := h.dictFind_spec key
    simp only [dictCall, dictFetchValue, hfind, bind, Except.bind, pure, Except.pure] at hcall
    cases hcall
    exact h.dictFind_shaped hn hgo hfind
  | delete key =>
    obtain ⟨d1, he, hdel, -⟩ := h.dictGenericDelete_spec key
    simp only [dictCall, dictDelete, hdel, bind, Except.bind, pure, Except.pure] at hcall
    cases hcall
    exact h.dictGenericDelete_shaped hn hgo hdel
  | unlink key =>
    obtain ⟨d1, he, hdel, -⟩ := h.dictGenericDelete_spec key
    simp only [dictCall, dictUnlink, hdel, bind, Except.bind, pure, Except.pure] at hcall
    cases hcall
    exact h.dictGenericDelete_shaped hn hgo hdel
  | size =>
    cases hcall
    exact h.shaped_refl hn
  | resize =>
    cases hcall
    obtain rfl : n = 0 := Nat.le_zero.1 hn
    exact h.shaped_dictResize
  | expand size =>
    cases hcall
    obtain rfl : n = 0 := Nat.le_zero.1 hn
    exact h.shaped_getD hallow
  | rehash m =>
    obtain ⟨d1, more, hrehash, hp⟩ := h.dictRehashMore_spec m
    have hint : m * 10 < 2 ^ 31 := hallow
    simp only [dictCall, if_pos hint, hrehash, bind, Except.bind] at hcall
    cases hcall
    exact .kept hp.rehashed.sound (hp.ahead.mono hn) (.refl _)
  | rehashMilliseconds ms clock =>
    obtain ⟨d1, m, hrun, hr, -, hahead, hend, -⟩ := h.dictRehashFor_spec ms clock (d.ht0.size + 1) 0
      (fun i _ => by omega)
    simp only [dictCall, dictRehashMilliseconds, hrun, bind, Except.bind] at hcall
    split_ifs at hcall
    cases hcall
    rcases hi : d'.rehashidx with _ | i
    · exact .kept hr.sound ((hahead.mono (Nat.zero_le _)).of_ended hi n) (.refl _)
    · -- it goes on, so there has been a portion
      have hm := (hend (by simp [hi])).1
      refine .kept hr.sound (hahead.mono ?_) (.refl _)
      have hn' : n ≤ 100 := hn
      omega
  | empty =>
    cases hcall
    rw [h.dictEmpty_eq]
    exact .cleared (.refl _)
  | iterate =>
    rw [dictCall, dictIterStart_safe] at hcall
    cases hcall
    exact (h.shaped_refl hn).edit ⟨rfl, rfl, rfl⟩
  | release =>
    rw [dictCall, dictReleaseIterator_started] at hcall
    cases hcall
    exact (h.shaped_refl hn).edit ⟨rfl, rfl, rfl⟩

end RedisCounter
