import Mathlib.Algebra.Order.Group.Nat
import RedisCounter.Dict.Basic

/-!
# The rest of the dictionary's interface

What `dict.c` offers beyond the calls the keyspace makes: replacing, add-or-find, deletion, explicit
resizing, rehashing in larger portions or for a time, and clearing. A key or a value that is freed
just leaves the model; what `dictGenericDelete` and `_dictClear` free is what they return.
-/

namespace RedisCounter

variable {K V : Type}

/-- `dictSize`. -/
def dictSize (d : Dict K V) : ℕ := d.ht0.used + d.ht1.used

/-! ## Adding with `existing` -/

/-- `_dictKeyIndex` with a non-`NULL` `existing`: what `*existing` becomes, and the bucket, with
`none` for -1. -/
def dictKeyIndexExisting (T : DictType K) (d : Dict K V) (key : K) :
    Except Fault (Dict K V × Option EntryPtr × Option ℕ) :=
  match dictExpandIfNeeded d with
  | none => pure (d, none, none)
  | some d => do
    match ← dictSearch T d.ht0 key with
    | (idx, some (pos, _)) => pure (d, some ⟨0, idx, pos⟩, none)
    | (idx, none) =>
      if !dictIsRehashing d then pure (d, none, some idx)
      else
        match ← dictSearch T d.ht1 key with
        | (idx, some (pos, _)) => pure (d, some ⟨1, idx, pos⟩, none)
        | (idx, none) => pure (d, none, some idx)

/-- `dictAddRaw` with `existing`, and with the value its caller stores into a new entry: what
`*existing` becomes, and the new entry. -/
def dictAddRawExisting (T : DictType K) (d : Dict K V) (key : K) (val : V) :
    Except Fault (Dict K V × Option EntryPtr × Option EntryPtr) := do
  let d ← dictMigrate T d
  let (d, existing, index) ← dictKeyIndexExisting T d key
  match index with
  | none => pure (d, existing, none)
  | some index =>
    if dictIsRehashing d then
      let ht ← dictInsertAt d.ht1 index ⟨key, val⟩
      pure ({ d with ht1 := ht }, existing, some ⟨1, index, 0⟩)
    else
      let ht ← dictInsertAt d.ht0 index ⟨key, val⟩
      pure ({ d with ht0 := ht }, existing, some ⟨0, index, 0⟩)

/-- `dictReplace`; the flag is its return value. -/
def dictReplace (T : DictType K) (d : Dict K V) (key : K) (val : V) :
    Except Fault (Dict K V × Bool) := do
  match ← dictAddRawExisting T d key val with
  | (d, _, some _) => pure (d, true)
  | (d, some existing, none) => pure (dictSetVal d existing val, false)
  -- `auxentry = *existing` reads through `NULL`
  | (_, none, none) => throw .badPointer

/-- `dictAddOrFind`, with the value its caller stores into a new entry. -/
def dictAddOrFind (T : DictType K) (d : Dict K V) (key : K) (val : V) :
    Except Fault (Dict K V × Option EntryPtr) := do
  let (d, existing, entry) ← dictAddRawExisting T d key val
  pure (d, entry <|> existing)

/-! ## Deleting -/

/-- Unlink the entry at position `pos` of bucket `idx`. -/
def dictUnlinkAt (ht : Dictht K V) (idx pos : ℕ) : Dictht K V :=
  { ht with table := ht.table.modify idx fun chain => chain.eraseIdx pos, used := ht.used - 1 }

/-- `dictGenericDelete`: the entry that was unlinked, if any. -/
def dictGenericDelete (T : DictType K) (d : Dict K V) (key : K) :
    Except Fault (Dict K V × Option (DictEntry K V)) :=
  if d.ht0.used = 0 ∧ d.ht1.used = 0 then pure (d, none)
  else do
    let d ← dictMigrate T d
    match ← dictSearch T d.ht0 key with
    | (idx, some (pos, he)) => pure ({ d with ht0 := dictUnlinkAt d.ht0 idx pos }, some he)
    | (_, none) =>
      if !dictIsRehashing d then pure (d, none)
      else
        match ← dictSearch T d.ht1 key with
        | (idx, some (pos, he)) => pure ({ d with ht1 := dictUnlinkAt d.ht1 idx pos }, some he)
        | (_, none) => pure (d, none)

/-- `dictDelete`; the flag is `DICT_OK`. -/
def dictDelete (T : DictType K) (d : Dict K V) (key : K) : Except Fault (Dict K V × Bool) := do
  let (d, he) ← dictGenericDelete T d key
  pure (d, he.isSome)

/-- `dictUnlink`: as `dictDelete`, but the entry is left to the caller. -/
def dictUnlink (T : DictType K) (d : Dict K V) (key : K) :
    Except Fault (Dict K V × Option (DictEntry K V)) :=
  dictGenericDelete T d key

/-- The loop of `_dictClear`, with the buckets from `i` on: the entries it frees. -/
def dictClearLoop : List (List (DictEntry K V)) → ℕ → List (DictEntry K V)
  | [], _ => []
  | chain :: table, used =>
    if used > 0 then chain ++ dictClearLoop table (used - chain.length) else []

/-- `_dictClear`: the table it leaves and the entries it frees. -/
def dictClear (ht : Dictht K V) : Dictht K V × List (DictEntry K V) :=
  (dictReset, dictClearLoop ht.table ht.used)

/-- `dictEmpty`, with the entries it frees. -/
def dictEmpty (d : Dict K V) : Dict K V × List (DictEntry K V) :=
  let (ht0, freed0) := dictClear d.ht0
  let (ht1, freed1) := dictClear d.ht1
  (⟨ht0, ht1, none, 0⟩, freed0 ++ freed1)

/-! ## Resizing and rehashing on request -/

/-- `dictResize`; `none` is `DICT_ERR`. -/
def dictResize (d : Dict K V) : Option (Dict K V) :=
  if !dictCanResize ∨ dictIsRehashing d then none
  else
    -- `minimal` is an `int`
    let minimal : ℤ := Int.bmod d.ht0.used (2 ^ 32)
    let minimal : ℤ := if minimal < DICT_HT_INITIAL_SIZE then DICT_HT_INITIAL_SIZE else minimal
    dictExpand d minimal.toNat

/-- `dictRehash(d, n)` with its return value, for `n` from 0 on and with `n * 10` an `int`. -/
def dictRehashMore (T : DictType K) (d : Dict K V) (n : ℕ) : Except Fault (Dict K V × Bool) :=
  match d.rehashidx with
  | none => pure (d, false)
  | some rehashidx => do
    let (d, early) ← dictRehashLoop T n (n * 10 - 1) rehashidx d
    if early then pure (d, true)
    else if d.ht0.used = 0 then
      pure ({ d with ht0 := d.ht1, ht1 := dictReset, rehashidx := none }, false)
    else pure (d, true)

theorem dictRehash_eq (T : DictType K) (d : Dict K V) (n : ℕ) :
    dictRehash T d n = (dictRehashMore T d n).map Prod.fst := by
  rw [dictRehash, dictRehashMore]
  rcases d.rehashidx with _ | i
  · rfl
  · rcases hloop : dictRehashLoop T n (n * 10 - 1) i d with e | ⟨d', early⟩
    · simp only [hloop, bind, Except.bind]
      rfl
    · simp only [hloop, bind, Except.bind]
      split_ifs <;> rfl

/-- The loop of `dictRehashMilliseconds` after `i` portions; `clock` are the readings of
`timeInMilliseconds`, the first of them `start`. -/
def dictRehashFor (T : DictType K) (ms : ℤ) (clock : ℕ → ℤ) :
    ℕ → ℕ → Dict K V → Except Fault (Dict K V × ℕ)
  | 0, i, d => pure (d, i * 100)
  | fuel + 1, i, d => do
    let (d, more) ← dictRehashMore T d 100
    if !more then pure (d, i * 100)
    else if clock (i + 1) - clock 0 > ms then pure (d, (i + 1) * 100)
    else dictRehashFor T ms clock fuel (i + 1) d

/-- `dictRehashMilliseconds`; each portion but the last moves the index, so no more are needed than
there are buckets. -/
def dictRehashMilliseconds (T : DictType K) (d : Dict K V) (ms : ℤ) (clock : ℕ → ℤ) :
    Except Fault (Dict K V × ℕ) :=
  dictRehashFor T ms clock (d.ht0.size + 1) 0 d

end RedisCounter
