import Mathlib.Data.List.Sigma
import RedisCounter.Memory

/-!
# The hash table with incremental rehash

`dict.c`, generic in the key and value types and in the callbacks of `dictType`. A dictionary owns
two bucket arrays; while `rehashidx` is set the buckets of `ht[0]` move one by one to `ht[1]`, and
every lookup and every insertion moves one first.

A bucket array is the list of its chains, `NULL` being the empty list, and each chain is the list of
its entries, head first; `rehashidx` is an option, with `none` for -1. `unsigned long` is ℕ: while no
table has more than 2^60 buckets no sum or product here wraps and `_dictNextPower` does not reach its
`LONG_MAX` clamp, and more keys than that do not fit a 64-bit address space. Where a caller may ask for
any size, a larger table is a fault of the call (`dictStep`). Nothing here fails to allocate.
-/

namespace RedisCounter

/-- The callbacks of `dictType` that are not `NULL` here. Comparing keys decides their equality, so
the pointer comparison the code tries first never changes the outcome. -/
structure DictType (K : Type) where
  hashFunction : K → UInt64
  keyCompare : K → K → Bool
  keyCompare_iff : ∀ key1 key2, keyCompare key1 key2 = true ↔ key1 = key2

/-- `dictEntry`: its key and its `v.val`. -/
abbrev DictEntry (K V : Type) := Sigma fun _ : K => V

/-- `dictht`. -/
structure Dictht (K V : Type) where
  table : List (List (DictEntry K V))
  size : ℕ
  sizemask : ℕ
  used : ℕ
deriving DecidableEq

/-- `dict`: `ht[0]`, `ht[1]`, the next bucket to move, and the number of running iterators. -/
structure Dict (K V : Type) where
  ht0 : Dictht K V
  ht1 : Dictht K V
  rehashidx : Option ℕ
  iterators : ℕ
deriving DecidableEq

/-- A `dictEntry *`: the table, the bucket and the position in its chain. -/
structure EntryPtr where
  table : ℕ
  idx : ℕ
  pos : ℕ
deriving DecidableEq, Repr

def DICT_HT_INITIAL_SIZE : ℕ := 4

/-- `dict_can_resize`, which nothing clears. -/
def dictCanResize : Bool := true

def dictForceResizeRatio : ℕ := 5

variable {K V : Type}

/-- `_dictReset`. -/
def dictReset : Dictht K V := ⟨[], 0, 0, 0⟩

/-- `dictCreate`. -/
def dictCreate : Dict K V := ⟨dictReset, dictReset, none, 0⟩

def dictIsRehashing (d : Dict K V) : Bool := d.rehashidx.isSome

/-- The loop of `_dictNextPower`, from `i`. -/
def dictNextPowerLoop : ℕ → ℕ → ℕ → ℕ
  | 0, i, _ => i
  | fuel + 1, i, size => if i ≥ size then i else dictNextPowerLoop fuel (i * 2) size

/-- `_dictNextPower`. -/
def dictNextPower (size : ℕ) : ℕ := dictNextPowerLoop size DICT_HT_INITIAL_SIZE size

/-- `dictExpand`; `none` is `DICT_ERR`, which leaves `d` as it is. -/
def dictExpand (d : Dict K V) (size : ℕ) : Option (Dict K V) :=
  if dictIsRehashing d ∨ d.ht0.used > size then none
  else
    let realsize := dictNextPower size
    -- rehashing to the same table size is not useful
    if realsize = d.ht0.size then none
    else
      let n : Dictht K V := ⟨List.replicate realsize [], realsize, realsize - 1, 0⟩
      if d.ht0.table = [] then some { d with ht0 := n }
      else some { d with ht1 := n, rehashidx := some 0 }

/-- `_dictExpandIfNeeded`; `none` is `DICT_ERR`. -/
def dictExpandIfNeeded (d : Dict K V) : Option (Dict K V) :=
  if dictIsRehashing d then some d
  else if d.ht0.size = 0 then dictExpand d DICT_HT_INITIAL_SIZE
  else if d.ht0.used ≥ d.ht0.size ∧
      (dictCanResize ∨ d.ht0.used / d.ht0.size > dictForceResizeRatio) then
    dictExpand d (d.ht0.used * 2)
  else some d

/-! ## Rehashing -/

/-- Where the scan over empty buckets ends. -/
inductive Scan (K V : Type)
  /-- A non-empty bucket, with the empty visits still allowed after it, less one. -/
  | bucket (idx visits : ℕ) (chain : List (DictEntry K V))
  /-- `--empty_visits == 0`: the step ends here. -/
  | stop (idx : ℕ)

/-- The inner loop of `dictRehash`: skip empty buckets from `idx`, with `empty_visits` being
`visits + 1`. -/
def dictSkipEmpty (table : List (List (DictEntry K V))) : ℕ → ℕ → Except Fault (Scan K V)
  | visits, idx =>
    match table[idx]?, visits with
    | none, _ => throw .tableBounds
    | some [], 0 => pure (.stop (idx + 1))
    | some [], visits + 1 => dictSkipEmpty table visits (idx + 1)
    | some (de :: chain), visits => pure (.bucket idx visits (de :: chain))

/-- Move one entry to the head of its chain in `ht[1]`. -/
def dictMoveEntry (T : DictType K) (d : Dict K V) (de : DictEntry K V) : Except Fault (Dict K V) :=
  let h := (T.hashFunction de.1).toNat &&& d.ht1.sizemask
  match d.ht1.table[h]? with
  | none => throw .tableBounds
  | some chain =>
    pure { d with
      ht0 := { d.ht0 with used := d.ht0.used - 1 }
      ht1 := { d.ht1 with table := d.ht1.table.set h (de :: chain), used := d.ht1.used + 1 } }

/-- The outer loop of `dictRehash`; the flag is set when it returns 1 from inside. -/
def dictRehashLoop (T : DictType K) : ℕ → ℕ → ℕ → Dict K V → Except Fault (Dict K V × Bool)
  | 0, _, _, d => pure (d, false)
  | n + 1, visits, rehashidx, d =>
    if d.ht0.used = 0 then pure (d, false)
    else if d.ht0.size ≤ rehashidx then throw .assertRehash
    else do
      match ← dictSkipEmpty d.ht0.table visits rehashidx with
      | .stop idx => pure ({ d with rehashidx := some idx }, true)
      | .bucket idx visits chain =>
        let d ← chain.foldlM (dictMoveEntry T) d
        dictRehashLoop T n visits (idx + 1)
          { d with
            ht0 := { d.ht0 with table := d.ht0.table.set idx [] }
            rehashidx := some (idx + 1) }

/-- `dictRehash(d, n)`, without its return value. -/
def dictRehash (T : DictType K) (d : Dict K V) (n : ℕ) : Except Fault (Dict K V) :=
  match d.rehashidx with
  | none => pure d
  | some rehashidx => do
    let (d, early) ← dictRehashLoop T n (n * 10 - 1) rehashidx d
    if early then pure d
    -- the whole table has moved: the new one takes its place
    else if d.ht0.used = 0 then pure { d with ht0 := d.ht1, ht1 := dictReset, rehashidx := none }
    else pure d

/-- `_dictRehashStep`. -/
def dictRehashStep (T : DictType K) (d : Dict K V) : Except Fault (Dict K V) :=
  if d.iterators = 0 then dictRehash T d 1 else pure d

/-- `if (dictIsRehashing(d)) _dictRehashStep(d);`, with which lookups and insertions begin. -/
def dictMigrate (T : DictType K) (d : Dict K V) : Except Fault (Dict K V) :=
  if dictIsRehashing d then dictRehashStep T d else pure d

/-! ## Searching, adding, overwriting -/

/-- The search of one table for `key`: the bucket, and the entry with its position if it is there. -/
def dictSearch (T : DictType K) (ht : Dictht K V) (key : K) :
    Except Fault (ℕ × Option (ℕ × DictEntry K V)) :=
  let idx := (T.hashFunction key).toNat &&& ht.sizemask
  match ht.table[idx]? with
  | none => throw .tableBounds
  | some chain =>
    pure (idx, (chain.findIdx? fun he => T.keyCompare key he.1).bind fun pos =>
      chain[pos]?.map (pos, ·))

/-- `dictFind`: the entry with a pointer to it, or `none` for `NULL`. -/
def dictFind (T : DictType K) (d : Dict K V) (key : K) :
    Except Fault (Dict K V × Option (EntryPtr × DictEntry K V)) :=
  if d.ht0.used + d.ht1.used = 0 then pure (d, none)
  else do
    let d ← dictMigrate T d
    match ← dictSearch T d.ht0 key with
    | (idx, some (pos, he)) => pure (d, some (⟨0, idx, pos⟩, he))
    | (_, none) =>
      if !dictIsRehashing d then pure (d, none)
      else
        match ← dictSearch T d.ht1 key with
        | (idx, some (pos, he)) => pure (d, some (⟨1, idx, pos⟩, he))
        | (_, none) => pure (d, none)

/-- `dictFetchValue`. -/
def dictFetchValue (T : DictType K) (d : Dict K V) (key : K) :
    Except Fault (Dict K V × Option V) := do
  let (d, he) ← dictFind T d key
  pure (d, he.map fun x => x.2.2)

/-- `_dictKeyIndex`: the bucket of the newest table `key` belongs to, or `none` for -1. -/
def dictKeyIndex (T : DictType K) (d : Dict K V) (key : K) :
    Except Fault (Dict K V × Option ℕ) :=
  match dictExpandIfNeeded d with
  | none => pure (d, none)
  | some d => do
    match ← dictSearch T d.ht0 key with
    | (_, some _) => pure (d, none)
    | (idx, none) =>
      if !dictIsRehashing d then pure (d, some idx)
      else
        match ← dictSearch T d.ht1 key with
        | (_, some _) => pure (d, none)
        | (idx, none) => pure (d, some idx)

/-- Put a new entry at the head of a chain. -/
def dictInsertAt (ht : Dictht K V) (index : ℕ) (entry : DictEntry K V) :
    Except Fault (Dictht K V) :=
  match ht.table[index]? with
  | none => throw .tableBounds
  | some chain =>
    pure { ht with table := ht.table.set index (entry :: chain), used := ht.used + 1 }

/-- `dictAddRaw`, with the value its caller `dictAdd` stores into the entry it returns; the flag
tells an entry from `NULL`. -/
def dictAddRaw (T : DictType K) (d : Dict K V) (key : K) (val : V) :
    Except Fault (Dict K V × Bool) := do
  let d ← dictMigrate T d
  let (d, index) ← dictKeyIndex T d key
  match index with
  | none => pure (d, false)
  | some index =>
    if dictIsRehashing d then
      let ht ← dictInsertAt d.ht1 index ⟨key, val⟩
      pure ({ d with ht1 := ht }, true)
    else
      let ht ← dictInsertAt d.ht0 index ⟨key, val⟩
      pure ({ d with ht0 := ht }, true)

/-- `dictAdd`; the flag is `DICT_OK`. -/
def dictAdd (T : DictType K) (d : Dict K V) (key : K) (val : V) : Except Fault (Dict K V × Bool) :=
  dictAddRaw T d key val

/-- `dictSetVal` on a table. -/
def dicthtSetVal (ht : Dictht K V) (idx pos : ℕ) (val : V) : Dictht K V :=
  { ht with table := ht.table.modify idx fun chain => chain.modify pos fun he => ⟨he.1, val⟩ }

/-- `dictSetVal(d, entry, val)`. -/
def dictSetVal (d : Dict K V) (entry : EntryPtr) (val : V) : Dict K V :=
  if entry.table = 0 then { d with ht0 := dicthtSetVal d.ht0 entry.idx entry.pos val }
  else { d with ht1 := dicthtSetVal d.ht1 entry.idx entry.pos val }

end RedisCounter
