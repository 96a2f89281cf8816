import RedisCounter.Db.Keyspace

/-!
# Sequences of keyspace operations

Any sequence of `setKey`, `incrKey`, `decrKey` and `dictFetchValue` on the keyspace `main` creates.
One step either updates one key, or fetches, or fails because the value it finds cannot be read
(`keyspaceStep_spec`); the invariants of runs follow.
-/

namespace RedisCounter

open List Run

variable {hash : Bytes → UInt64}

/-- An operation on one key. -/
inductive KeyspaceOp
  /-- `setKey` with an object that holds this pointer. -/
  | set (key : Key) (ptr : VoidPtr)
  | incr (key : Key)
  | decr (key : Key)
  /-- `dictFetchValue`. -/
  | fetch (key : Key)

namespace KeyspaceOp

def key : KeyspaceOp → Key
  | .set key _ => key
  | .incr key => key
  | .decr key => key
  | .fetch key => key

def writes : KeyspaceOp → Bool
  | .fetch _ => false
  | _ => true

/-- The pointer an operation that writes stores, from the object it finds, or the fault of reading
that object. -/
def stores (op : KeyspaceOp) (found : Option Robj) : Except Fault VoidPtr :=
  match op with
  | .set _ ptr => pure ptr
  | .incr _ => RedisDb.incrPtr found
  | .decr _ => RedisDb.decrPtrOf found
  | .fetch _ => pure .null

end KeyspaceOp

/-- An object with the sds of a key. -/
def keyObject (id : ℕ) (key : Key) : Robj := ⟨id, .sds (sdsnewlen key.1 key.1.length) 0⟩

/-- One operation, on objects of its own. -/
def keyspaceStep (hash : Bytes → UInt64) (db : RedisDb) (op : KeyspaceOp) :
    Except Fault (RedisDb × Option Robj) := do
  let (db, id) := newObject db
  match op with
  | .set key ptr =>
    let (db, val) := newObject db
    pure (← setKey hash db (keyObject id key) ⟨val, ptr⟩, none)
  | .incr key => pure (← incrKey hash db (keyObject id key), none)
  | .decr key => pure (← decrKey hash db (keyObject id key), none)
  | .fetch key =>
    let (dict, o) ← dictFetchValue (dbDictType hash) db.dict key
    pure ({ db with dict }, o)

theorem holdsKey_keyObject (id : ℕ) (key : Key) : HoldsKey (keyObject id key) key := by
  refine ⟨_, rfl, wf_sdsnewlen le_rfl, ?_⟩
  rw [content_sdsnewlen le_rfl, take_length]

/-! ## One step -/

/-- What a step does: an operation that writes binds its key to a new object with the pointer it
stores, or fails to read the object it finds; a lookup returns the object and binds nothing. -/
inductive KeyspaceStep (hash : Bytes → UInt64) (db : RedisDb) (op : KeyspaceOp) :
    Except Fault (RedisDb × Option Robj) → Prop
  | wrote (hw : op.writes = true) {ptr : VoidPtr} (hs : op.stores (db.get op.key) = .ok ptr)
      {o : Robj} (ho : o.ptr = ptr) {db' : RedisDb} (hb : RedisDb.Bound hash db op.key o db') :
      KeyspaceStep hash db op (.ok (db', none))
  | fetched (hw : op.writes = false) {db' : RedisDb} (hb : RedisDb.Same hash db db') :
      KeyspaceStep hash db op (.ok (db', db.get op.key))
  | failed (hw : op.writes = true) {e : Fault} (hs : op.stores (db.get op.key) = .error e) :
      KeyspaceStep hash db op (.error e)

/-- A write, after some allocations: what it stores is what the keyspace makes of the key. -/
theorem KeyspaceStep.of_write {db db1 : RedisDb} {op : KeyspaceOp} (hw : op.writes = true)
    (hsame : RedisDb.Same hash db db1) {res : Except Fault RedisDb}
    (h : match op.stores (db1.get op.key) with
      | .error e => res = .error e
      | .ok ptr => ∃ db', res = .ok db' ∧ RedisDb.Bound hash db1 op.key ⟨db1.objs, ptr⟩ db') :
    KeyspaceStep hash db op (res >>= fun db' => pure (db', none)) := by
  rw [hsame.get] at h
  rcases hs : op.stores (db.get op.key) with e | ptr
  · simp only [hs] at h
    rw [h]
    exact .failed hw hs
  · simp only [hs] at h
    obtain ⟨db', rfl, hb⟩ := h
    exact .wrote hw hs rfl (hsame.bound hb)

theorem keyspaceStep_spec {db : RedisDb} (h : db.Inv hash) (op : KeyspaceOp) :
    KeyspaceStep hash db op (keyspaceStep hash db op) := by
  have hself : RedisDb.Same hash db db := ⟨h, rfl⟩
  -- the object that holds the key comes first
  have hnew := hself.alloc
  cases op with
  | set key ptr =>
    -- the value is allocated before the lookup, so its number is not the next one
    have hlt : (⟨db.objs + 1, ptr⟩ : Robj).id < (newObject (newObject db).1).1.objs :=
      Nat.lt_succ_self _
    obtain ⟨db', hset, hb⟩ := hnew.alloc.inv.setKey_spec (holdsKey_keyObject db.objs key) hlt
    simp only [keyspaceStep, newObject, bind, Except.bind, pure, Except.pure] at hset ⊢
    rw [hset]
    exact .wrote rfl rfl rfl (hnew.alloc.bound hb)
  | incr key => exact .of_write rfl hnew (hnew.inv.incrKey_spec (holdsKey_keyObject db.objs key))
  | decr key => exact .of_write rfl hnew (hnew.inv.decrKey_spec (holdsKey_keyObject db.objs key))
  | fetch key =>
    obtain ⟨d', hfetch, hsame⟩ := hnew.inv.dictFetchValue_spec key
    rw [hnew.get] at hfetch
    simp only [keyspaceStep, newObject, bind, Except.bind, pure, Except.pure] at hfetch ⊢
    rw [hfetch]
    exact .fetched rfl ⟨hsame.inv, hsame.get.trans hnew.get⟩

/-! ## Runs -/

/-- The keys a sequence of operations writes. -/
def writtenKeys (ops : List KeyspaceOp) : List Key := (ops.filter KeyspaceOp.writes).map KeyspaceOp.key

theorem mem_keys_iff {db : RedisDb} {k : Key} : k ∈ db.dict.entries.keys ↔ db.get k ≠ none := by
  rw [RedisDb.get, ne_eq, Dict.get_eq_none_iff, not_not]

theorem cstrAt_eq_error {ptr : VoidPtr} {e : Fault} (h : cstrAt ptr = .error e) :
    e = .unassigned ∨ e = .badPointer := by
  cases ptr with
  | unassigned =>
    cases h
    exact .inl rfl
  | null =>
    cases h
    exact .inr rfl
  | sds s back =>
    unfold cstrAt at h
    dsimp only at h
    split_ifs at h
    · cases h
    · exact .inr (Except.error.inj h).symm

/-- Only the pointer of a value makes an operation fail, and then it is unassigned or bad. -/
theorem stores_eq_error {op : KeyspaceOp} {found : Option Robj} {e : Fault}
    (h : op.stores found = .error e) : e = .unassigned ∨ e = .badPointer := by
  cases op with
  | set key ptr => cases h
  | fetch key => cases h
  | incr key =>
    rcases found with _ | o
    · cases h
    · rcases hptr : cstrAt o.ptr with e' | t
      · simp only [KeyspaceOp.stores, RedisDb.incrPtr, hptr, bind, Except.bind] at h
        cases h
        exact cstrAt_eq_error hptr
      · simp only [KeyspaceOp.stores, RedisDb.incrPtr, hptr, bind, Except.bind] at h
        cases h
  | decr key =>
    -- the pointer is moved without being read
    rcases found with _ | ⟨id, ptr⟩
    · cases h
    · cases ptr with
      | unassigned =>
        cases h
        exact .inl rfl
      | null => cases h
      | sds s back => cases h

/-- A keyspace after `past`: the keys present are the keys written. -/
structure KeysWritten (hash : Bytes → UInt64) (past : List KeyspaceOp) (db : RedisDb) : Prop where
  inv : db.Inv hash
  keys : ∀ k, k ∈ db.dict.entries.keys ↔ k ∈ writtenKeys past

theorem keysWritten_createDb : KeysWritten hash [] createDb where
  inv := inv_createDb
  keys k := by simp [writtenKeys, createDb]

theorem KeysWritten.step {past : List KeyspaceOp} {db : RedisDb} (h : KeysWritten hash past db)
    (op : KeyspaceOp) :
    Ends (fun r => KeysWritten hash (past ++ [op]) r.1) (fun e => e = .unassigned ∨ e = .badPointer)
      (keyspaceStep hash db op) := by
  have hspec := keyspaceStep_spec h.inv op
  generalize keyspaceStep hash db op = res at hspec ⊢
  rcases hspec with ⟨hw, -, -, hb⟩ | ⟨hw, hb⟩ | ⟨-, hs⟩
  · -- the key written is present from now on
    refine ⟨hb.inv, fun k => ?_⟩
    rw [mem_keys_iff, hb.get]
    rcases eq_or_ne k op.key with rfl | hne
    · simp [writtenKeys, hw]
    · rw [Function.update_of_ne hne, ← mem_keys_iff, h.keys]
      simp [writtenKeys, hw, hne]
  · refine ⟨hb.inv, fun k => ?_⟩
    rw [mem_keys_iff, hb.get, ← mem_keys_iff, h.keys]
    simp [writtenKeys, hw]
  · exact stores_eq_error hs

theorem ends_keyspaceRun (hash : Bytes → UInt64) (ops : List KeyspaceOp) :
    Ends (fun r => KeysWritten hash ops r.1) (fun e => e = .unassigned ∨ e = .badPointer)
      (run (keyspaceStep hash) createDb ops) :=
  ends_run (KeysWritten hash) (fun _ _ op h => h.step op) ops [] createDb keysWritten_createDb

/-- In every state of every run, for every hash function: the joint invariant of the two tables
holds, the keys present are the keys written, and the next operation leaves the object of every other
key as it is, and every object if it is a lookup. Operations fail only at a value that cannot be
read. -/
theorem keyspace_invariant (hash : Bytes → UInt64) (ops : List KeyspaceOp) :
    match run (keyspaceStep hash) createDb ops with
    | .error e => e = .unassigned ∨ e = .badPointer
    | .ok (db, _) =>
      db.dict.Inv (dbDictType hash) ∧
      (∀ k, k ∈ db.dict.entries.keys ↔ k ∈ writtenKeys ops) ∧
      ∀ op : KeyspaceOp, match keyspaceStep hash db op with
        | .error e => op.stores (db.get op.key) = .error e
        | .ok (db', _) =>
          (∀ k, k ≠ op.key → db'.get k = db.get k) ∧ (op.writes = false → db'.get = db.get) := by
  have hends := ends_keyspaceRun hash ops
  rcases hrun : run (keyspaceStep hash) createDb ops with e | ⟨db, os⟩
  · rw [hrun] at hends
    exact hends
  · rw [hrun] at hends
    refine ⟨hends.inv.reach.inv_load.1, hends.keys, fun op => ?_⟩
    have hspec := keyspaceStep_spec hends.inv op
    generalize keyspaceStep hash db op = res at hspec ⊢
    rcases hspec with ⟨hw, -, -, hb⟩ | ⟨-, hb⟩ | ⟨-, hs⟩
    · refine ⟨fun k hk => ?_, fun hf => ?_⟩
      · rw [hb.get, Function.update_of_ne hk]
      · rw [hw] at hf
        cases hf
    · exact ⟨fun k _ => by rw [hb.get], fun _ => hb.get⟩
    · exact hs

/-- Between any two calls to the dictionary, in every run and for every hash function: without a
rehash the entries do not outnumber the buckets, during one the new table is twice as large as the
old and the entries of both do not outnumber its buckets. -/
theorem load_factor_bound (hash : Bytes → UInt64) :
    (∀ d : Dict Key Robj, Dict.Reach (dbDictType hash) d → d.Bounded) ∧
      ∀ ops : List KeyspaceOp, Ends (fun r => Dict.Reach (dbDictType hash) r.1.dict ∧ r.1.dict.Bounded)
        (fun _ => True) (run (keyspaceStep hash) createDb ops) := by
  have hbounded : ∀ d : Dict Key Robj, Dict.Reach (dbDictType hash) d → d.Bounded :=
    fun d hd => hd.inv_load.1.bounded hd.inv_load.2
  refine ⟨hbounded, fun ops => ?_⟩
  have hends := ends_keyspaceRun hash ops
  rcases hrun : run (keyspaceStep hash) createDb ops with e | ⟨db, os⟩
  · trivial
  · rw [hrun] at hends
    exact ⟨hends.inv.reach, hbounded db.dict hends.inv.reach⟩

/-! ## The assertions -/

/-- The faults of a failed assertion and of a scan that leaves its bucket array. -/
def Aborts : List Fault := [.assertRehash, .assertAdd, .assertOverwrite, .tableBounds]

/-- No call aborts here: the next operation on any key does not; a key that a lookup does not find can
be added, and one that it finds is found again, whatever their values are; the index of a rehash is
inside the array it scans, which has the recorded size, and the next step of the rehash succeeds. -/
structure AbortFree (hash : Bytes → UInt64) (db : RedisDb) : Prop where
  next : ∀ op e, keyspaceStep hash db op = .error e → e ∉ Aborts
  added : ∀ key k, HoldsKey key k → ∀ db1, lookupKeyWrite hash db key = .ok (db1, none) →
    ∀ val, ∃ db', dbAdd hash db1 key val = .ok db'
  found : ∀ key k, HoldsKey key k → ∀ db1 o, lookupKeyWrite hash db key = .ok (db1, some o) →
    ∀ val, ∃ db', dbOverwrite hash db1 key val = .ok db'
  length : db.dict.ht0.table.length = db.dict.ht0.size
  rehashidx : ∀ i, db.dict.rehashidx = some i → i < db.dict.ht0.size
  rehash : ∃ d', dictRehash (dbDictType hash) db.dict 1 = .ok d'

theorem not_mem_aborts {e : Fault} (h : e = .unassigned ∨ e = .badPointer) : e ∉ Aborts := by
  rcases h with rfl | rfl
  · decide
  · decide

theorem RedisDb.Inv.abortFree {db : RedisDb} (h : db.Inv hash) : AbortFree hash db where
  next op e he := by
    have hspec := keyspaceStep_spec h op
    rw [he] at hspec
    cases hspec with
    | failed hw hs => exact not_mem_aborts (stores_eq_error hs)
  added key k hk db1 hlook val := by
    obtain ⟨db2, hlook2, hsame, -⟩ := h.lookupKeyWrite_spec hk
    obtain ⟨rfl, hget⟩ := Prod.mk.inj (Except.ok.inj (hlook2.symm.trans hlook))
    obtain ⟨d', hadd, -⟩ := hsame.inv.dbAdd_ok hk (by rw [hsame.get, hget]) val
    exact ⟨_, hadd⟩
  found key k hk db1 o hlook val := by
    obtain ⟨db2, hlook2, hsame, -⟩ := h.lookupKeyWrite_spec hk
    obtain ⟨rfl, hget⟩ := Prod.mk.inj (Except.ok.inj (hlook2.symm.trans hlook))
    -- the first lookup may have moved buckets, and the second one finds the key in any case
    obtain ⟨d', hover, -⟩ := hsame.inv.dbOverwrite_ok hk (o := o) (by rw [hsame.get, hget]) val
    exact ⟨_, hover⟩
  length := h.reach.inv_load.1.ht0.length
  rehashidx i hi := h.reach.inv_load.1.rehashidx_lt hi
  rehash := by
    obtain ⟨d', hstep, -⟩ := h.reach.inv_load.1.dictRehashStep_spec
    rw [dictRehashStep, if_pos h.reach.inv_load.1.iterators] at hstep
    exact ⟨d', hstep⟩

/-- In every state of every run, for every hash function, no call aborts; and no run has ended with
one. -/
theorem abortFree_run (hash : Bytes → UInt64) (ops : List KeyspaceOp) :
    Ends (fun r => AbortFree hash r.1) (fun e => e ∉ Aborts) (run (keyspaceStep hash) createDb ops) := by
  have hends := ends_keyspaceRun hash ops
  rcases hrun : run (keyspaceStep hash) createDb ops with e | ⟨db, os⟩
  · rw [hrun] at hends
    exact not_mem_aborts hends
  · rw [hrun] at hends
    exact hends.inv.abortFree

end RedisCounter
