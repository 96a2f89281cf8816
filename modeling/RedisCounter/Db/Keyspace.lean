import RedisCounter.Db.Basic
import RedisCounter.Dict.Operations
import RedisCounter.Lib.Run

/-!
# The keyspace as a partial function from keys to value objects

`setKey`, `incrKey` and `decrKey` look their key up and then add or overwrite, each of which may
move buckets. On a keyspace that calls have made of an empty one they never fail for a reason of the
dictionary's: a key is added exactly when it was not found, and found again when it is overwritten.
Their effect is the update of one key; the only failures are reads through a value's pointer.
-/

namespace RedisCounter

open List Run

variable {hash : Bytes → UInt64}

/-- The value object of a key. -/
def RedisDb.get (db : RedisDb) : Key → Option Robj := db.dict.get

/-- What holds of every keyspace: its dictionary was made by calls to the dictionary, and the next
object is a new one. -/
structure RedisDb.Inv (hash : Bytes → UInt64) (db : RedisDb) : Prop where
  reach : Dict.Reach (dbDictType hash) db.dict
  fresh : ∀ k o, db.get k = some o → o.id < db.objs

theorem inv_createDb : createDb.Inv hash where
  reach := .create
  fresh _ _ h := by cases h

/-- An object whose pointer is an sds of a key. -/
def HoldsKey (key : Robj) (k : Key) : Prop := ∃ s : Sds, key.ptr = .sds s 0 ∧ s.Wf ∧ s.content = k.1

theorem dictKey_of_content {s : Sds} {k : Key} (h : s.content = k.1) : dictKey s = .ok k := by
  have hlt : s.content.length < 2 ^ 31 := by
    rw [h]
    exact k.2
  rw [dictKey, dif_pos hlt]
  exact congrArg Except.ok (Subtype.ext h)

namespace RedisDb

variable {db : RedisDb} {key val : Robj} {k : Key}

/-! ## Lookups and writes -/

/-- The bindings are the same. -/
structure Same (hash : Bytes → UInt64) (db db' : RedisDb) : Prop where
  inv : db'.Inv hash
  get : db'.get = db.get

/-- The binding of one key has changed, and no other. -/
structure Bound (hash : Bytes → UInt64) (db : RedisDb) (k : Key) (o : Robj) (db' : RedisDb) : Prop where
  inv : db'.Inv hash
  get : db'.get = Function.update db.get k (some o)

theorem Same.alloc {db' : RedisDb} (h : Same hash db db') : Same hash db (newObject db').1 where
  inv :=
    { reach := h.inv.reach
      fresh := fun k o ho => (h.inv.fresh k o ho).trans (Nat.lt_succ_self _) }
  get := h.get

theorem Same.bound {db' db'' : RedisDb} {o : Robj} (h : Same hash db db')
    (hb : Bound hash db' k o db'') : Bound hash db k o db'' :=
  ⟨hb.inv, by rw [hb.get, h.get]⟩

/-- Finding a key changes no binding. -/
theorem Inv.find_spec (h : db.Inv hash) (k : Key) :
    ∃ d' r, dictFind (dbDictType hash) db.dict k = .ok (d', r) ∧
      Same hash db { db with dict := d' } ∧ db.get k = r.map fun x => x.2.2 := by
  obtain ⟨d', r, hfind, hinv, hperm, -, hr⟩ := h.reach.inv_load.1.dictFind_spec k
  have hget := h.reach.inv_load.1.get_eq_of_perm hperm
  refine ⟨d', r, hfind, ⟨⟨h.reach.find hfind, ?_⟩, hget⟩, ?_⟩
  · intro k' o ho
    exact h.fresh k' o (by rwa [RedisDb.get, ← hget])
  · rw [RedisDb.get, ← hget, hr.get_eq hinv]

theorem Inv.lookupKeyWrite_spec (h : db.Inv hash) (hk : HoldsKey key k) :
    ∃ db', lookupKeyWrite hash db key = .ok (db', db.get k) ∧ Same hash db db' ∧
      db'.objs = db.objs := by
  obtain ⟨s, hptr, -, hs⟩ := hk
  obtain ⟨d', r, hfind, hsame, hget⟩ := h.find_spec k
  refine ⟨{ db with dict := d' }, ?_, hsame, rfl⟩
  simp only [lookupKeyWrite, lookupKey, hptr, sdsAt, dictKey_of_content hs, hfind, bind,
    Except.bind, pure, Except.pure]
  rw [hget]

/-- A key is fetched without any change of a binding. -/
theorem Inv.dictFetchValue_spec (h : db.Inv hash) (k : Key) :
    ∃ d', dictFetchValue (dbDictType hash) db.dict k = .ok (d', db.get k) ∧
      Same hash db { db with dict := d' } := by
  obtain ⟨d', r, hfind, hsame, hget⟩ := h.find_spec k
  refine ⟨d', ?_, hsame⟩
  simp only [dictFetchValue, hfind, bind, Except.bind]
  rw [hget]
  rfl

theorem fresh_update (h : db.Inv hash) (hval : val.id < db.objs) :
    ∀ (k' : Key) (o : Robj), Function.update db.get k (some val) k' = some o → o.id < db.objs :=
  Buckets.forall_of_update hval h.fresh

/-- `dbAdd` of an absent key: the assertion holds. -/
theorem Inv.dbAdd_ok (h : db.Inv hash) (hk : HoldsKey key k) (habs : db.get k = none) (val : Robj) :
    ∃ d', dbAdd hash db key val = .ok { db with dict := d' } ∧ Dict.Reach (dbDictType hash) d' ∧
      d'.get = Function.update db.get k (some val) := by
  obtain ⟨s, hptr, hwf, hs⟩ := hk
  have hkey : k ∉ db.dict.entries.keys := Dict.get_eq_none_iff.1 habs
  obtain ⟨d', hadd, hinv, hperm, -⟩ := h.reach.inv_load.1.dictAdd_spec hkey val
  have hdup : dictKey (sdsdup s) = .ok k := dictKey_of_content (hwf.content_sdsdup.trans hs)
  refine ⟨d', ?_, h.reach.add hadd, hinv.get_eq_of_perm_cons hperm⟩
  simp only [dbAdd, hptr, sdsAt, hdup, hadd, bind, Except.bind, pure, Except.pure]

theorem Inv.dbAdd_spec (h : db.Inv hash) (hk : HoldsKey key k) (habs : db.get k = none)
    (hval : val.id < db.objs) : ∃ db', dbAdd hash db key val = .ok db' ∧ Bound hash db k val db' := by
  obtain ⟨d', hadd, hreach, hget⟩ := h.dbAdd_ok hk habs val
  refine ⟨{ db with dict := d' }, hadd, ⟨hreach, ?_⟩, hget⟩
  intro k' o ho
  exact fresh_update h hval k' o (by rwa [RedisDb.get, hget] at ho)

/-- `dbOverwrite` of a bound key: the assertion holds. -/
theorem Inv.dbOverwrite_ok (h : db.Inv hash) (hk : HoldsKey key k) {o : Robj}
    (hbound : db.get k = some o) (val : Robj) :
    ∃ d', dbOverwrite hash db key val = .ok { db with dict := d' } ∧ Dict.Reach (dbDictType hash) d' ∧
      d'.get = Function.update db.get k (some val) := by
  obtain ⟨s, hptr, -, hs⟩ := hk
  obtain ⟨d', r, hfind, hinv, hperm, -, hr⟩ := h.reach.inv_load.1.dictFind_spec k
  have hget := h.reach.inv_load.1.get_eq_of_perm hperm
  have hsome := hr.get_eq hinv
  rw [hget, show db.dict.get k = some o from hbound] at hsome
  -- the lookup finds the key that is bound, so the assertion holds
  rcases hr with _ | ⟨p, old, hat⟩
  · cases hsome
  · have hset := hinv.get_dictSetVal hat val
    rw [hget] at hset
    refine ⟨dictSetVal d' p val, ?_, h.reach.setVal hfind val, hset⟩
    simp only [dbOverwrite, hptr, sdsAt, dictKey_of_content hs, hfind, bind, Except.bind, pure,
      Except.pure]

theorem Inv.dbOverwrite_spec (h : db.Inv hash) (hk : HoldsKey key k) {o : Robj}
    (hbound : db.get k = some o) (hval : val.id < db.objs) :
    ∃ db', dbOverwrite hash db key val = .ok db' ∧ Bound hash db k val db' := by
  obtain ⟨d', hover, hreach, hget⟩ := h.dbOverwrite_ok hk hbound val
  refine ⟨{ db with dict := d' }, hover, ⟨hreach, ?_⟩, hget⟩
  intro k' o' ho'
  exact fresh_update h hval k' o' (by rwa [RedisDb.get, hget] at ho')

/-- After a lookup, adding where nothing was found and overwriting where something was. -/
theorem Same.write_spec {db' : RedisDb} (hsame : Same hash db db') (hk : HoldsKey key k)
    (hval : val.id < db'.objs) :
    (db.get k = none → ∃ db'', dbAdd hash db' key val = .ok db'' ∧ Bound hash db k val db'') ∧
      ∀ o, db.get k = some o →
        ∃ db'', dbOverwrite hash db' key val = .ok db'' ∧ Bound hash db k val db'' := by
  refine ⟨fun habs => ?_, fun o ho => ?_⟩
  · obtain ⟨db'', hadd, hb⟩ := hsame.inv.dbAdd_spec hk (by rw [hsame.get, habs]) hval
    exact ⟨db'', hadd, hsame.bound hb⟩
  · obtain ⟨db'', hover, hb⟩ := hsame.inv.dbOverwrite_spec hk (o := o) (by rw [hsame.get, ho]) hval
    exact ⟨db'', hover, hsame.bound hb⟩

theorem Inv.setKey_spec (h : db.Inv hash) (hk : HoldsKey key k) (hval : val.id < db.objs) :
    ∃ db', setKey hash db key val = .ok db' ∧ Bound hash db k val db' := by
  obtain ⟨db1, hlook, hsame, hobjs⟩ := h.lookupKeyWrite_spec hk
  have hwrite := hsame.write_spec hk (hobjs ▸ hval)
  simp only [setKey, hlook, bind, Except.bind]
  rcases hget : db.get k with _ | o
  · exact hwrite.1 hget
  · exact hwrite.2 o hget

/-! ## Counters -/

/-- The pointer `incrKey` stores, from the object it found. -/
def incrPtr : Option Robj → Except Fault VoidPtr
  | none => pure (.sds (counterSds 1) 0)
  | some ret => do pure (.sds (counterSds (wrapLong (atol (← cstrAt ret.ptr) + 1))) 0)

/-- The pointer `decrKey` stores, from the object it found. -/
def decrPtrOf : Option Robj → Except Fault VoidPtr
  | none => pure .null
  | some ret => decrPtr ret.ptr

/-- Adding or overwriting with an object allocated after the lookup. -/
theorem Same.write_new {db1 : RedisDb} (hsame : Same hash db db1) (hobjs : db1.objs = db.objs)
    (hk : HoldsKey key k) (ptr : VoidPtr) :
    (db.get k = none → ∃ db', dbAdd hash (newObject db1).1 key ⟨(newObject db1).2, ptr⟩ = .ok db' ∧
        Bound hash db k ⟨db.objs, ptr⟩ db') ∧
      ∀ o, db.get k = some o →
        ∃ db', dbOverwrite hash (newObject db1).1 key ⟨(newObject db1).2, ptr⟩ = .ok db' ∧
          Bound hash db k ⟨db.objs, ptr⟩ db' := by
  have hid : (newObject db1).2 = db.objs := hobjs
  have hlt : (⟨db.objs, ptr⟩ : Robj).id < (newObject db1).1.objs := by
    rw [newObject, hobjs]
    exact Nat.lt_add_one db.objs
  rw [hid]
  exact hsame.alloc.write_spec hk hlt

/-- `incrKey` binds its key to a new object, unless the value it finds cannot be read. -/
theorem Inv.incrKey_spec (h : db.Inv hash) (hk : HoldsKey key k) :
    match incrPtr (db.get k) with
    | .error e => incrKey hash db key = .error e
    | .ok ptr => ∃ db', incrKey hash db key = .ok db' ∧ Bound hash db k ⟨db.objs, ptr⟩ db' := by
  obtain ⟨db1, hlook, hsame, hobjs⟩ := h.lookupKeyWrite_spec hk
  have hptr : ∀ z, counterPtr (wrapLong z) = .ok (.sds (counterSds (wrapLong z)) 0) := fun z =>
    counterPtr_eq (LONG_MIN_le_wrapLong z) (wrapLong_le_LONG_MAX z)
  simp only [incrKey, hlook, bind, Except.bind]
  rcases hget : db.get k with _ | o
  · have hnew : counterPtr 1 = .ok (.sds (counterSds 1) 0) := counterPtr_eq (by decide) (by decide)
    simp only [hnew]
    exact (hsame.write_new hobjs hk _).1 hget
  · rcases hread : cstrAt o.ptr with e | t
    · simp only [incrPtr, hread, bind, Except.bind]
    · simp only [incrPtr, hread, hptr, bind, Except.bind, pure, Except.pure]
      exact (hsame.write_new hobjs hk _).2 o hget

/-- `decrKey` binds its key to a new object, unless the value it finds was never assigned. -/
theorem Inv.decrKey_spec (h : db.Inv hash) (hk : HoldsKey key k) :
    match decrPtrOf (db.get k) with
    | .error e => decrKey hash db key = .error e
    | .ok ptr => ∃ db', decrKey hash db key = .ok db' ∧ Bound hash db k ⟨db.objs, ptr⟩ db' := by
  obtain ⟨db1, hlook, hsame, hobjs⟩ := h.lookupKeyWrite_spec hk
  simp only [decrKey, hlook, bind, Except.bind]
  rcases hget : db.get k with _ | o
  · exact (hsame.write_new hobjs hk _).1 hget
  · rcases hread : decrPtr o.ptr with e | ptr
    · simp only [decrPtrOf, hread]
    · simp only [decrPtrOf, hread]
      exact (hsame.write_new hobjs hk _).2 o hget

end RedisDb

end RedisCounter
