import RedisCounter.Dict.Basic
import RedisCounter.Sds.Format

/-!
# Value objects, the keyspace and its commands

`object.c` and `db.c`. A value object keeps an untyped pointer; who writes it and who reads it must
agree on what it points to, so the model keeps the pointer itself: unassigned, `NULL`, or so many
bytes before the first character of an sds. Reading a C string through it reads the memory that is
there, the packed header included.

An object is named by a number that stands for its address; `RedisDb.objs` is the next one. Objects
are never freed here. The other fields of `robj` and of `redisDb` are not used.
-/

namespace RedisCounter

open Decimal

/-! ## Objects -/

/-- What a `void *` field of an object holds. -/
inductive VoidPtr
  /-- No statement has assigned it. -/
  | unassigned
  | null
  /-- The address `back` bytes before the first character of `s`. -/
  | sds (s : Sds) (back : ℕ)
deriving DecidableEq, Repr

/-- `robj`: its address and its `ptr`. -/
structure Robj where
  id : ℕ
  ptr : VoidPtr
deriving DecidableEq, Repr

/-- The bytes of a header field, lowest first. -/
def littleEndian : ℕ → ℕ → Bytes
  | 0, _ => []
  | n + 1, v => UInt8.ofNat (v % 256) :: littleEndian n (v / 256)

/-- The packed header in front of the characters. -/
def sdsHeader (s : Sds) : Bytes :=
  match s.type with
  | .type5 => [UInt8.ofNat (s.type.code + s.len * 8)]
  | .type8 => littleEndian 1 s.len ++ littleEndian 1 s.alloc ++ [UInt8.ofNat s.type.code]
  | .type16 => littleEndian 2 s.len ++ littleEndian 2 s.alloc ++ [UInt8.ofNat s.type.code]
  | .type32 => littleEndian 4 s.len ++ littleEndian 4 s.alloc ++ [UInt8.ofNat s.type.code]
  | .type64 => littleEndian 8 s.len ++ littleEndian 8 s.alloc ++ [UInt8.ofNat s.type.code]

/-- The C string at a pointer. -/
def cstrAt : VoidPtr → Except Fault Bytes
  | .unassigned => throw .unassigned
  | .null => throw .badPointer
  | .sds s back =>
    let p := (sdsHeader s ++ s.buf).drop (s.type.hdrSize - back)
    if back ≤ s.type.hdrSize ∧ 0 ∈ p then pure (cstr p) else throw .badPointer

/-- The sds at a pointer. -/
def sdsAt : VoidPtr → Except Fault Sds
  | .unassigned => throw .unassigned
  | .sds s 0 => pure s
  | _ => throw .badPointer

/-! ## The dictionary of a database -/

/-- The keys `dictSdsKeyCompare` can compare: it keeps their lengths in an `int`. -/
abbrev Key := { key : Bytes // key.length < 2 ^ 31 }

/-- The sds passed as a key, by the bytes its header says it holds. -/
def dictKey (s : Sds) : Except Fault Key :=
  if h : s.content.length < 2 ^ 31 then pure ⟨s.content, h⟩ else throw .keyLength

/-- `dictSdsKeyCompare`. -/
def dictSdsKeyCompare (key1 key2 : Key) : Bool :=
  let l1 := (key1.1.length : ℤ).bmod (2 ^ 32)
  let l2 := (key2.1.length : ℤ).bmod (2 ^ 32)
  if l1 ≠ l2 then false else memcmp l1.toNat key1.1 key2.1 == 0

theorem dictSdsKeyCompare_iff (key1 key2 : Key) :
    dictSdsKeyCompare key1 key2 = true ↔ key1 = key2 := by
  have hint : ∀ key : Key, (key.1.length : ℤ).bmod (2 ^ 32) = key.1.length := by
    intro key
    have hlt := key.2
    exact Int.bmod_eq_of_le (by omega) (by omega)
  unfold dictSdsKeyCompare
  simp only [hint]
  split_ifs with hlen
  · have hne : key1 ≠ key2 := fun heq => hlen (by rw [heq])
    simp [hne]
  · have hlen : key1.1.length = key2.1.length := by
      simpa using hlen
    rw [beq_iff_eq, Int.toNat_natCast, memcmp_eq_zero_iff le_rfl hlen.le, List.take_length, hlen,
      List.take_length]
    exact Subtype.ext_iff.symm

/-- `dbDictType`, with any function of the key's bytes in place of `dictSdsHash`. -/
def dbDictType (hash : Bytes → UInt64) : DictType Key where
  hashFunction key := hash key.1
  keyCompare := dictSdsKeyCompare
  keyCompare_iff := dictSdsKeyCompare_iff

/-- `redisDb`, and the number of objects allocated so far. -/
structure RedisDb where
  dict : Dict Key Robj
  objs : ℕ
deriving DecidableEq

/-- The database `main` starts with. -/
def createDb : RedisDb := ⟨dictCreate, 0⟩

/-- `zmalloc(sizeof(robj))`: the address of the new object. -/
def newObject (db : RedisDb) : RedisDb × ℕ := ({ db with objs := db.objs + 1 }, db.objs)

variable (hash : Bytes → UInt64)

/-- `lookupKey`; its flags are not used. -/
def lookupKey (db : RedisDb) (key : Robj) : Except Fault (RedisDb × Option Robj) := do
  let key ← dictKey (← sdsAt key.ptr)
  let (dict, de) ← dictFind (dbDictType hash) db.dict key
  pure ({ db with dict }, de.map fun x => x.2.2)

/-- `lookupKeyWrite`. -/
def lookupKeyWrite (db : RedisDb) (key : Robj) : Except Fault (RedisDb × Option Robj) :=
  lookupKey hash db key

/-! ## Writing -/

/-- `dbAdd`. -/
def dbAdd (db : RedisDb) (key val : Robj) : Except Fault RedisDb := do
  let copy := sdsdup (← sdsAt key.ptr)
  match ← dictAdd (dbDictType hash) db.dict (← dictKey copy) val with
  | (_, false) => throw .assertAdd
  | (dict, true) => pure { db with dict }

/-- `dbOverwrite`. The old object is not freed: `dbDictType` has no value destructor. -/
def dbOverwrite (db : RedisDb) (key val : Robj) : Except Fault RedisDb := do
  let key ← dictKey (← sdsAt key.ptr)
  match ← dictFind (dbDictType hash) db.dict key with
  | (_, none) => throw .assertOverwrite
  | (dict, some (de, _)) => pure { db with dict := dictSetVal dict de val }

/-- `setKey`. -/
def setKey (db : RedisDb) (key val : Robj) : Except Fault RedisDb := do
  match ← lookupKeyWrite hash db key with
  | (db, none) => dbAdd hash db key val
  | (db, some _) => dbOverwrite hash db key val

/-- `sds ptr = sdsnew(""); sdsll2str(ptr, value);`: the digits go behind a header that still says 0. -/
def counterSds (value : ℤ) : Sds :=
  let ptr := sdsnew []
  { ptr with buf := (sdsll2str ptr.buf value).1 }

/-- The pointer to it, if the block that `malloc` returns for the empty string has room for the header,
the digits and their NUL. -/
def counterPtr (value : ℤ) : Except Fault VoidPtr :=
  let ptr := sdsnew []
  let block := mallocUsableSize (ptr.type.hdrSize + ptr.len + 1 + PREFIX_SIZE)
  if ptr.type.hdrSize + (sdsll2str ptr.buf value).2 + 1 ≤ block then pure (.sds (counterSds value) 0)
  else throw .blockOverrun

/-- The 24 bytes of the block are just enough for every `long`. -/
theorem counterPtr_eq {value : ℤ} (hmin : LONG_MIN ≤ value) (hmax : value ≤ LONG_MAX) :
    counterPtr value = .ok (.sds (counterSds value) 0) := by
  have hlen := length_intText_le hmin hmax
  have hdigits : (sdsll2str (sdsnew []).buf value).2 ≤ 20 := by
    rw [sdsll2str_spec _ hmin hmax]
    exact hlen
  have hhdr : (sdsnew []).type.hdrSize = 3 := rfl
  have hblock : mallocUsableSize ((sdsnew []).type.hdrSize + (sdsnew []).len + 1 + PREFIX_SIZE) = 24 :=
    rfl
  unfold counterPtr
  dsimp only
  rw [hblock, hhdr, if_pos (by omega)]
  rfl

/-- `incrKey`. -/
def incrKey (db : RedisDb) (key : Robj) : Except Fault RedisDb := do
  let (db, ret) ← lookupKeyWrite hash db key
  let (db, val) := newObject db
  match ret with
  | none => dbAdd hash db key ⟨val, ← counterPtr 1⟩
  | some ret =>
    let value := wrapLong (atol (← cstrAt ret.ptr) + 1)
    dbOverwrite hash db key ⟨val, ← counterPtr value⟩

/-- `(long)ret->ptr - 1`, clamped at 0, as a pointer again. An address is positive and far above the
number of times a counter is decremented. -/
def decrPtr : VoidPtr → Except Fault VoidPtr
  | .unassigned => throw .unassigned
  | .null => pure .null
  | .sds s back => pure (.sds s (back + 1))

/-- `decrKey`. -/
def decrKey (db : RedisDb) (key : Robj) : Except Fault RedisDb := do
  let (db, ret) ← lookupKeyWrite hash db key
  let (db, val) := newObject db
  match ret with
  | none => dbAdd hash db key ⟨val, .null⟩
  | some ret => dbOverwrite hash db key ⟨val, ← decrPtr ret.ptr⟩

/-! ## The client's side -/

/-- `clientBuf`, which puts `*target`. The lengths are an `int` there; the arguments are pieces of a
line of `MAX_LINE` bytes. -/
def clientBuf (argv : List Bytes) : Sds :=
  argv.foldl
    (fun cmd arg =>
      let len := strlen arg
      let cmd := sdscatfmt cmd (FmtPiece.char 36 :: .uint len :: FmtPiece.lit [cr, lf])
      sdscatlen (sdscatlen cmd (arg.take len)) [cr, lf])
    (sdscatfmt sdsempty (FmtPiece.char 42 :: .int argv.length :: FmtPiece.lit [cr, lf]))

end RedisCounter
