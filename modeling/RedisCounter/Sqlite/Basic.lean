import RedisCounter.Sds.Number

/-!
# Counters in SQLite

`saveOne` and `selectOne` print a statement into a buffer of `MAX_SQL_LINE` bytes and hand it to the
SQLite library, which is a parameter: what it does with the text of a statement. `errExit` ends the
process.
-/

namespace RedisCounter

open Decimal

def MAX_SQL_LINE : ℕ := 256

/-- The string in a `char` array of `n` bytes. -/
structure CharArray (n : ℕ) where
  text : Bytes
  zero_not_mem : (0 : UInt8) ∉ text
  length_lt : text.length < n
deriving DecidableEq

/-- `counter_item`. -/
structure CounterItem where
  keyId : Int32
  keyName : CharArray 32
  keyValue : CharArray 32
  usedDatetime : CharArray 32
deriving DecidableEq

/-- The ways `saveOne` and `selectOne` can fail to return. -/
inductive SqlFault
  /-- `errExit(msg)`. -/
  | errExit (msg : Bytes)
  /-- `sprintf` writes past the end of `sql`. -/
  | sqlOverrun
  /-- `strcpy` writes past the end of a field. -/
  | fieldOverrun
  /-- A cell is read that is `NULL` or not in the result. -/
  | badCell
deriving DecidableEq, Repr

/-! ## Statements -/

/-- An argument of `sprintf`: an `int` for `%d`, a string for `%s`. -/
inductive PrintfArg
  | int (num : Int32)
  | str (t : Bytes)

/-- What `sprintf` puts out. -/
def sprintf : Bytes → List PrintfArg → Bytes
  | 37 :: 100 :: fmt, .int num :: args => intText num.toInt ++ sprintf fmt args
  | 37 :: 115 :: fmt, .str t :: args => cstr t ++ sprintf fmt args
  | c :: fmt, args => c :: sprintf fmt args
  | [], _ => []

/-- `select * from counter where key_id = '%d'` -/
def selectFmt : Bytes :=
  ascii ['s', 'e', 'l', 'e', 'c', 't', ' ', '*', ' ', 'f', 'r', 'o', 'm', ' ', 'c', 'o', 'u', 'n',
    't', 'e', 'r', ' ', 'w', 'h', 'e', 'r', 'e', ' ', 'k', 'e', 'y', '_', 'i', 'd', ' ', '=', ' ',
    '\'', '%', 'd', '\'']

/-- `insert into counter (key_id, key_name, key_value, used_datetime) values (%d,'%s','%s','%s');` -/
def insertFmt : Bytes :=
  ascii ['i', 'n', 's', 'e', 'r', 't', ' ', 'i', 'n', 't', 'o', ' ', 'c', 'o', 'u', 'n', 't', 'e',
    'r', ' ', '(', 'k', 'e', 'y', '_', 'i', 'd', ',', ' ', 'k', 'e', 'y', '_', 'n', 'a', 'm', 'e',
    ',', ' ', 'k', 'e', 'y', '_', 'v', 'a', 'l', 'u', 'e', ',', ' ', 'u', 's', 'e', 'd', '_', 'd',
    'a', 't', 'e', 't', 'i', 'm', 'e', ')', ' ', 'v', 'a', 'l', 'u', 'e', 's', ' ', '(', '%', 'd',
    ',', '\'', '%', 's', '\'', ',', '\'', '%', 's', '\'', ',', '\'', '%', 's', '\'', ')', ';']

/-- `update counter set key_name ='%s', key_value = '%s', used_datetime = '%s' where key_id='%d'` -/
def updateFmt : Bytes :=
  ascii ['u', 'p', 'd', 'a', 't', 'e', ' ', 'c', 'o', 'u', 'n', 't', 'e', 'r', ' ', 's', 'e', 't',
    ' ', 'k', 'e', 'y', '_', 'n', 'a', 'm', 'e', ' ', '=', '\'', '%', 's', '\'', ',', ' ', 'k',
    'e', 'y', '_', 'v', 'a', 'l', 'u', 'e', ' ', '=', ' ', '\'', '%', 's', '\'', ',', ' ', 'u',
    's', 'e', 'd', '_', 'd', 'a', 't', 'e', 't', 'i', 'm', 'e', ' ', '=', ' ', '\'', '%', 's',
    '\'', ' ', 'w', 'h', 'e', 'r', 'e', ' ', 'k', 'e', 'y', '_', 'i', 'd', '=', '\'', '%', 'd',
    '\'']

def selectText (keyId : Int32) : Bytes := sprintf selectFmt [.int keyId]

def insertText (item : CounterItem) : Bytes :=
  sprintf insertFmt [.int item.keyId, .str item.keyName.text, .str item.keyValue.text,
    .str item.usedDatetime.text]

def updateText (item : CounterItem) : Bytes :=
  sprintf updateFmt [.str item.keyName.text, .str item.keyValue.text, .str item.usedDatetime.text,
    .int item.keyId]

/-- `memset(sql, 0, sizeof(sql)); sprintf(sql, …);`, for what is put out. -/
def printSql (out : Bytes) : Except SqlFault Bytes :=
  if out.length < MAX_SQL_LINE then
    pure (memcpyAt (List.replicate MAX_SQL_LINE 0) 0 (out ++ [0]))
  else throw .sqlOverrun

/-! ## The library -/

/-- What `sqlite3_get_table` returns: `nRow` rows of `nCol` cells, behind a row of column names. `none` is
a `NULL`. -/
structure SqlTable where
  nRow : ℕ
  nCol : ℕ
  dbRet : List (Option Bytes)

/-- `sqlite3_get_table` and `sqlite3_exec`, on the text of a statement up to its NUL; `none` is any
result but `SQLITE_OK`. -/
structure Sqlite (σ : Type) where
  getTable : σ → Bytes → Option SqlTable
  exec : σ → Bytes → Option σ

/-- The string at `dbRet[i]`. -/
def SqlTable.cell (t : SqlTable) (i : ℕ) : Except SqlFault Bytes :=
  match t.dbRet[i]? with
  | some (some p) => pure p
  | _ => throw .badCell

/-- `atoi`. -/
def atoi (p : Bytes) : Int32 := Int32.ofInt (atol p)

/-- `strcpy` into an array of `n` bytes. -/
def strcpy (n : ℕ) (src : Bytes) : Except SqlFault (CharArray n) :=
  if h : (cstr src).length < n then pure ⟨cstr src, zero_not_mem_cstr src, h⟩
  else throw .fieldOverrun

section

variable {σ : Type} (lib : Sqlite σ)

/-- `selectOne(keyId, item)`: the item it fills in. -/
def selectOne (keyId : Int32) (db : σ) : Except SqlFault CounterItem := do
  let sql ← printSql (selectText keyId)
  match lib.getTable db (cstr sql) with
  | none => throw (.errExit (ascii ['s', 'e', 'l', 'e', 'c', 't', ' ', 'f', 'a', 'i', 'l', 'e',
    'd']))
  | some t =>
    if t.nRow = 0 then throw (.errExit (ascii ['s', 'e', 'l', 'e', 'c', 't', ' ', 'r', 'e', 'c',
      'o', 'r', 'd', ' ', 'n', 'o', 't', ' ', 'f', 'i', 'n', 'd']))
    else if 1 < t.nRow then throw (.errExit (ascii ['n', 'R', 'o', 'w', ' ', 'm', 'o', 'r', 'e',
      ' ', 't', 'h', 'a', 'n', ' ', '1']))
    else
      let idx := t.nCol
      pure {
        keyId := atoi (← t.cell idx)
        keyName := ← strcpy 32 (← t.cell (idx + 1))
        keyValue := ← strcpy 32 (← t.cell (idx + 2))
        usedDatetime := ← strcpy 32 (← t.cell (idx + 3)) }

/-- `saveOne(item)`: the database it leaves. -/
def saveOne (item : CounterItem) (db : σ) : Except SqlFault σ := do
  let sql ← printSql (selectText item.keyId)
  match lib.getTable db (cstr sql) with
  | none => throw (.errExit (ascii ['s', 'e', 'l', 'e', 'c', 't', ' ', 'f', 'a', 'i', 'l', 'e',
    'd', ':']))
  | some t =>
    if t.nRow = 0 then
      let sql ← printSql (insertText item)
      match lib.exec db (cstr sql) with
      | none => throw (.errExit (ascii ['i', 'n', 's', 'e', 'r', 't', ' ', 'e', 'r', 'r', 'o',
        'r']))
      | some db => pure db
    else
      let sql ← printSql (updateText item)
      match lib.exec db (cstr sql) with
      | none => throw (.errExit (ascii ['u', 'p', 'd', 'a', 't', 'e', ' ', 'e', 'r', 'r', 'o',
        'r']))
      | some db => pure db

end

end RedisCounter
