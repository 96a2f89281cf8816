import RedisCounter.Lib.Literal
import RedisCounter.Sqlite.Basic

/-!
# What the statements say

The fields of an item are put between quotes as they are. The statement then says what was meant when no
field has a quote, and only then. It fits into its buffer anyway.
-/

namespace RedisCounter

open Decimal Literal

/-! ## Statements as they are meant -/

/-- The texts for the three columns behind the key. -/
structure Texts where
  keyName : Bytes
  keyValue : Bytes
  usedDatetime : Bytes
deriving DecidableEq

def CounterItem.texts (item : CounterItem) : Texts :=
  ⟨item.keyName.text, item.keyValue.text, item.usedDatetime.text⟩

/-- `select * from counter where key_id = ` -/
def selectCode : Bytes :=
  ascii ['s', 'e', 'l', 'e', 'c', 't', ' ', '*', ' ', 'f', 'r', 'o', 'm', ' ', 'c', 'o', 'u', 'n',
    't', 'e', 'r', ' ', 'w', 'h', 'e', 'r', 'e', ' ', 'k', 'e', 'y', '_', 'i', 'd', ' ', '=', ' ']

/-- `insert into counter (key_id, key_name, key_value, used_datetime) values (` -/
def insertCode : Bytes :=
  ascii ['i', 'n', 's', 'e', 'r', 't', ' ', 'i', 'n', 't', 'o', ' ', 'c', 'o', 'u', 'n', 't', 'e',
    'r', ' ', '(', 'k', 'e', 'y', '_', 'i', 'd', ',', ' ', 'k', 'e', 'y', '_', 'n', 'a', 'm', 'e',
    ',', ' ', 'k', 'e', 'y', '_', 'v', 'a', 'l', 'u', 'e', ',', ' ', 'u', 's', 'e', 'd', '_', 'd',
    'a', 't', 'e', 't', 'i', 'm', 'e', ')', ' ', 'v', 'a', 'l', 'u', 'e', 's', ' ', '(']

/-- `update counter set key_name =` -/
def setNameCode : Bytes :=
  ascii ['u', 'p', 'd', 'a', 't', 'e', ' ', 'c', 'o', 'u', 'n', 't', 'e', 'r', ' ', 's', 'e', 't',
    ' ', 'k', 'e', 'y', '_', 'n', 'a', 'm', 'e', ' ', '=']

/-- `, key_value = ` -/
def setValueCode : Bytes :=
  ascii [',', ' ', 'k', 'e', 'y', '_', 'v', 'a', 'l', 'u', 'e', ' ', '=', ' ']

/-- `, used_datetime = ` -/
def setDatetimeCode : Bytes :=
  ascii [',', ' ', 'u', 's', 'e', 'd', '_', 'd', 'a', 't', 'e', 't', 'i', 'm', 'e', ' ', '=', ' ']

/-- ` where key_id=` -/
def whereCode : Bytes :=
  ascii [' ', 'w', 'h', 'e', 'r', 'e', ' ', 'k', 'e', 'y', '_', 'i', 'd', '=']

/-- The row with the key `k`. -/
def selectShape (k : Int32) : List (Piece UInt8) :=
  [.code selectCode, .literal (intText k.toInt)]

/-- A new row with the key `k` and the texts `t`. -/
def insertShape (k : Int32) (t : Texts) : List (Piece UInt8) :=
  [.code (insertCode ++ intText k.toInt ++ ascii [',']), .literal t.keyName,
    .code (ascii [',']), .literal t.keyValue,
    .code (ascii [',']), .literal t.usedDatetime, .code (ascii [')', ';'])]

/-- The texts `t` for the row with the key `k`. -/
def updateShape (k : Int32) (t : Texts) : List (Piece UInt8) :=
  [.code setNameCode, .literal t.keyName, .code setValueCode, .literal t.keyValue,
    .code setDatetimeCode, .literal t.usedDatetime, .code whereCode, .literal (intText k.toInt)]

/-- What stands outside the literals. -/
def codeOf (ps : List (Piece UInt8)) : Bytes :=
  ps.flatMap fun
    | .code t => t
    | .literal _ => []

/-- The text `sql` fits into the buffer and reads as the one statement `ps`: outside the literals no
semicolon stands in front of others. -/
structure Says (sql : Bytes) (ps : List (Piece UInt8)) : Prop where
  fits : sql.length < MAX_SQL_LINE
  zero_not_mem : (0 : UInt8) ∉ sql
  lex : lex squote sql = some ps
  single : (59 : UInt8) ∉ (codeOf ps).dropLast

/-- Both statements of `saveOne` say what the item is. -/
def Carries (item : CounterItem) : Prop :=
  Says (insertText item) (insertShape item.keyId item.texts) ∧
    Says (updateText item) (updateShape item.keyId item.texts)

/-- No field has a quote. -/
def QuoteFree (item : CounterItem) : Prop :=
  squote ∉ item.keyName.text ∧ squote ∉ item.keyValue.text ∧ squote ∉ item.usedDatetime.text

instance (item : CounterItem) : Decidable (QuoteFree item) := by
  unfold QuoteFree
  infer_instance

/-! ## Statements as templates -/

theorem squote_not_mem_intText (z : ℤ) : squote ∉ intText z := not_mem_intText (by decide) rfl z

theorem CharArray.cstr_text {n : ℕ} (a : CharArray n) : cstr a.text = a.text :=
  cstr_of_zero_not_mem a.zero_not_mem

/-- The insert statement in front of its end `);`. -/
def insertFields (k : Int32) (t : Texts) : List (Bytes × Bytes) :=
  [(insertCode ++ intText k.toInt ++ ascii [','], t.keyName), (ascii [','], t.keyValue),
    (ascii [','], t.usedDatetime)]

def updateFields (k : Int32) (t : Texts) : List (Bytes × Bytes) :=
  [(setNameCode, t.keyName), (setValueCode, t.keyValue), (setDatetimeCode, t.usedDatetime),
    (whereCode, intText k.toInt)]

theorem selectText_eq (k : Int32) :
    selectText k = render squote [(selectCode, intText k.toInt)] [] := by
  rfl

theorem insertText_eq (item : CounterItem) : insertText item
    = render squote (insertFields item.keyId item.texts) (ascii [')', ';']) := by
  simp [insertText, insertFmt, sprintf, ascii, insertFields, insertCode, render, CounterItem.texts,
    CharArray.cstr_text]

theorem updateText_eq (item : CounterItem) : updateText item
    = render squote (updateFields item.keyId item.texts) [] := by
  simp [updateText, updateFmt, sprintf, ascii, updateFields, setNameCode, setValueCode,
    setDatetimeCode, whereCode, render, CounterItem.texts, CharArray.cstr_text]

theorem insertShape_eq (k : Int32) (t : Texts) :
    insertShape k t = shape (insertFields k t) (ascii [')', ';']) := rfl

theorem updateShape_eq (k : Int32) (t : Texts) : updateShape k t = shape (updateFields k t) [] := rfl

theorem isTemplate_insertFields (k : Int32) (t : Texts) :
    IsTemplate squote (insertFields k t) (ascii [')', ';']) := by
  refine ⟨?_, by decide⟩
  have hkey := squote_not_mem_intText k.toInt
  have hcode : squote ∉ insertCode := by decide +kernel
  simp [insertFields, ascii, hkey, hcode]

theorem isTemplate_updateFields (k : Int32) (t : Texts) :
    IsTemplate squote (updateFields k t) [] := by
  refine ⟨?_, List.not_mem_nil⟩
  simp only [updateFields, List.forall_mem_cons]
  decide

/-! ## What they say -/

theorem lex_selectText (k : Int32) : lex squote (selectText k) = some (selectShape k) := by
  rw [selectText_eq]
  refine (lex_render_iff ⟨?_, List.not_mem_nil⟩).2 ?_
  · simp only [List.forall_mem_cons]
    decide
  · simpa using squote_not_mem_intText k.toInt

/-- The insert statement says what the item is exactly when no field has a quote. -/
theorem lex_insertText_iff (item : CounterItem) :
    lex squote (insertText item) = some (insertShape item.keyId item.texts) ↔ QuoteFree item := by
  rw [insertText_eq, insertShape_eq, lex_render_iff (isTemplate_insertFields _ _)]
  simp [insertFields, QuoteFree, CounterItem.texts]

/-- So does the update statement. -/
theorem lex_updateText_iff (item : CounterItem) :
    lex squote (updateText item) = some (updateShape item.keyId item.texts) ↔ QuoteFree item := by
  rw [updateText_eq, updateShape_eq, lex_render_iff (isTemplate_updateFields _ _)]
  have hkey := squote_not_mem_intText item.keyId.toInt
  simp only [updateFields, List.forall_mem_cons, QuoteFree, CounterItem.texts, hkey]
  simp

/-! ## They fit -/

/-- An `int` has ten digits at most, and perhaps a sign. -/
theorem length_intText_toInt_le (k : Int32) : (intText k.toInt).length ≤ 11 := by
  have hmin := k.le_toInt
  have hmax := k.toInt_lt
  exact length_intText_le_succ (k := 10) (by decide) (by omega)

theorem length_insertText_lt (item : CounterItem) : (insertText item).length < MAX_SQL_LINE := by
  have hkey := length_intText_toInt_le item.keyId
  have hname := item.keyName.length_lt
  have hvalue := item.keyValue.length_lt
  have hdatetime := item.usedDatetime.length_lt
  have hcode : insertCode.length = 73 := rfl
  rw [insertText_eq]
  simp [insertFields, render, CounterItem.texts, ascii, MAX_SQL_LINE, hcode]
  omega

theorem length_updateText_lt (item : CounterItem) : (updateText item).length < MAX_SQL_LINE := by
  have hkey := length_intText_toInt_le item.keyId
  have hname := item.keyName.length_lt
  have hvalue := item.keyValue.length_lt
  have hdatetime := item.usedDatetime.length_lt
  have hset : setNameCode.length = 29 ∧ setValueCode.length = 14 ∧ setDatetimeCode.length = 18 ∧
      whereCode.length = 14 := ⟨rfl, rfl, rfl, rfl⟩
  rw [updateText_eq]
  simp [updateFields, render, CounterItem.texts, MAX_SQL_LINE, hset]
  omega

theorem length_selectText_lt (k : Int32) : (selectText k).length < MAX_SQL_LINE := by
  have hkey := length_intText_toInt_le k
  have hcode : selectCode.length = 37 := rfl
  rw [selectText_eq]
  simp [render, MAX_SQL_LINE, hcode]
  omega

theorem zero_not_mem_texts (item : CounterItem) : (0 : UInt8) ∉ item.keyName.text ∧
    (0 : UInt8) ∉ item.keyValue.text ∧ (0 : UInt8) ∉ item.usedDatetime.text :=
  ⟨item.keyName.zero_not_mem, item.keyValue.zero_not_mem, item.usedDatetime.zero_not_mem⟩

theorem zero_not_mem_insertText (item : CounterItem) : (0 : UInt8) ∉ insertText item := by
  have hzero := zero_not_mem_texts item
  have hcode : (0 : UInt8) ∉ insertCode := by decide +kernel
  rw [insertText_eq]
  simp [insertFields, render, CounterItem.texts, ascii, hzero, zero_not_mem_intText, hcode]

theorem zero_not_mem_updateText (item : CounterItem) : (0 : UInt8) ∉ updateText item := by
  have hzero := zero_not_mem_texts item
  have hset : (0 : UInt8) ∉ setNameCode ∧ (0 : UInt8) ∉ setValueCode ∧
      (0 : UInt8) ∉ setDatetimeCode ∧ (0 : UInt8) ∉ whereCode := by decide +kernel
  rw [updateText_eq]
  simp [updateFields, render, CounterItem.texts, hzero, zero_not_mem_intText, hset]

/-- Only the last byte of an insert statement can be a semicolon outside the literals. -/
theorem single_insertShape (k : Int32) (t : Texts) :
    (59 : UInt8) ∉ (codeOf (insertShape k t)).dropLast := by
  have hsemi : (59 : UInt8) ∉ intText k.toInt := not_mem_intText (by decide) rfl _
  have hcode : codeOf (insertShape k t)
      = (insertCode ++ intText k.toInt ++ ascii [',', ',', ',', ')']) ++ [59] := by
    simp [insertShape, codeOf, ascii]
  have hhead : (59 : UInt8) ∉ insertCode := by decide +kernel
  rw [hcode, List.dropLast_concat]
  simp [ascii, hsemi, hhead]

theorem single_updateShape (k : Int32) (t : Texts) :
    (59 : UInt8) ∉ (codeOf (updateShape k t)).dropLast := by
  simp [updateShape, codeOf, setNameCode, setValueCode, setDatetimeCode, whereCode, ascii]

/-- The insert statement is as it is meant exactly when no field has a quote; the rest holds anyway. -/
theorem says_insertText_iff (item : CounterItem) :
    Says (insertText item) (insertShape item.keyId item.texts) ↔ QuoteFree item := by
  rw [← lex_insertText_iff]
  refine ⟨Says.lex, fun h => ?_⟩
  exact ⟨length_insertText_lt item, zero_not_mem_insertText item, h, single_insertShape _ _⟩

theorem says_updateText_iff (item : CounterItem) :
    Says (updateText item) (updateShape item.keyId item.texts) ↔ QuoteFree item := by
  rw [← lex_updateText_iff]
  refine ⟨Says.lex, fun h => ?_⟩
  exact ⟨length_updateText_lt item, zero_not_mem_updateText item, h, single_updateShape _ _⟩

theorem carries_iff (item : CounterItem) : Carries item ↔ QuoteFree item := by
  rw [Carries, says_insertText_iff, says_updateText_iff, and_self]

end RedisCounter
