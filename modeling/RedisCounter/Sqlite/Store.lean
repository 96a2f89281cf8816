import Mathlib.Logic.Function.Basic
import RedisCounter.Sqlite.Statements

/-!
# Saving and selecting

With a library that executes the statements it is given, an item whose fields have no quote is selected
again as it was saved, as far as the columns give back the texts stored in them. Whatever the library does
with other statements, an item with a quote is not what it is asked to save.
-/

namespace RedisCounter

open Decimal Literal

/-! ## The library executes statements -/

/-- What the three columns give back for a text that was stored in them. A column of type `TEXT` gives
back the text; one of another type may make a number of a text that looks like one. -/
structure Columns where
  keyName : Bytes → Bytes
  keyValue : Bytes → Bytes
  usedDatetime : Bytes → Bytes

/-- The cells of a row behind its key; `none` is a `NULL`. -/
structure Row where
  keyName : Option Bytes
  keyValue : Option Bytes
  usedDatetime : Option Bytes
deriving DecidableEq

/-- The row the texts are stored as. -/
def Columns.stored (cols : Columns) (t : Texts) : Row :=
  ⟨some (cols.keyName t.keyName), some (cols.keyValue t.keyValue),
    some (cols.usedDatetime t.usedDatetime)⟩

/-- The columns give back the texts of the item. -/
def Columns.Keep (cols : Columns) (item : CounterItem) : Prop :=
  cstr (cols.keyName item.keyName.text) = item.keyName.text ∧
    cstr (cols.keyValue item.keyValue.text) = item.keyValue.text ∧
    cstr (cols.usedDatetime item.usedDatetime.text) = item.usedDatetime.text

/-- The result of selecting the key `k`: no row, or the one row of the key. -/
def SqlTable.Holds (t : SqlTable) (k : Int32) : Option Row → Prop
  | none => t.nRow = 0
  | some row => t.nRow = 1 ∧ ∃ names : List (Option Bytes), names.length = t.nCol ∧
      t.dbRet = names ++ [some (intText k.toInt), row.keyName, row.keyValue, row.usedDatetime]

/-- The library does what the statements say. The key is unique: a table has one row at most for it. -/
structure Executes {σ : Type} (lib : Sqlite σ) (table : σ → Int32 → Option Row) (cols : Columns) :
    Prop where
  select : ∀ db sql k, lex squote sql = some (selectShape k) →
    ∃ t, lib.getTable db sql = some t ∧ t.Holds k (table db k)
  insert : ∀ db sql k t, lex squote sql = some (insertShape k t) → table db k = none →
    ∃ db', lib.exec db sql = some db' ∧
      table db' = Function.update (table db) k (some (cols.stored t))
  update : ∀ db sql k t, lex squote sql = some (updateShape k t) → table db k ≠ none →
    ∃ db', lib.exec db sql = some db' ∧
      table db' = Function.update (table db) k (some (cols.stored t))

/-- Saving the item succeeds, and the item is selected afterwards. -/
def RoundTrip {σ : Type} (lib : Sqlite σ) (db : σ) (item : CounterItem) : Prop :=
  ∃ db', saveOne lib item db = .ok db' ∧ selectOne lib item.keyId db' = .ok item

theorem printSql_eq {out : Bytes} (hlen : out.length < MAX_SQL_LINE) (h0 : (0 : UInt8) ∉ out) :
    ∃ sql, printSql out = .ok sql ∧ cstr sql = out := by
  refine ⟨_, if_pos hlen, ?_⟩
  rw [memcpyAt, List.take_zero, List.nil_append, List.append_assoc, List.singleton_append,
    cstr_append_zero, cstr_of_zero_not_mem h0]

theorem Says.printSql {sql : Bytes} {ps : List (Piece UInt8)} (h : Says sql ps) :
    ∃ buf, printSql sql = .ok buf ∧ cstr buf = sql := printSql_eq h.fits h.zero_not_mem

theorem printSql_selectText (k : Int32) :
    ∃ buf, printSql (selectText k) = .ok buf ∧ cstr buf = selectText k := by
  refine printSql_eq (length_selectText_lt k) ?_
  rw [selectText_eq]
  simp [render, selectCode, ascii, zero_not_mem_intText]

theorem atoi_intText (k : Int32) : atoi (intText k.toInt) = k := by
  have hmin := k.le_toInt
  have hmax := k.toInt_lt
  rw [atoi, atol_intText (by unfold LONG_MIN; omega) (by unfold LONG_MAX; omega), Int32.ofInt_toInt]

theorem strcpy_eq_ok_iff {n : ℕ} {src : Bytes} {a : CharArray n} :
    strcpy n src = .ok a ↔ cstr src = a.text := by
  unfold strcpy
  split_ifs with hlen
  · constructor
    · intro h
      rw [← Except.ok.inj h]
    · intro h
      obtain ⟨t, h0, hlt⟩ := a
      subst h
      rfl
  · constructor
    · intro h
      cases h
    · intro h
      exact absurd (h ▸ a.length_lt) hlen

/-- An item is filled in when each of its strings fits. -/
theorem item_eq_ok_iff {k : Int32} {x y z : Except SqlFault (CharArray 32)} {item : CounterItem} :
    (do pure (CounterItem.mk k (← x) (← y) (← z))) = Except.ok item ↔
      item.keyId = k ∧ x = .ok item.keyName ∧ y = .ok item.keyValue ∧ z = .ok item.usedDatetime := by
  obtain ⟨k', n, v, d⟩ := item
  rcases x with _ | x
  · simp [bind, Except.bind]
  rcases y with _ | y
  · simp [bind, Except.bind]
  rcases z with _ | z
  · simp [bind, Except.bind]
  · simp [bind, Except.bind, pure, Except.pure, eq_comm]

section

variable {σ : Type} {lib : Sqlite σ} {table : σ → Int32 → Option Row} {cols : Columns}
  (h : Executes lib table cols)
include h

/-- The first select of `saveOne` tells which branch is taken; each leaves the stored texts in the row of
the key and no other row changed. -/
theorem saveOne_spec {item : CounterItem} (hq : QuoteFree item) (db : σ) :
    ∃ db', saveOne lib item db = .ok db' ∧
      table db' = Function.update (table db) item.keyId (some (cols.stored item.texts)) := by
  obtain ⟨sel, hsel, hseltext⟩ := printSql_selectText item.keyId
  obtain ⟨t, hget, hholds⟩ := h.select db _ _ (lex_selectText item.keyId)
  have hinsert := (says_insertText_iff item).2 hq
  have hupdate := (says_updateText_iff item).2 hq
  obtain ⟨ins, hins, hinstext⟩ := hinsert.printSql
  obtain ⟨upd, hupd, hupdtext⟩ := hupdate.printSql
  rcases hrow : table db item.keyId with _ | row
  · rw [hrow] at hholds
    have hnone : t.nRow = 0 := hholds
    obtain ⟨db', hexec, htable⟩ := h.insert db _ _ _ hinsert.lex hrow
    refine ⟨db', ?_, htable⟩
    simp [saveOne, hsel, hseltext, hget, hnone, hins, hinstext, hexec, bind, Except.bind, pure,
      Except.pure]
  · rw [hrow] at hholds
    have hone : t.nRow = 1 := hholds.1
    obtain ⟨db', hexec, htable⟩ := h.update db _ _ _ hupdate.lex (by simp [hrow])
    refine ⟨db', ?_, htable⟩
    simp [saveOne, hsel, hseltext, hget, hone, hupd, hupdtext, hexec, bind, Except.bind, pure,
      Except.pure]

/-- A row without `NULL` is copied into the item. -/
theorem selectOne_spec {k : Int32} {db : σ} {a b c : Bytes}
    (hrow : table db k = some ⟨some a, some b, some c⟩) (item : CounterItem) :
    selectOne lib k db = .ok item ↔ item.keyId = k ∧ cstr a = item.keyName.text ∧
      cstr b = item.keyValue.text ∧ cstr c = item.usedDatetime.text := by
  obtain ⟨sel, hsel, hseltext⟩ := printSql_selectText k
  obtain ⟨t, hget, hholds⟩ := h.select db _ _ (lex_selectText k)
  rw [hrow] at hholds
  obtain ⟨hone, names, hnames, hdbRet⟩ := hholds
  -- the cells behind the column names
  have hcell : ∀ (i : ℕ) (p : Bytes),
      [some (intText k.toInt), some a, some b, some c][i]? = some (some p) →
      t.cell (t.nCol + i) = .ok p := by
    intro i p hp
    rw [SqlTable.cell, hdbRet, ← hnames, List.getElem?_append_right (by omega), Nat.add_sub_cancel_left,
      hp]
    rfl
  have hkey := hcell 0 _ rfl
  rw [Nat.add_zero] at hkey
  have hrun : selectOne lib k db = (do
      pure ⟨k, ← strcpy 32 a, ← strcpy 32 b, ← strcpy 32 c⟩) := by
    simp [selectOne, hsel, hseltext, hget, hone, hkey, hcell 1 a rfl, hcell 2 b rfl, hcell 3 c rfl, bind,
      Except.bind, pure, Except.pure, atoi_intText]
  rw [hrun, ← strcpy_eq_ok_iff, ← strcpy_eq_ok_iff, ← strcpy_eq_ok_iff]
  exact item_eq_ok_iff

theorem roundTrip_iff {item : CounterItem} (hq : QuoteFree item) (db : σ) :
    RoundTrip lib db item ↔ cols.Keep item := by
  obtain ⟨db', hsave, htable⟩ := saveOne_spec h hq db
  have hrow : table db' item.keyId = some (cols.stored item.texts) := by
    rw [htable, Function.update_self]
  have hselect := selectOne_spec h hrow item
  constructor
  · rintro ⟨db'', hsave', hsel⟩
    obtain rfl : db' = db'' := Except.ok.inj (hsave.symm.trans hsave')
    exact (hselect.1 hsel).2
  · intro hkeep
    exact ⟨db', hsave, hselect.2 ⟨rfl, hkeep⟩⟩

end

/-! ## Runs of saves -/

/-- The rows after some items have been saved. -/
def rowsAfter (cols : Columns) (rows : Int32 → Option Row) (items : List CounterItem) :
    Int32 → Option Row :=
  items.foldl (fun rows item => Function.update rows item.keyId (some (cols.stored item.texts))) rows

/-- A key that no later item has keeps its row. -/
theorem rowsAfter_of_ne {cols : Columns} {k : Int32} {items : List CounterItem}
    (hne : ∀ item ∈ items, item.keyId ≠ k) (rows : Int32 → Option Row) :
    rowsAfter cols rows items k = rows k := by
  induction items generalizing rows with
  | nil => rfl
  | cons item items ih =>
    obtain ⟨hitem, hitems⟩ := List.forall_mem_cons.1 hne
    have hrest := ih hitems (Function.update rows item.keyId (some (cols.stored item.texts)))
    rw [Function.update_of_ne hitem.symm] at hrest
    exact hrest

/-- Saving one item after the other. -/
def saveAll {σ : Type} (lib : Sqlite σ) (items : List CounterItem) (db : σ) : Except SqlFault σ :=
  items.foldlM (fun db item => saveOne lib item db) db

section

variable {σ : Type} {lib : Sqlite σ} {table : σ → Int32 → Option Row} {cols : Columns}
  (h : Executes lib table cols)
include h

/-- A run of saves without quotes never fails, and leaves the rows of its items. -/
theorem saveAll_spec {items : List CounterItem} (hq : ∀ item ∈ items, QuoteFree item) (db : σ) :
    ∃ db', saveAll lib items db = .ok db' ∧ table db' = rowsAfter cols (table db) items := by
  induction items generalizing db with
  | nil => exact ⟨db, rfl, rfl⟩
  | cons item items ih =>
    obtain ⟨hitem, hitems⟩ := List.forall_mem_cons.1 hq
    obtain ⟨db₁, hsave, htable₁⟩ := saveOne_spec h hitem db
    obtain ⟨db', hrun, htable⟩ := ih hitems db₁
    refine ⟨db', ?_, ?_⟩
    · rw [saveAll, List.foldlM_cons, hsave]
      exact hrun
    · rw [htable, htable₁]
      rfl

/-- After any such run a key is selected as the item last saved under it. -/
theorem selectOne_saveAll {before after : List CounterItem} {item : CounterItem}
    (hq : ∀ i ∈ before ++ item :: after, QuoteFree i) (hlast : ∀ i ∈ after, i.keyId ≠ item.keyId)
    (hkeep : cols.Keep item) (db : σ) :
    ∃ db', saveAll lib (before ++ item :: after) db = .ok db' ∧
      selectOne lib item.keyId db' = .ok item := by
  obtain ⟨db', hrun, htable⟩ := saveAll_spec h hq db
  have hrow : table db' item.keyId = some (cols.stored item.texts) := by
    rw [htable, rowsAfter, List.foldl_append, List.foldl_cons]
    refine (rowsAfter_of_ne hlast _).trans ?_
    rw [Function.update_self]
  exact ⟨db', hrun, (selectOne_spec h hrow item).2 ⟨rfl, hkeep⟩⟩

end

/-! ## Which items come back -/

/-- For every item, in both branches and with every such library: both statements fit, and say what the
item is, exactly when no field has a quote; and the item is also selected again as it was saved exactly
when, besides, the columns give back its texts. -/
theorem saveOne_carries_iff {σ : Type} {lib : Sqlite σ} {table : σ → Int32 → Option Row}
    {cols : Columns} (h : Executes lib table cols) (db : σ) (item : CounterItem) :
    (Carries item ↔ QuoteFree item) ∧
      (Carries item ∧ RoundTrip lib db item ↔ QuoteFree item ∧ cols.Keep item) := by
  refine ⟨carries_iff item, ?_⟩
  rw [carries_iff]
  constructor
  · rintro ⟨hq, htrip⟩
    exact ⟨hq, (roundTrip_iff h hq db).1 htrip⟩
  · rintro ⟨hq, hkeep⟩
    exact ⟨hq, (roundTrip_iff h hq db).2 hkeep⟩

/-! ## A table of texts -/

/-- The key a select statement asks for. -/
def readSelect : List (Piece UInt8) → Option Int32
  | [.code _, .literal key] => some (atoi key)
  | _ => none

/-- The key and the texts of an insert statement. -/
def readInsert : List (Piece UInt8) → Option (Int32 × Texts)
  | [.code u, .literal n, .code _, .literal v, .code _, .literal d, .code _] =>
    some (atoi (u.dropLast.drop insertCode.length), ⟨n, v, d⟩)
  | _ => none

/-- The key and the texts of an update statement. -/
def readUpdate : List (Piece UInt8) → Option (Int32 × Texts)
  | [.code _, .literal n, .code _, .literal v, .code _, .literal d, .code _, .literal key] =>
    some (atoi key, ⟨n, v, d⟩)
  | _ => none

def textColumns : Columns := ⟨id, id, id⟩

/-- The result with the row of the key `k`. -/
def resultOf (k : Int32) : Option Row → SqlTable
  | none => ⟨0, 0, []⟩
  | some row => ⟨1, 4, [some (ascii ['k', 'e', 'y', '_', 'i',
    'd']), some (ascii ['k', 'e', 'y', '_', 'n', 'a', 'm', 'e']),
      some (ascii ['k', 'e', 'y', '_', 'v', 'a', 'l', 'u',
        'e']), some (ascii ['u', 's', 'e', 'd', '_', 'd', 'a', 't', 'e', 't', 'i', 'm', 'e'])] ++
      [some (intText k.toInt), row.keyName, row.keyValue, row.usedDatetime]⟩

/-- A library whose database is the table, with columns of type `TEXT`. It takes the statements of the
three shapes. -/
def textTable : Sqlite (Int32 → Option Row) where
  getTable db sql := do
    let ps ← lex squote sql
    let k ← readSelect ps
    if ps = selectShape k then some (resultOf k (db k)) else none
  exec db sql := do
    let ps ← lex squote sql
    match readInsert ps, readUpdate ps with
    | some (k, t), _ =>
      if ps = insertShape k t ∧ db k = none then
        some (Function.update db k (some (textColumns.stored t)))
      else none
    | none, some (k, t) =>
      if ps = updateShape k t then
        some (if db k = none then db else Function.update db k (some (textColumns.stored t)))
      else none
    | none, none => none

theorem readInsert_insertShape (k : Int32) (t : Texts) : readInsert (insertShape k t) = some (k, t) := by
  have hkey : ((insertCode ++ intText k.toInt ++ ascii [',']).dropLast).drop insertCode.length
      = intText k.toInt := by
    have hcomma : ascii [','] = [44] := rfl
    rw [hcomma, List.dropLast_concat, List.drop_left]
  rw [insertShape, readInsert, hkey, atoi_intText]

theorem readUpdate_updateShape (k : Int32) (t : Texts) : readUpdate (updateShape k t) = some (k, t) := by
  rw [updateShape, readUpdate, atoi_intText]

theorem holds_resultOf (k : Int32) (row : Option Row) : (resultOf k row).Holds k row := by
  cases row with
  | none => rfl
  | some row => exact ⟨rfl, _, rfl, rfl⟩

theorem executes_textTable : Executes textTable id textColumns where
  select db sql k hlex := by
    have hread : readSelect (selectShape k) = some k := congrArg some (atoi_intText k)
    refine ⟨resultOf k (db k), ?_, holds_resultOf k (db k)⟩
    simp [textTable, hlex, hread]
  insert db sql k t hlex hnone := by
    have hfree : db k = none := hnone
    refine ⟨Function.update db k (some (textColumns.stored t)), ?_, rfl⟩
    simp only [textTable, hlex, readInsert_insertShape, hfree, Option.bind_eq_bind, Option.bind_some]
    simp
  update db sql k t hlex hsome := by
    have hrow : db k ≠ none := hsome
    have hnot : readInsert (updateShape k t) = none := rfl
    refine ⟨Function.update db k (some (textColumns.stored t)), ?_, rfl⟩
    simp only [textTable, hlex, hnot, readUpdate_updateShape, Option.bind_eq_bind, Option.bind_some]
    rw [if_pos trivial, if_neg hrow]

/-! ## Two items -/

/-- An item without quotes. -/
def donkey : CounterItem where
  keyId := 2
  keyName := ⟨ascii ['t', 'w', 'o'], by decide, by decide⟩
  keyValue := ⟨ascii ['d', 'o', 'n', 'k', 'e', 'y'], by decide, by decide⟩
  usedDatetime := ⟨ascii ['2', '0', '1', '9', '-', '0', '2', '-', '1', '5', ' ', '0', '0', ':',
    '1', '5', ':', '5', '2'], by decide, by decide⟩

/-- It is carried and comes back, from a table without rows. -/
theorem saveOne_carries_donkey : Carries donkey ∧ RoundTrip textTable (fun _ => none) donkey :=
  (saveOne_carries_iff executes_textTable (fun _ => none) donkey).2.2
    ⟨by decide +kernel, by decide +kernel, by decide +kernel, by decide +kernel⟩

/-- It is saved over another item of its key, and an item of another key is saved behind it. -/
theorem selectOne_saveAll_donkey :
    ∃ db', saveAll textTable [{ donkey with keyValue := donkey.keyName }, donkey, { donkey with keyId := 3 }]
        (fun _ => none) = .ok db' ∧ selectOne textTable 2 db' = .ok donkey := by
  have hq : ∀ i ∈ [{ donkey with keyValue := donkey.keyName }] ++ donkey :: [{ donkey with keyId := 3 }],
      QuoteFree i := by
    decide +kernel
  exact selectOne_saveAll executes_textTable hq (by decide +kernel)
    ⟨by decide +kernel, by decide +kernel, by decide +kernel⟩ _

/-- An item with an apostrophe in its name. -/
def oneil : CounterItem where
  keyId := 2
  keyName := ⟨ascii ['O', '\'', 'N', 'e', 'i', 'l'], by decide, by decide⟩
  keyValue := ⟨ascii ['d', 'o', 'n', 'k', 'e', 'y'], by decide, by decide⟩
  usedDatetime := ⟨ascii ['2', '0', '1', '9', '-', '0', '2', '-', '1', '5', ' ', '0', '0', ':',
    '1', '5', ':', '5', '2'], by decide, by decide⟩

/-- Neither statement says what it is: the last literal of each has no end. Saved into a table without
rows, it ends the process. -/
theorem oneil_not_carried :
    ¬ Carries oneil ∧ lex squote (insertText oneil) = none ∧ lex squote (updateText oneil) = none ∧
      saveOne textTable oneil (fun _ => none) = .error (.errExit (ascii ['i', 'n', 's', 'e', 'r',
        't', ' ', 'e', 'r', 'r', 'o', 'r'])) := by
  have hinsert : lex squote (insertText oneil) = none := by decide +kernel
  have hupdate : lex squote (updateText oneil) = none := by decide +kernel
  refine ⟨fun h => ?_, hinsert, hupdate, ?_⟩
  · have hlex := h.1.lex
    rw [hinsert] at hlex
    cases hlex
  · obtain ⟨sel, hsel, hseltext⟩ := printSql_selectText oneil.keyId
    obtain ⟨t, hget, hholds⟩ :=
      executes_textTable.select (fun _ => none) _ _ (lex_selectText oneil.keyId)
    have hnone : t.nRow = 0 := hholds
    obtain ⟨ins, hins, hinstext⟩ :=
      printSql_eq (length_insertText_lt oneil) (zero_not_mem_insertText oneil)
    have hexec : textTable.exec (fun _ => none) (insertText oneil) = none := by
      simp [textTable, hinsert]
    simp [saveOne, hsel, hseltext, hget, hnone, hins, hinstext, hexec, bind, Except.bind, throw,
      throwThe, MonadExceptOf.throw]

/-- Two quotes in a row are taken for one, without an error. -/
example : lex squote (insertText { oneil with
    keyName := ⟨ascii ['O', '\'', '\'', 'N', 'e', 'i', 'l'], by decide, by decide⟩ })
      = some (insertShape 2 { oneil.texts with keyName := ascii ['O', '\'', 'N', 'e', 'i',
        'l'] }) := by
  decide +kernel

end RedisCounter
