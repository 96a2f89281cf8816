import RedisCounter.Db.Basic
import RedisCounter.Sds.SplitArgs

/-!
# One request

`commandServer` splits the request on blanks, takes the tokens at the positions 2, 4 and 6 for the
action, the key and the value, and dispatches on the action. The three variables start unassigned,
and reading one that no token was assigned to is a fault. The strings appended to `outbuf` go where
its pointer points; the pointers `sdscpy` and `sdscatlen` return are dropped, so a call that moves
`outbuf` is a fault too (a block that is reallocated counts as moved).
-/

namespace RedisCounter

/-- The capacity of `inbuf` and of the server's `outbuf`. -/
def MAX_LINE : ℕ := 2048

/-- The variables the parsing loop assigns. -/
structure Slots where
  /-- `action`, a pointer to an sds once it is assigned. -/
  action : Option Sds
  /-- `cKey->ptr`. -/
  key : VoidPtr
  /-- `cVal->ptr`. -/
  val : VoidPtr
deriving DecidableEq

/-- One turn of the parsing loop. -/
def assignSlot (argv : List Sds) (slots : Slots) (index : ℕ) : Slots :=
  match argv[index]? with
  | none => slots
  | some arg =>
    if index = 2 then { slots with action := some (sdsnew arg.buf) }
    else if index = 4 then { slots with key := .sds arg 0 }
    else if index = 6 then { slots with val := .sds arg 0 }
    else slots

/-- `for (int index = 2; index < argc; index+=2)`. -/
def parseSlots (argv : List Sds) : Slots :=
  (List.range' 2 ((argv.length - 1) / 2) 2).foldl (assignSlot argv) ⟨none, .unassigned, .unassigned⟩

/-- `sdscpy(outbuf, t); sdscatlen(outbuf,"\n",1);`, with the pointers they return dropped. -/
def reply (outbuf : Sds) (t : Bytes) : Except Fault Sds :=
  let copied := sdscpy outbuf t
  let ended := sdscatlen copied [lf]
  if copied.block = outbuf.block ∧ ended.block = copied.block then pure ended
  else throw .outbufMoved

/-- The strings the code compares the action with, and the fixed replies. -/
def GET : Bytes := ascii ['g', 'e', 't']
def SET : Bytes := ascii ['s', 'e', 't']
def INCR : Bytes := ascii ['i', 'n', 'c', 'r']
def DECR : Bytes := ascii ['d', 'e', 'c', 'r']
def OK : Bytes := ascii ['o', 'k']
def MISSING : Bytes := ascii ['m', 'i', 's', 's', 'i', 'n', 'g', ' ', 'k', 'e', 'y']

/-- `sdscmp(action, sdsnew(name)) == 0`. -/
def isAction (action : Sds) (name : Bytes) : Bool := sdscmp action (sdsnew name) == 0

/-- The branch for `get`. -/
def getCommand (hash : Bytes → UInt64) (db : RedisDb) (cKey : Robj) (outbuf : Sds) :
    Except Fault (RedisDb × Sds) := do
  let key ← dictKey (sdsnew (← cstrAt cKey.ptr))
  let (dict, ret) ← dictFetchValue (dbDictType hash) db.dict key
  match ret with
  | none => pure ({ db with dict }, ← reply outbuf MISSING)
  | some ret => pure ({ db with dict }, ← reply outbuf (← cstrAt ret.ptr))

/-- The dispatch on the action. -/
def dispatch (hash : Bytes → UInt64) (db : RedisDb) (slots : Slots) (cKey cVal : ℕ) (outbuf : Sds) :
    Except Fault (RedisDb × Sds) := do
  match slots.action with
  | none => throw .unassigned
  | some action =>
    let cKey : Robj := ⟨cKey, slots.key⟩
    let cVal : Robj := ⟨cVal, slots.val⟩
    if isAction action GET then getCommand hash db cKey outbuf
    else if isAction action SET then
      pure (← setKey hash db cKey cVal, ← reply outbuf OK)
    else if isAction action INCR then
      pure (← incrKey hash db cKey, ← reply outbuf OK)
    else if isAction action DECR then
      pure (← decrKey hash db cKey, ← reply outbuf OK)
    else pure (db, outbuf)

/-- `commandServer(db, inbuf, outbuf)`; `argc` is 0 when `sdssplitargs` returns `NULL`. -/
def commandServer (hash : Bytes → UInt64) (db : RedisDb) (inbuf : Bytes) (outbuf : Sds) :
    Except Fault (RedisDb × Sds) :=
  let argv := (sdssplitargs inbuf).getD []
  let (db, cKey) := newObject db
  let (db, cVal) := newObject db
  dispatch hash db (parseSlots argv) cKey cVal outbuf

/-! ## The slots are the tokens at 2, 4 and 6 -/

/-- The pointer a token's slot holds. -/
def slotPtr : Option Sds → VoidPtr
  | none => .unassigned
  | some arg => .sds arg 0

/-- The turns from position 8 on assign nothing. -/
theorem foldl_assignSlot_of_le (argv : List Sds) (n start : ℕ) (h : 8 ≤ start) (slots : Slots) :
    (List.range' start n 2).foldl (assignSlot argv) slots = slots := by
  induction n generalizing start with
  | zero => rfl
  | succ n ih =>
    have hstep : assignSlot argv slots start = slots := by
      unfold assignSlot
      split
      · rfl
      · rw [if_neg (by omega), if_neg (by omega), if_neg (by omega)]
    rw [List.range'_succ, List.foldl_cons, hstep, ih (start + 2) (by omega)]

theorem parseSlots_eq (argv : List Sds) :
    parseSlots argv
      = ⟨argv[2]?.map fun arg => sdsnew arg.buf, slotPtr argv[4]?, slotPtr argv[6]?⟩ := by
  have hnone : ∀ i, argv.length ≤ i → argv[i]? = none := fun i hi => List.getElem?_eq_none hi
  have hsome : ∀ i, i < argv.length → ∃ arg, argv[i]? = some arg := fun i hi =>
    ⟨_, List.getElem?_eq_getElem hi⟩
  unfold parseSlots
  -- the loop makes one turn for every even position from 2 on
  rcases hn : (argv.length - 1) / 2 with _ | _ | _ | n
  · rw [hnone 2 (by omega), hnone 4 (by omega), hnone 6 (by omega)]
    rfl
  · obtain ⟨a, ha⟩ := hsome 2 (by omega)
    rw [hnone 4 (by omega), hnone 6 (by omega)]
    simp [List.range'_succ, assignSlot, ha, slotPtr]
  · obtain ⟨a, ha⟩ := hsome 2 (by omega)
    obtain ⟨b, hb⟩ := hsome 4 (by omega)
    rw [hnone 6 (by omega)]
    simp [List.range'_succ, assignSlot, ha, hb, slotPtr]
  · obtain ⟨a, ha⟩ := hsome 2 (by omega)
    obtain ⟨b, hb⟩ := hsome 4 (by omega)
    obtain ⟨c, hc⟩ := hsome 6 (by omega)
    rw [List.range'_succ, List.range'_succ, List.range'_succ, List.foldl_cons, List.foldl_cons,
      List.foldl_cons, foldl_assignSlot_of_le argv n _ (by omega)]
    simp [assignSlot, ha, hb, hc, slotPtr]

/-- The action compares equal to a name exactly when its token is that name up to its first NUL. -/
theorem isAction_sdsnew {p name : Bytes} (h : (0 : UInt8) ∉ name) :
    isAction (sdsnew p) name = true ↔ cstr p = name := by
  rw [isAction, beq_iff_eq, sdscmp_eq_zero_iff (wf_sdsnew p) (wf_sdsnew name), content_sdsnew,
    content_sdsnew, cstr_of_zero_not_mem h]

/-! ## The reply -/

/-- An sds that can hold replies: its header keeps an allocation size. -/
structure Outbuf (cap : ℕ) (outbuf : Sds) : Prop where
  wf : outbuf.Wf
  type : outbuf.type ≠ .type5
  alloc : outbuf.alloc = cap

/-- A new sds of some size is one; `main` makes its `outbuf` so, of `MAX_LINE` bytes. -/
theorem outbuf_sdsnewlen {init : Bytes} {n : ℕ} (h : n ≤ init.length) (hn : 2 ^ 5 ≤ n) :
    Outbuf n (sdsnewlen init n) := by
  have h5 : sdsReqType n ≠ .type5 := by
    unfold sdsReqType
    split_ifs
    · omega
    all_goals simp
  have htype : (sdsnewlen init n).type ≠ .type5 := by
    simp only [sdsnewlen, h5, false_and, if_false]
    exact h5
  exact ⟨wf_sdsnewlen h, htype, (sdsalloc_of_ne_type5 htype).symm.trans (sdsnewlen_alloc init n)⟩

/-- The room behind the content. -/
theorem Outbuf.sdsavail_eq {cap : ℕ} {outbuf : Sds} (h : Outbuf cap outbuf) :
    sdsavail outbuf = cap - outbuf.content.length := by
  rw [sdsavail_of_ne_type5 h.type, h.alloc, h.wf.content_length]

/-- A copy that fits replaces the content where it is. -/
theorem Outbuf.copied {cap : ℕ} {outbuf : Sds} (h : Outbuf cap outbuf) {t : Bytes}
    (hle : (cstr t).length ≤ sdsalloc outbuf) :
    Outbuf cap (sdscpy outbuf t) ∧ (sdscpy outbuf t).block = outbuf.block ∧
      (sdscpy outbuf t).content = cstr t := by
  obtain ⟨htype, halloc, hblock⟩ := sdscpylen_of_le hle
  obtain ⟨hwf, hcontent⟩ := h.wf.sdscpylen_spec (cstr t)
  refine ⟨⟨hwf, ?_, halloc.trans h.alloc⟩, hblock, hcontent⟩
  rw [sdscpy, htype]
  exact h.type

/-- A reply that fits with its newline replaces the content where it is. -/
theorem Outbuf.reply_of_lt {cap : ℕ} {outbuf : Sds} (h : Outbuf cap outbuf) {t : Bytes}
    (hfit : (cstr t).length < cap) :
    ∃ outbuf', reply outbuf t = .ok outbuf' ∧ Outbuf cap outbuf' ∧
      outbuf'.content = cstr t ++ [lf] := by
  have hcap : sdsalloc outbuf = cap := (sdsalloc_of_ne_type5 h.type).trans h.alloc
  obtain ⟨ho, hblock, hcontent⟩ := h.copied (t := t) (by omega)
  have havail : [lf].length ≤ sdsavail (sdscpy outbuf t) := by
    rw [ho.sdsavail_eq, hcontent, List.length_singleton]
    omega
  obtain ⟨htype', halloc'⟩ := sdscatlen_of_le havail
  refine ⟨sdscatlen (sdscpy outbuf t) [lf], ?_, ⟨ho.wf.wf_sdscatlen _, ?_, ?_⟩, ?_⟩
  · exact if_pos ⟨hblock, (sdscatlen_block (sdscpy outbuf t) [lf]).2 havail⟩
  · rw [htype']
    exact ho.type
  · exact halloc'.trans ho.alloc
  · rw [ho.wf.content_sdscatlen, hcontent]

/-- A reply that does not fit moves the buffer. -/
theorem Outbuf.reply_of_le {cap : ℕ} {outbuf : Sds} (h : Outbuf cap outbuf) {t : Bytes}
    (hfit : cap ≤ (cstr t).length) : reply outbuf t = .error .outbufMoved := by
  have hcap : sdsalloc outbuf = cap := (sdsalloc_of_ne_type5 h.type).trans h.alloc
  apply if_neg
  intro hstay
  by_cases hle : (cstr t).length ≤ sdsalloc outbuf
  · -- the copy fits exactly, and the newline is one byte too many
    obtain ⟨ho, -, hcontent⟩ := h.copied hle
    have havail := (sdscatlen_block (sdscpy outbuf t) [lf]).1 hstay.2
    rw [ho.sdsavail_eq, hcontent, List.length_singleton] at havail
    omega
  · exact hle ((sdscpylen_block h.wf (cstr t)).1 hstay.1)

end RedisCounter
