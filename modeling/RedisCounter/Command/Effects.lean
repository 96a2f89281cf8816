import RedisCounter.Command.Request
import RedisCounter.Db.Keyspace
import RedisCounter.Lib.Run

/-!
# What one request does

The keyspace is read through C strings: `get` copies the value up to its NUL and `incr` parses it,
so what matters of a value object is the C string at its pointer (`RedisDb.Reads`). Against that
view, `get`, `set` and `incr` each have one specification, for a request whose tokens are known.
-/

namespace RedisCounter

open Decimal Run

variable {hash : Bytes → UInt64}

/-! ## Reading through a value's pointer -/

theorem length_littleEndian (n v : ℕ) : (littleEndian n v).length = n := by
  induction n generalizing v with
  | zero => rfl
  | succ n ih => rw [littleEndian, List.length_cons, ih]

theorem length_sdsHeader (s : Sds) : (sdsHeader s).length = s.type.hdrSize := by
  rcases s with ⟨type, len, alloc, buf, block⟩
  cases type <;> simp [sdsHeader, SdsType.hdrSize, length_littleEndian]

/-- At the first character of an sds the C string of its characters is read. -/
theorem cstrAt_sds_zero {s : Sds} (h : (0 : UInt8) ∈ s.buf) : cstrAt (.sds s 0) = .ok (cstr s.buf) := by
  have hdrop : (sdsHeader s ++ s.buf).drop (s.type.hdrSize - 0) = s.buf := by
    rw [Nat.sub_zero, ← length_sdsHeader, List.drop_left]
  unfold cstrAt
  dsimp only
  rw [hdrop, if_pos ⟨Nat.zero_le _, h⟩]
  rfl

theorem Sds.Wf.zero_mem {s : Sds} (h : s.Wf) : (0 : UInt8) ∈ s.buf := List.mem_of_getElem? h.term

theorem Sds.Wf.cstrAt {s : Sds} (h : s.Wf) : cstrAt (.sds s 0) = .ok (cstr s.content) := by
  rw [cstrAt_sds_zero h.zero_mem, h.cstr_buf]

/-- What is read through a pointer has no NUL. -/
theorem cstr_of_cstrAt {ptr : VoidPtr} {t : Bytes} (h : cstrAt ptr = .ok t) : cstr t = t := by
  apply cstr_of_zero_not_mem
  cases ptr with
  | unassigned => cases h
  | null => cases h
  | sds s back =>
    unfold cstrAt at h
    dsimp only at h
    split_ifs at h
    · rw [← Except.ok.inj h]
      exact zero_not_mem_cstr _

/-- A counter reads as its decimal text. -/
theorem cstrAt_counterSds {z : ℤ} (hmin : LONG_MIN ≤ z) (hmax : z ≤ LONG_MAX) :
    cstrAt (.sds (counterSds z) 0) = .ok (intText z) := by
  have hbuf : (counterSds z).buf
      = intText z ++ 0 :: (sdsnew []).buf.drop ((intText z).length + 1) := by
    rw [counterSds]
    dsimp only
    rw [sdsll2str_spec _ hmin hmax]
  have hmem : (0 : UInt8) ∈ (counterSds z).buf := by
    rw [hbuf]
    simp
  rw [cstrAt_sds_zero hmem, hbuf, cstr_intText_append]

theorem wrapLong_of_mem {z : ℤ} (hmin : LONG_MIN ≤ z) (hmax : z ≤ LONG_MAX) : wrapLong z = z := by
  unfold LONG_MIN at hmin
  unfold LONG_MAX at hmax
  exact Int.bmod_eq_of_le (by omega) (by omega)

/-! ## The keyspace as C strings -/

/-- Every value object can be read, and `m` says what is read. -/
def RedisDb.Reads (db : RedisDb) (m : Key → Option Bytes) : Prop :=
  ∀ k, (db.get k).map (fun o => cstrAt o.ptr) = (m k).map Except.ok

theorem reads_createDb : createDb.Reads fun _ => none := fun _ => rfl

namespace RedisDb.Reads

variable {db db' : RedisDb} {m : Key → Option Bytes} {k : Key} {o : Robj} {t : Bytes}

theorem same (h : db.Reads m) (hs : Same hash db db') : db'.Reads m := by
  intro k
  rw [hs.get]
  exact h k

theorem bound (h : db.Reads m) (hb : Bound hash db k o db') (ho : cstrAt o.ptr = .ok t) :
    db'.Reads (Function.update m k (some t)) := by
  intro k'
  rw [hb.get]
  rcases eq_or_ne k' k with rfl | hne
  · rw [Function.update_self, Function.update_self, Option.map_some, ho, Option.map_some]
  · rw [Function.update_of_ne hne, Function.update_of_ne hne]
    exact h k'

theorem get_eq_none (h : db.Reads m) (hk : m k = none) : db.get k = none := by
  have := h k
  rw [hk] at this
  exact Option.map_eq_none_iff.1 this

theorem get_eq_some (h : db.Reads m) (hk : m k = some t) :
    ∃ o, db.get k = some o ∧ cstrAt o.ptr = .ok t := by
  have := h k
  rw [hk] at this
  exact Option.map_eq_some_iff.1 this

/-- The pointer `incr` stores. -/
theorem incrPtr_eq (h : db.Reads m) (k : Key) :
    incrPtr (db.get k)
      = .ok (.sds (counterSds ((m k).elim 1 fun t => wrapLong (atol t + 1))) 0) := by
  rcases hk : m k with _ | t
  · rw [h.get_eq_none hk]
    rfl
  · obtain ⟨o, ho, ht⟩ := h.get_eq_some hk
    rw [ho]
    simp only [incrPtr, ht]
    rfl

end RedisDb.Reads

/-- What `get` copies into `outbuf`. -/
def found (o : Option Robj) : Except Fault Bytes :=
  match o with
  | none => pure MISSING
  | some o => cstrAt o.ptr

theorem RedisDb.Reads.found_eq {db : RedisDb} {m : Key → Option Bytes} (h : db.Reads m) (k : Key) :
    found (db.get k) = .ok ((m k).getD MISSING) := by
  rcases hk : m k with _ | t
  · rw [h.get_eq_none hk]
    rfl
  · obtain ⟨o, ho, ht⟩ := h.get_eq_some hk
    rw [ho]
    exact ht

/-- What `get` copies has no NUL. -/
theorem cstr_of_found {o : Option Robj} {t : Bytes} (h : found o = .ok t) : cstr t = t := by
  cases o with
  | none =>
    rw [← Except.ok.inj h]
    decide
  | some o => exact cstr_of_cstrAt h

/-! ## The three commands -/

section Commands

variable {db : RedisDb} {m : Key → Option Bytes} {k : Key} {cKey : Robj} {cap : ℕ} {outbuf : Sds}

/-- `get` replies the value of the key's C string, and binds nothing. -/
theorem getCommand_spec (h : db.Inv hash) {d t : Bytes} (hkey : cstrAt cKey.ptr = .ok d)
    (hk : k.1 = d) (ht : found (db.get k) = .ok t) (ho : Outbuf cap outbuf) (hfit : t.length < cap) :
    ∃ db' outbuf', getCommand hash db cKey outbuf = .ok (db', outbuf') ∧
      RedisDb.Same hash db db' ∧ Outbuf cap outbuf' ∧ outbuf'.content = t ++ [lf] := by
  have hdict : dictKey (sdsnew d) = .ok k := by
    apply dictKey_of_content
    rw [content_sdsnew, cstr_of_cstrAt hkey, hk]
  have hct : cstr t = t := cstr_of_found ht
  obtain ⟨d', hfetch, hsame⟩ := h.dictFetchValue_spec k
  obtain ⟨outbuf', hreply, ho', hcontent⟩ := ho.reply_of_lt (t := t) (by rwa [hct])
  rw [hct] at hcontent
  refine ⟨{ db with dict := d' }, outbuf', ?_, hsame, ho', hcontent⟩
  rcases hget : db.get k with _ | o
  · rw [hget] at hfetch ht
    rw [← Except.ok.inj ht] at hreply
    simp only [getCommand, hkey, hdict, hfetch, hreply, bind, Except.bind, pure, Except.pure]
  · rw [hget] at hfetch ht
    have hread : cstrAt o.ptr = .ok t := ht
    simp only [getCommand, hkey, hdict, hfetch, hread, hreply, bind, Except.bind, pure, Except.pure]

/-- `set` binds the key to the C string of the value. -/
theorem setCommand_spec (h : db.Inv hash) (hm : db.Reads m) (hk : HoldsKey cKey k) {cVal : Robj}
    (hval : cVal.id < db.objs) {t : Bytes} (ht : cstrAt cVal.ptr = .ok t) :
    ∃ db', setKey hash db cKey cVal = .ok db' ∧ db'.Inv hash ∧
      db'.Reads (Function.update m k (some t)) := by
  obtain ⟨db', hset, hb⟩ := h.setKey_spec hk hval
  exact ⟨db', hset, hb.inv, hm.bound hb ht⟩

/-- The text a counter is incremented to. -/
def incrText (found : Option Bytes) : Bytes :=
  intText (found.elim 1 fun t => wrapLong (atol t + 1))

/-- `incr` binds the key to the text of the next counter. -/
theorem incrCommand_spec (h : db.Inv hash) (hm : db.Reads m) (hk : HoldsKey cKey k) :
    ∃ db', incrKey hash db cKey = .ok db' ∧ db'.Inv hash ∧
      db'.Reads (Function.update m k (some (incrText (m k)))) := by
  have hincr := h.incrKey_spec hk
  rw [hm.incrPtr_eq k] at hincr
  obtain ⟨db', heq, hb⟩ := hincr
  refine ⟨db', heq, hb.inv, hm.bound hb (cstrAt_counterSds ?_ ?_)⟩
  · cases m k with
    | none => decide
    | some t => exact LONG_MIN_le_wrapLong _
  · cases m k with
    | none => decide
    | some t => exact wrapLong_le_LONG_MAX _

end Commands

/-! ## Dispatch by tokens -/

/-- The slots of a request, from its tokens. -/
theorem parseSlots_of_tokens (ts : List Bytes) :
    parseSlots (ts.map sdsOf) = ⟨ts[2]?.map fun d => sdsnew (sdsOf d).buf,
      slotPtr (ts[4]?.map sdsOf), slotPtr (ts[6]?.map sdsOf)⟩ := by
  rw [parseSlots_eq]
  simp [List.getElem?_map, Option.map_map, Function.comp_def]

/-- The bytes of the sds at a slot's pointer. -/
def VoidPtr.content : VoidPtr → Option Bytes
  | .sds s 0 => some s.content
  | _ => none

theorem content_slotPtr (x : Option Bytes) : (slotPtr (x.map sdsOf)).content = x := by
  cases x with
  | none => rfl
  | some d => exact congrArg some (content_sdsOf d)

theorem isAction_sdsOf {d name : Bytes} (h : (0 : UInt8) ∉ name) :
    isAction (sdsnew (sdsOf d).buf) name = true ↔ cstr d = name := by
  rw [isAction_sdsnew h, (wf_sdsOf d).cstr_buf, content_sdsOf]

/-- The names of the commands have no NUL and differ. -/
theorem zero_not_mem_names : (0 : UInt8) ∉ GET ∧ (0 : UInt8) ∉ SET ∧ (0 : UInt8) ∉ INCR ∧
    (0 : UInt8) ∉ DECR := by decide

/-- The branch `dispatch` takes, by the C string of the action token. -/
theorem dispatch_eq (db : RedisDb) (d : Bytes) (kp vp : VoidPtr) (cKey cVal : ℕ) (outbuf : Sds) :
    dispatch hash db ⟨some (sdsnew (sdsOf d).buf), kp, vp⟩ cKey cVal outbuf =
      if cstr d = GET then getCommand hash db ⟨cKey, kp⟩ outbuf
      else if cstr d = SET then do
        pure (← setKey hash db ⟨cKey, kp⟩ ⟨cVal, vp⟩, ← reply outbuf OK)
      else if cstr d = INCR then do pure (← incrKey hash db ⟨cKey, kp⟩, ← reply outbuf OK)
      else if cstr d = DECR then do pure (← decrKey hash db ⟨cKey, kp⟩, ← reply outbuf OK)
      else pure (db, outbuf) := by
  simp only [dispatch, isAction_sdsOf zero_not_mem_names.1, isAction_sdsOf zero_not_mem_names.2.1,
    isAction_sdsOf zero_not_mem_names.2.2.1, isAction_sdsOf zero_not_mem_names.2.2.2]

/-- A request with the tokens `ts`, after the two objects are allocated. -/
theorem commandServer_eq {inbuf : Bytes} {ts : List Bytes} {d : Bytes} (hts : Tokens inbuf ts)
    (hd : ts[2]? = some d) (db : RedisDb) (outbuf : Sds) :
    commandServer hash db inbuf outbuf =
      dispatch hash (newObject (newObject db).1).1
        ⟨some (sdsnew (sdsOf d).buf), slotPtr (ts[4]?.map sdsOf), slotPtr (ts[6]?.map sdsOf)⟩
        db.objs (db.objs + 1) outbuf := by
  have hsplit := (sdssplitargs_eq_some_iff inbuf (ts.map sdsOf)).2 ⟨ts, hts, rfl⟩
  simp only [commandServer, hsplit, Option.getD_some, parseSlots_of_tokens, hd, Option.map_some]
  rfl

/-! ## Complete requests -/

section Requests

variable {db : RedisDb} {m : Key → Option Bytes} {cap : ℕ} {outbuf : Sds} {inbuf : Bytes}
  {ts : List Bytes} {a d : Bytes} {k : Key}

theorem holdsKey_slot (hd : k.1 = d) (id : ℕ) : HoldsKey ⟨id, slotPtr ((some d).map sdsOf)⟩ k :=
  ⟨sdsOf d, rfl, wf_sdsOf d, (content_sdsOf d).trans hd.symm⟩

theorem cstrAt_slot (d : Bytes) : cstrAt (slotPtr ((some d).map sdsOf)) = .ok (cstr d) := by
  rw [Option.map_some, slotPtr, (wf_sdsOf d).cstrAt, content_sdsOf]

/-- The reply to a command that writes. -/
theorem Outbuf.reply_ok (ho : Outbuf cap outbuf) (hcap : 2 < cap) :
    ∃ outbuf', reply outbuf OK = .ok outbuf' ∧ Outbuf cap outbuf' ∧
      outbuf'.content = OK ++ [lf] := by
  have hOK : cstr OK = OK := by decide
  have hlen : (cstr OK).length < cap := hcap
  have hreply := ho.reply_of_lt hlen
  rwa [hOK] at hreply

/-- A complete `get` request. -/
theorem commandServer_get (h : db.Inv hash) (ho : Outbuf cap outbuf) (hts : Tokens inbuf ts)
    (ha : ts[2]? = some a) (hname : cstr a = GET) (hd : ts[4]? = some d) (hk : k.1 = cstr d)
    {t : Bytes} (ht : found (db.get k) = .ok t) (hfit : t.length < cap) :
    ∃ db' outbuf', commandServer hash db inbuf outbuf = .ok (db', outbuf') ∧
      RedisDb.Same hash db db' ∧ Outbuf cap outbuf' ∧ outbuf'.content = t ++ [lf] := by
  have hself : RedisDb.Same hash db db := ⟨h, rfl⟩
  have hnew := hself.alloc.alloc
  have hread : cstrAt (⟨db.objs, slotPtr ((some d).map sdsOf)⟩ : Robj).ptr = .ok (cstr d) :=
    cstrAt_slot d
  rw [← hnew.get] at ht
  obtain ⟨db', outbuf', hget, hsame, ho', hcontent⟩ := getCommand_spec hnew.inv hread hk ht ho hfit
  refine ⟨db', outbuf', ?_, ⟨hsame.inv, hsame.get.trans hnew.get⟩, ho', hcontent⟩
  rw [commandServer_eq hts ha, dispatch_eq, if_pos hname, hd]
  exact hget

/-- A complete `set` request. -/
theorem commandServer_set (h : db.Inv hash) (hm : db.Reads m) (ho : Outbuf cap outbuf)
    (hcap : 2 < cap) (hts : Tokens inbuf ts) (ha : ts[2]? = some a) (hname : cstr a = SET)
    (hd : ts[4]? = some d) (hk : k.1 = d) {v : Bytes} (hv : ts[6]? = some v) :
    ∃ db' outbuf', commandServer hash db inbuf outbuf = .ok (db', outbuf') ∧ db'.Inv hash ∧
      db'.Reads (Function.update m k (some (cstr v))) ∧ Outbuf cap outbuf' ∧
      outbuf'.content = OK ++ [lf] := by
  have hself : RedisDb.Same hash db db := ⟨h, rfl⟩
  have hnew := hself.alloc.alloc
  have hlt : (⟨db.objs + 1, slotPtr ((some v).map sdsOf)⟩ : Robj).id
      < (newObject (newObject db).1).1.objs := Nat.lt_succ_self _
  obtain ⟨db', hset, hinv, hreads⟩ :=
    setCommand_spec hnew.inv (hm.same hnew) (holdsKey_slot hk db.objs) hlt (cstrAt_slot v)
  obtain ⟨outbuf', hreply, ho', hcontent⟩ := ho.reply_ok hcap
  refine ⟨db', outbuf', ?_, hinv, hreads, ho', hcontent⟩
  have hne : cstr a ≠ GET := by
    rw [hname]
    decide
  rw [commandServer_eq hts ha, dispatch_eq, if_neg hne, if_pos hname, hd, hv]
  simp only [hset, hreply, bind, Except.bind, pure, Except.pure]

/-- A complete `incr` request. -/
theorem commandServer_incr (h : db.Inv hash) (hm : db.Reads m) (ho : Outbuf cap outbuf)
    (hcap : 2 < cap) (hts : Tokens inbuf ts) (ha : ts[2]? = some a) (hname : cstr a = INCR)
    (hd : ts[4]? = some d) (hk : k.1 = d) :
    ∃ db' outbuf', commandServer hash db inbuf outbuf = .ok (db', outbuf') ∧ db'.Inv hash ∧
      db'.Reads (Function.update m k (some (incrText (m k)))) ∧ Outbuf cap outbuf' ∧
      outbuf'.content = OK ++ [lf] := by
  have hself : RedisDb.Same hash db db := ⟨h, rfl⟩
  have hnew := hself.alloc.alloc
  obtain ⟨db', hincr, hinv, hreads⟩ :=
    incrCommand_spec hnew.inv (hm.same hnew) (holdsKey_slot hk db.objs)
  obtain ⟨outbuf', hreply, ho', hcontent⟩ := ho.reply_ok hcap
  refine ⟨db', outbuf', ?_, hinv, hreads, ho', hcontent⟩
  have hne : cstr a ≠ GET ∧ cstr a ≠ SET := by
    rw [hname]
    decide
  rw [commandServer_eq hts ha, dispatch_eq, if_neg hne.1, if_neg hne.2, if_pos hname, hd]
  simp only [hincr, hreply, bind, Except.bind, pure, Except.pure]

end Requests

/-! ## Every outcome of a request -/

/-- The ways `commandServer` can return, by the tokens of the request. `get` looks up the C string
of its key token and the other commands the whole token; an unknown action does nothing at all. -/
inductive Handled (hash : Bytes → UInt64) (cap : ℕ) (db : RedisDb) (outbuf : Sds) (ts : List Bytes) :
    RedisDb → Sds → Prop
  | get {a d t : Bytes} {k : Key} {db' : RedisDb} {outbuf' : Sds} (ha : ts[2]? = some a)
      (hname : cstr a = GET) (hd : ts[4]? = some d) (hk : k.1 = cstr d)
      (hdb : RedisDb.Same hash db db') (ho : Outbuf cap outbuf') (ht : found (db.get k) = .ok t)
      (hcontent : outbuf'.content = t ++ [lf]) : Handled hash cap db outbuf ts db' outbuf'
  | set {a d : Bytes} {k : Key} {o : Robj} {db' : RedisDb} {outbuf' : Sds} (ha : ts[2]? = some a)
      (hname : cstr a = SET) (hd : ts[4]? = some d) (hk : k.1 = d) (hnew : db.objs ≤ o.id)
      (hptr : o.ptr = slotPtr (ts[6]?.map sdsOf)) (hdb : RedisDb.Bound hash db k o db')
      (ho : Outbuf cap outbuf') (hcontent : outbuf'.content = OK ++ [lf]) :
      Handled hash cap db outbuf ts db' outbuf'
  | incr {a d : Bytes} {k : Key} {o : Robj} {db' : RedisDb} {outbuf' : Sds} (ha : ts[2]? = some a)
      (hname : cstr a = INCR) (hd : ts[4]? = some d) (hk : k.1 = d) (hnew : db.objs ≤ o.id)
      (hptr : RedisDb.incrPtr (db.get k) = .ok o.ptr) (hdb : RedisDb.Bound hash db k o db')
      (ho : Outbuf cap outbuf') (hcontent : outbuf'.content = OK ++ [lf]) :
      Handled hash cap db outbuf ts db' outbuf'
  | decr {a d : Bytes} {k : Key} {o : Robj} {db' : RedisDb} {outbuf' : Sds} (ha : ts[2]? = some a)
      (hname : cstr a = DECR) (hd : ts[4]? = some d) (hk : k.1 = d) (hnew : db.objs ≤ o.id)
      (hptr : RedisDb.decrPtrOf (db.get k) = .ok o.ptr) (hdb : RedisDb.Bound hash db k o db')
      (ho : Outbuf cap outbuf') (hcontent : outbuf'.content = OK ++ [lf]) :
      Handled hash cap db outbuf ts db' outbuf'
  | other {a : Bytes} {db' : RedisDb} {outbuf' : Sds} (ha : ts[2]? = some a)
      (hname : cstr a ∉ [GET, SET, INCR, DECR]) (hdb : RedisDb.Same hash db db')
      (ho : outbuf' = outbuf) : Handled hash cap db outbuf ts db' outbuf'

/-- A request has one action. -/
theorem action_unique {ts : List Bytes} {a a' x y : Bytes} (ha : ts[2]? = some a) (hx : cstr a = x)
    (ha' : ts[2]? = some a') (hy : cstr a' = y) : x = y := by
  rw [← hx, ← hy, Option.some.inj (ha.symm.trans ha')]

section Handled

variable {db db' : RedisDb} {cap : ℕ} {outbuf outbuf' : Sds} {ts : List Bytes}

/-- A reply that succeeds replaces the content. -/
theorem Outbuf.of_reply (ho : Outbuf cap outbuf) {t : Bytes} (h : reply outbuf t = .ok outbuf') :
    Outbuf cap outbuf' ∧ outbuf'.content = cstr t ++ [lf] := by
  rcases Nat.lt_or_ge (cstr t).length cap with hlt | hge
  · obtain ⟨outbuf1, hreply, ho1, hcontent⟩ := ho.reply_of_lt hlt
    rw [hreply] at h
    cases h
    exact ⟨ho1, hcontent⟩
  · rw [ho.reply_of_le hge] at h
    cases h

theorem content_of_dictKey {s : Sds} {k : Key} (h : dictKey s = .ok k) : k.1 = s.content := by
  unfold dictKey at h
  split_ifs at h
  rw [← Except.ok.inj h]

theorem dictKey_eq_error {s : Sds} (h : ¬ s.content.length < 2 ^ 31) :
    dictKey s = .error .keyLength := dif_neg h

/-- A slot can be looked up, or every lookup fails on it: no token was assigned, or it is too long. -/
theorem holdsKey_slot_or (hash : Bytes → UInt64) (x : Option Bytes) (id : ℕ) :
    (∃ d, x = some d ∧ ∃ k : Key, k.1 = d ∧ HoldsKey ⟨id, slotPtr (x.map sdsOf)⟩ k) ∨
      ∃ e, ∀ db, lookupKeyWrite hash db ⟨id, slotPtr (x.map sdsOf)⟩ = .error e := by
  rcases x with _ | d
  · exact .inr ⟨.unassigned, fun db => rfl⟩
  · by_cases hlen : d.length < 2 ^ 31
    · exact .inl ⟨d, rfl, ⟨d, hlen⟩, rfl, holdsKey_slot (k := ⟨d, hlen⟩) rfl id⟩
    · refine .inr ⟨.keyLength, fun db => ?_⟩
      have hkey : dictKey (sdsOf d) = .error .keyLength :=
        dictKey_eq_error (by rwa [content_sdsOf])
      simp only [lookupKeyWrite, lookupKey, Option.map_some, slotPtr, sdsAt, hkey, bind, Except.bind,
        pure, Except.pure]

/-- The two parts of a command that writes and replies. -/
theorem ok_of_write_reply {x : Except Fault RedisDb} {t : Bytes}
    (h : (do pure (← x, ← reply outbuf t) : Except Fault (RedisDb × Sds)) = .ok (db', outbuf')) :
    x = .ok db' ∧ reply outbuf t = .ok outbuf' := by
  obtain ⟨db1, hx, h⟩ := bind_eq_ok h
  obtain ⟨outbuf1, hreply, h⟩ := bind_eq_ok h
  cases h
  exact ⟨hx, hreply⟩

theorem getCommand_of_ok {x : Option Bytes} {id : ℕ} (h : db.Inv hash) (ho : Outbuf cap outbuf)
    (hok : getCommand hash db ⟨id, slotPtr (x.map sdsOf)⟩ outbuf = .ok (db', outbuf')) :
    ∃ d t, ∃ k : Key, x = some d ∧ k.1 = cstr d ∧ RedisDb.Same hash db db' ∧ Outbuf cap outbuf' ∧
      found (db.get k) = .ok t ∧ outbuf'.content = t ++ [lf] := by
  rcases x with _ | d
  · cases hok
  · obtain ⟨c, hread, hok⟩ := bind_eq_ok hok
    obtain rfl : cstr d = c := Except.ok.inj ((cstrAt_slot d).symm.trans hread)
    obtain ⟨k, hdict, hok⟩ := bind_eq_ok hok
    have hk : k.1 = cstr d := by
      rw [content_of_dictKey hdict, content_sdsnew, cstr_of_zero_not_mem (zero_not_mem_cstr d)]
    obtain ⟨d', hfetch, hsame⟩ := h.dictFetchValue_spec k
    obtain ⟨⟨dict, ret⟩, hfetch', hok⟩ := bind_eq_ok hok
    obtain ⟨rfl, rfl⟩ := Prod.mk.inj (Except.ok.inj (hfetch.symm.trans hfetch'))
    rcases hget : db.get k with _ | o
    · rw [hget] at hok
      obtain ⟨r, hr, hok⟩ := bind_eq_ok hok
      cases hok
      obtain ⟨ho', hc⟩ := ho.of_reply hr
      exact ⟨d, MISSING, k, rfl, hk, hsame, ho', by rw [hget]; rfl, hc⟩
    · rw [hget] at hok
      obtain ⟨v, hv, hok⟩ := bind_eq_ok hok
      obtain ⟨r, hr, hok⟩ := bind_eq_ok hok
      cases hok
      obtain ⟨ho', hc⟩ := ho.of_reply hr
      rw [cstr_of_cstrAt hv] at hc
      exact ⟨d, v, k, rfl, hk, hsame, ho', by rw [hget]; exact hv, hc⟩

/-- A request that returns has an action token: without one the dispatch reads `action` unassigned. -/
theorem action_of_ok {inbuf : Bytes} {r : RedisDb × Sds}
    (h : commandServer hash db inbuf outbuf = .ok r) : ∃ ts a, Tokens inbuf ts ∧ ts[2]? = some a := by
  rcases hsplit : sdssplitargs inbuf with _ | toks
  · simp only [commandServer, hsplit, Option.getD_none] at h
    cases h
  · obtain ⟨ts, hts, rfl⟩ := (sdssplitargs_eq_some_iff inbuf toks).1 hsplit
    rcases ha : ts[2]? with _ | a
    · simp only [commandServer, hsplit, Option.getD_some, parseSlots_of_tokens, ha, Option.map_none]
        at h
      cases h
    · exact ⟨ts, a, hts, ha⟩

/-- What a command that computes the new pointer `ptr` from the old object binds. -/
theorem bound_of_spec {x : Except Fault RedisDb} {ptr : Except Fault VoidPtr} {k : Key} {id : ℕ}
    (hspec : match ptr with
      | .error e => x = .error e
      | .ok p => ∃ db', x = .ok db' ∧ RedisDb.Bound hash db k ⟨id, p⟩ db')
    (hx : x = .ok db') : ∃ o : Robj, o.id = id ∧ ptr = .ok o.ptr ∧ RedisDb.Bound hash db k o db' := by
  cases ptr with
  | error e =>
    rw [hspec] at hx
    cases hx
  | ok p =>
    obtain ⟨db1, heq, hb⟩ := hspec
    rw [heq] at hx
    cases hx
    exact ⟨⟨id, p⟩, rfl, rfl, hb⟩

/-- A command that starts by looking up its key fails unless the key can be looked up. -/
theorem holdsKey_of_lookup {x : Option Bytes} {id : ℕ} {β : Type} {r : β}
    {f : RedisDb × Option Robj → Except Fault β}
    (hok : (lookupKeyWrite hash db ⟨id, slotPtr (x.map sdsOf)⟩ >>= f) = .ok r) :
    ∃ d, x = some d ∧ ∃ k : Key, k.1 = d ∧ HoldsKey ⟨id, slotPtr (x.map sdsOf)⟩ k := by
  rcases holdsKey_slot_or hash x id with hholds | ⟨e, he⟩
  · exact hholds
  · rw [he] at hok
    cases hok

/-- A request that returns bound its key to a new object, or bound nothing. -/
theorem handled_of_ok {inbuf : Bytes} (h : db.Inv hash) (ho : Outbuf cap outbuf)
    (hts : Tokens inbuf ts) (hok : commandServer hash db inbuf outbuf = .ok (db', outbuf')) :
    Handled hash cap db outbuf ts db' outbuf' := by
  have hself : RedisDb.Same hash db db := ⟨h, rfl⟩
  have hnew := hself.alloc.alloc
  have hok1 : cstr OK ++ [lf] = OK ++ [lf] := by decide
  have hle : db.objs ≤ (newObject (newObject db).1).1.objs := Nat.le_add_right db.objs 2
  obtain ⟨ts', a, hts', ha⟩ := action_of_ok hok
  rw [hts'.unique hts] at ha
  rw [commandServer_eq hts ha, dispatch_eq] at hok
  split_ifs at hok with hget hset hincr hdecr
  · obtain ⟨d, t, k, hd, hk, hsame, ho', ht, hc⟩ := getCommand_of_ok hnew.inv ho hok
    rw [hnew.get] at ht
    exact .get ha hget hd hk ⟨hsame.inv, hsame.get.trans hnew.get⟩ ho' ht hc
  · obtain ⟨hwrite, hr⟩ := ok_of_write_reply hok
    obtain ⟨ho', hc⟩ := ho.of_reply hr
    -- each of the three looks its key up first, so the key token is there and short enough
    obtain ⟨d, hd, k, hk, hholds⟩ := holdsKey_of_lookup hwrite
    have hlt : (⟨db.objs + 1, slotPtr (ts[6]?.map sdsOf)⟩ : Robj).id
        < (newObject (newObject db).1).1.objs := Nat.lt_succ_self _
    obtain ⟨db1, hset', hb⟩ := hnew.inv.setKey_spec hholds hlt
    rw [hset'] at hwrite
    cases hwrite
    exact .set ha hset hd hk (Nat.le_succ _) rfl (hnew.bound hb) ho' (hc.trans hok1)
  · obtain ⟨hwrite, hr⟩ := ok_of_write_reply hok
    obtain ⟨ho', hc⟩ := ho.of_reply hr
    obtain ⟨d, hd, k, hk, hholds⟩ := holdsKey_of_lookup hwrite
    obtain ⟨o, hid, hptr, hb⟩ := bound_of_spec (hnew.inv.incrKey_spec hholds) hwrite
    rw [hnew.get] at hptr
    exact .incr ha hincr hd hk (hid ▸ hle) hptr (hnew.bound hb) ho' (hc.trans hok1)
  · obtain ⟨hwrite, hr⟩ := ok_of_write_reply hok
    obtain ⟨ho', hc⟩ := ho.of_reply hr
    obtain ⟨d, hd, k, hk, hholds⟩ := holdsKey_of_lookup hwrite
    obtain ⟨o, hid, hptr, hb⟩ := bound_of_spec (hnew.inv.decrKey_spec hholds) hwrite
    rw [hnew.get] at hptr
    exact .decr ha hdecr hd hk (hid ▸ hle) hptr (hnew.bound hb) ho' (hc.trans hok1)
  · cases hok
    exact .other ha (by simp [hget, hset, hincr, hdecr]) hnew rfl

/-! ## Outcomes by command -/

section Outcomes

variable {a d : Bytes} (h : Handled hash cap db outbuf ts db' outbuf') (ha : ts[2]? = some a)
include h ha

/-- After `get`. -/
theorem Handled.of_get (hname : cstr a = GET) (hkey : ts[4]? = some d) :
    ∃ k : Key, k.1 = cstr d ∧ RedisDb.Same hash db db' ∧
      ∃ t, found (db.get k) = .ok t ∧ outbuf'.content = t ++ [lf] := by
  rcases h with ⟨-, -, hd, hk, hdb, -, ht, hc⟩ | ⟨ha', hn', -⟩ | ⟨ha', hn', -⟩ | ⟨ha', hn', -⟩ |
    ⟨ha', hn', -⟩
  · obtain rfl := Option.some.inj (hkey.symm.trans hd)
    exact ⟨_, hk, hdb, _, ht, hc⟩
  · exact absurd (action_unique ha hname ha' hn') (by decide)
  · exact absurd (action_unique ha hname ha' hn') (by decide)
  · exact absurd (action_unique ha hname ha' hn') (by decide)
  · exact absurd hn' (by rw [action_unique ha' rfl ha hname]; decide)

/-- After `set`. -/
theorem Handled.of_set (hname : cstr a = SET) :
    ∃ d, ts[4]? = some d ∧ ∃ k : Key, k.1 = d ∧ ∃ o : Robj, db.objs ≤ o.id ∧
      o.ptr = slotPtr (ts[6]?.map sdsOf) ∧ RedisDb.Bound hash db k o db' := by
  rcases h with ⟨ha', hn', -⟩ | ⟨-, -, hd, hk, hnew, hptr, hdb, -, -⟩ | ⟨ha', hn', -⟩ |
    ⟨ha', hn', -⟩ | ⟨ha', hn', -⟩
  · exact absurd (action_unique ha hname ha' hn') (by decide)
  · exact ⟨_, hd, _, hk, _, hnew, hptr, hdb⟩
  · exact absurd (action_unique ha hname ha' hn') (by decide)
  · exact absurd (action_unique ha hname ha' hn') (by decide)
  · exact absurd hn' (by rw [action_unique ha' rfl ha hname]; decide)

/-- After `incr`. -/
theorem Handled.of_incr (hname : cstr a = INCR) :
    ∃ d, ts[4]? = some d ∧ ∃ k : Key, k.1 = d ∧ ∃ o : Robj,
      RedisDb.incrPtr (db.get k) = .ok o.ptr ∧ RedisDb.Bound hash db k o db' := by
  rcases h with ⟨ha', hn', -⟩ | ⟨ha', hn', -⟩ | ⟨-, -, hd, hk, -, hptr, hdb, -, -⟩ |
    ⟨ha', hn', -⟩ | ⟨ha', hn', -⟩
  · exact absurd (action_unique ha hname ha' hn') (by decide)
  · exact absurd (action_unique ha hname ha' hn') (by decide)
  · exact ⟨_, hd, _, hk, _, hptr, hdb⟩
  · exact absurd (action_unique ha hname ha' hn') (by decide)
  · exact absurd hn' (by rw [action_unique ha' rfl ha hname]; decide)

/-- After `decr`. -/
theorem Handled.of_decr (hname : cstr a = DECR) :
    ∃ d, ts[4]? = some d ∧ ∃ k : Key, k.1 = d ∧ ∃ o : Robj,
      RedisDb.decrPtrOf (db.get k) = .ok o.ptr ∧ RedisDb.Bound hash db k o db' := by
  rcases h with ⟨ha', hn', -⟩ | ⟨ha', hn', -⟩ | ⟨ha', hn', -⟩ |
    ⟨-, -, hd, hk, -, hptr, hdb, -, -⟩ | ⟨ha', hn', -⟩
  · exact absurd (action_unique ha hname ha' hn') (by decide)
  · exact absurd (action_unique ha hname ha' hn') (by decide)
  · exact absurd (action_unique ha hname ha' hn') (by decide)
  · exact ⟨_, hd, _, hk, _, hptr, hdb⟩
  · exact absurd hn' (by rw [action_unique ha' rfl ha hname]; decide)

/-- The four commands have a key. -/
theorem Handled.exists_key (hname : cstr a ∈ [GET, SET, INCR, DECR]) : ∃ d, ts[4]? = some d := by
  rcases h with ⟨-, -, hd, -⟩ | ⟨-, -, hd, -⟩ | ⟨-, -, hd, -⟩ | ⟨-, -, hd, -⟩ | ⟨ha', hn', -⟩
  · exact ⟨_, hd⟩
  · exact ⟨_, hd⟩
  · exact ⟨_, hd⟩
  · exact ⟨_, hd⟩
  · rw [action_unique ha' rfl ha rfl] at hn'
    exact absurd hname hn'

end Outcomes

end Handled

end RedisCounter
