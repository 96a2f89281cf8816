import RedisCounter.Command.Effects

/-!
# Requests that are not complete

The parsing loop assigns the action, the key and the value only when there is a token for them, and
the dispatch uses them in any case. So a request without an action, or one of the four commands
without a key, reads a variable that was never assigned; a `set` without a value binds its key to an
object whose pointer was never assigned.
-/

namespace RedisCounter

variable {hash : Bytes → UInt64} {cap : ℕ} {db : RedisDb} {inbuf : Bytes} {outbuf : Sds}

/-- The buffer is not a complete request. -/
inductive Malformed (inbuf : Bytes) : Prop
  | unbalanced (h : sdssplitargs inbuf = none)
  | noAction {ts : List Bytes} (hts : Tokens inbuf ts) (h : ts[2]? = none)
  | noKey {ts : List Bytes} {a : Bytes} (hts : Tokens inbuf ts) (ha : ts[2]? = some a)
      (hname : cstr a ∈ [GET, SET, INCR, DECR]) (h : ts[4]? = none)
  | noValue {ts : List Bytes} {a : Bytes} (hts : Tokens inbuf ts) (ha : ts[2]? = some a)
      (hname : cstr a = SET) (h : ts[6]? = none)

/-- The request is rejected: `commandServer` returns, so it has read nothing unassigned, and every
key is bound to what it was bound to. -/
def Rejected (hash : Bytes → UInt64) (db : RedisDb) (inbuf : Bytes) (outbuf : Sds) : Prop :=
  ∃ db' outbuf', commandServer hash db inbuf outbuf = .ok (db', outbuf') ∧ db'.get = db.get

/-- A new object changes what its key is bound to. -/
theorem RedisDb.Bound.get_ne {db' : RedisDb} {k : Key} {o : Robj} (h : db.Inv hash)
    (hnew : db.objs ≤ o.id) (hb : RedisDb.Bound hash db k o db') : db'.get ≠ db.get := by
  intro heq
  have hk : db.get k = some o := by
    rw [← heq, hb.get, Function.update_self]
  exact absurd (h.fresh k o hk) (Nat.not_lt.2 hnew)

/-- No malformed buffer is rejected, in any keyspace. -/
theorem not_rejected (hash : Bytes → UInt64) (db : RedisDb) (inbuf : Bytes) (cap : ℕ) (outbuf : Sds)
    (hdb : db.Inv hash) (ho : Outbuf cap outbuf) (hbad : Malformed inbuf) :
    ¬ Rejected hash db inbuf outbuf := by
  rintro ⟨db', outbuf', hok, hget⟩
  obtain ⟨ts, a, hts, ha⟩ := action_of_ok hok
  have hhandled := handled_of_ok hdb ho hts hok
  cases hbad with
  | unbalanced h =>
    rw [(sdssplitargs_eq_some_iff inbuf _).2 ⟨ts, hts, rfl⟩] at h
    cases h
  | noAction hts' h =>
    rw [hts'.unique hts, ha] at h
    cases h
  | noKey hts' ha' hname h =>
    rw [hts'.unique hts] at ha' h
    obtain ⟨d, hd⟩ := hhandled.exists_key ha' hname
    rw [h] at hd
    cases hd
  | noValue hts' ha' hname h =>
    -- the key is bound to a new object, whose pointer nobody has assigned
    rw [hts'.unique hts] at ha'
    obtain ⟨d, -, k, -, o, hnew, -, hb⟩ := hhandled.of_set ha' hname
    exact hb.get_ne hdb hnew hget

/-- `set k` without a value, on the empty keyspace. -/
theorem not_rejected_set :
    ¬ Rejected (fun _ => 0) createDb (ascii "*2\r\n$3\r\nset\r\n$1\r\nk\r\n".toList)
      (sdsnewlen (List.replicate MAX_LINE 0) MAX_LINE) := by
  have hts : Tokens (ascii "*2\r\n$3\r\nset\r\n$1\r\nk\r\n".toList)
      [ascii "*2".toList, ascii "$3".toList, SET, ascii "$1".toList, ascii "k".toList] :=
    tokens_of_sdssplitargs (by decide +kernel)
  exact not_rejected _ _ _ MAX_LINE _ inv_createDb (outbuf_sdsnewlen (by simp) (by decide))
    (.noValue hts rfl (by decide) rfl)

/-- What the client sends for an empty line makes the server compare an action that it never
assigned. After `set k` without a value the new key is bound to a pointer that it never assigned. -/
theorem unassigned_of_malformed :
    (clientBuf []).content = ascii "*0\r\n".toList ∧
      commandServer (fun _ => 0) createDb (ascii "*0\r\n".toList)
        (sdsnewlen (List.replicate MAX_LINE 0) MAX_LINE) = .error .unassigned ∧
      (commandServer (fun _ => 0) createDb (ascii "*2\r\n$3\r\nset\r\n$1\r\nk\r\n".toList)
          (sdsnewlen (List.replicate MAX_LINE 0) MAX_LINE)).map
        (fun r => (dictFetchValue (dbDictType fun _ => 0) r.1.dict ⟨[107], by decide⟩).map
          fun x => x.2.map Robj.ptr)
        = .ok (.ok (some .unassigned)) := by
  exact ⟨by decide +kernel, by decide +kernel, by decide +kernel⟩

end RedisCounter
