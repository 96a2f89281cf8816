import RedisCounter.Command.Effects

/-!
# What a reply depends on

`outbuf` outlives the request, and the caller sends it whether or not `commandServer` wrote it. Each
of the four commands overwrites it, so the result does not depend on what was in it, as long as the
reply fits and the buffer stays where it is; the chain of comparisons has no last `else`, so any other
action leaves the previous reply there.
-/

namespace RedisCounter

variable {hash : Bytes → UInt64} {cap : ℕ} {outbuf1 outbuf2 : Sds}

/-- What a caller can see of the result: the keyspace, and the bytes it sends. -/
def observed (r : RedisDb × Sds) : RedisDb × Bytes := (r.1, r.2.content)

/-- A reply replaces everything there was. -/
theorem reply_congr (h1 : Outbuf cap outbuf1) (h2 : Outbuf cap outbuf2) (t : Bytes) :
    (reply outbuf1 t).map Sds.content = (reply outbuf2 t).map Sds.content := by
  rcases Nat.lt_or_ge (cstr t).length cap with hlt | hge
  · obtain ⟨o1, hr1, -, hc1⟩ := h1.reply_of_lt hlt
    obtain ⟨o2, hr2, -, hc2⟩ := h2.reply_of_lt hlt
    rw [hr1, hr2]
    show Except.ok o1.content = Except.ok o2.content
    rw [hc1, hc2]
  · rw [h1.reply_of_le hge, h2.reply_of_le hge]

/-- Results that show the same bytes show the same behind any computation of the keyspace. -/
theorem observed_congr (x : Except Fault RedisDb) {r1 r2 : Except Fault Sds}
    (h : r1.map Sds.content = r2.map Sds.content) :
    (do pure (← x, ← r1) : Except Fault (RedisDb × Sds)).map observed
      = (do pure (← x, ← r2) : Except Fault (RedisDb × Sds)).map observed := by
  rcases x with e | db
  · rfl
  · rcases r1 with e1 | o1 <;> rcases r2 with e2 | o2
    · exact congrArg Except.error (Except.error.inj h)
    · exact absurd h (by simp [Except.map])
    · exact absurd h (by simp [Except.map])
    · exact congrArg (fun c => Except.ok (db, c)) (Except.ok.inj h)

theorem getCommand_congr (h1 : Outbuf cap outbuf1) (h2 : Outbuf cap outbuf2) (db : RedisDb)
    (cKey : Robj) :
    (getCommand hash db cKey outbuf1).map observed = (getCommand hash db cKey outbuf2).map observed := by
  unfold getCommand
  rcases cstrAt cKey.ptr with e | d
  · simp only [bind, Except.bind]
  rcases hkey : dictKey (sdsnew d) with e | key
  · simp only [bind, Except.bind, hkey]
  rcases hfetch : dictFetchValue (dbDictType hash) db.dict key with e | ⟨dict, ret⟩
  · simp only [bind, Except.bind, hkey, hfetch]
  rcases ret with _ | ret
  · have h := observed_congr (.ok { db with dict }) (reply_congr h1 h2 MISSING)
    simpa only [bind, Except.bind, hkey, hfetch] using h
  · rcases hread : cstrAt ret.ptr with e | v
    · simp only [bind, Except.bind, hkey, hfetch, hread]
    · have h := observed_congr (.ok { db with dict }) (reply_congr h1 h2 v)
      simpa only [bind, Except.bind, hkey, hfetch, hread] using h

/-- Two buffers of any capacity that hold different bytes. -/
theorem exists_outbufs (h : 0 < cap) :
    ∃ outbuf1 outbuf2 : Sds, Outbuf cap outbuf1 ∧ Outbuf cap outbuf2 ∧
      outbuf1.content ≠ outbuf2.content := by
  refine ⟨⟨.type64, 0, cap, [0], 0⟩, ⟨.type64, 1, cap, [1, 0], 0⟩, ⟨?_, by simp, rfl⟩,
    ⟨?_, by simp, rfl⟩, by simp [Sds.content]⟩
  · exact ⟨⟨Nat.zero_le _, rfl, Nat.zero_le _⟩, rfl⟩
  · exact ⟨⟨h, rfl, by simp⟩, rfl⟩

/-- A buffer holds no more than its capacity. -/
theorem Outbuf.length_le {outbuf : Sds} (h : Outbuf cap outbuf) : outbuf.content.length ≤ cap := by
  rw [h.wf.content_length, ← h.alloc, ← sdsalloc_of_ne_type5 h.type]
  exact h.wf.len_le

section Independent

variable {db : RedisDb} {m : Key → Option Bytes} {inbuf a key : Bytes} {ts : List Bytes} {outbuf : Sds}

/-- Whatever a value is, a pointer it can be read through can be decremented. -/
theorem RedisDb.Reads.exists_decrPtrOf (h : db.Reads m) (k : Key) :
    ∃ ptr, RedisDb.decrPtrOf (db.get k) = .ok ptr := by
  rcases hk : m k with _ | t
  · exact ⟨.null, by rw [h.get_eq_none hk]; rfl⟩
  · obtain ⟨⟨id, ptr⟩, ho, ht⟩ := h.get_eq_some hk
    rw [ho]
    cases ptr with
    | unassigned => cases ht
    | null => cases ht
    | sds s back => exact ⟨.sds s (back + 1), rfl⟩

/-- A complete `decr` request returns. -/
theorem commandServer_decr (h : db.Inv hash) (hm : db.Reads m) (ho : Outbuf cap outbuf)
    (hcap : 2 < cap) (hts : Tokens inbuf ts) (ha : ts[2]? = some a) (hname : cstr a = DECR)
    (hkey : ts[4]? = some key) {k : Key} (hk : k.1 = key) :
    ∃ r, commandServer hash db inbuf outbuf = .ok r := by
  have hself : RedisDb.Same hash db db := ⟨h, rfl⟩
  have hnew := hself.alloc.alloc
  obtain ⟨ptr, hptr⟩ := (hm.same hnew).exists_decrPtrOf k
  have hdecr := hnew.inv.decrKey_spec (holdsKey_slot hk db.objs)
  rw [hptr] at hdecr
  obtain ⟨db', hdecr, -⟩ := hdecr
  obtain ⟨outbuf', hreply, -⟩ := ho.reply_ok hcap
  have hne : cstr a ≠ GET ∧ cstr a ≠ SET ∧ cstr a ≠ INCR := by
    rw [hname]
    decide
  refine ⟨(db', outbuf'), ?_⟩
  rw [commandServer_eq hts ha, dispatch_eq, if_neg hne.1, if_neg hne.2.1, if_neg hne.2.2, if_pos hname,
    hkey]
  simp only [hdecr, hreply, bind, Except.bind, pure, Except.pure]

/-- What is replied fits the capacity: the value or `missing key` after `get`, and `ok` after the other
commands. -/
def ReplyFits (cap : ℕ) (m : Key → Option Bytes) (name : Bytes) (k : Key) : Prop :=
  name = GET ∧ ((m k).getD MISSING).length < cap ∨ name ∈ [SET, INCR, DECR] ∧ OK.length < cap

/-- A complete request whose reply fits returns. -/
theorem ReplyFits.returns {k : Key} (hfit : ReplyFits cap m (cstr a) k) (h : db.Inv hash)
    (hm : db.Reads m) (ho : Outbuf cap outbuf) (hts : Tokens inbuf ts) (ha : ts[2]? = some a)
    (hkey : ts[4]? = some key) (hval : cstr a = SET → ts[6]?.isSome) (hlen : key.length < 2 ^ 31)
    (hk : k.1 = cstr key) : ∃ r, commandServer hash db inbuf outbuf = .ok r := by
  rcases hfit with ⟨hget, hfit⟩ | ⟨hwrite, hcap⟩
  · obtain ⟨db', outbuf', hok, -⟩ :=
      commandServer_get h ho hts ha hget hkey hk (hm.found_eq k) hfit
    exact ⟨_, hok⟩
  · simp only [List.mem_cons, List.not_mem_nil, or_false] at hwrite
    rcases hwrite with hset | hincr | hdecr
    · obtain ⟨v, hv⟩ := Option.isSome_iff_exists.1 (hval hset)
      obtain ⟨db', outbuf', hok, -⟩ :=
        commandServer_set h hm ho hcap hts ha hset hkey (k := ⟨key, hlen⟩) rfl hv
      exact ⟨_, hok⟩
    · obtain ⟨db', outbuf', hok, -⟩ :=
        commandServer_incr h hm ho hcap hts ha hincr hkey (k := ⟨key, hlen⟩) rfl
      exact ⟨_, hok⟩
    · exact commandServer_decr h hm ho hcap hts ha hdecr hkey (k := ⟨key, hlen⟩) rfl

/-- A request of one of the four commands that has returned had a reply that fits. -/
theorem Handled.replyFits {db' : RedisDb} {outbuf' : Sds} {k : Key}
    (h : Handled hash cap db outbuf ts db' outbuf') (hm : db.Reads m) (ha : ts[2]? = some a)
    (hname : cstr a ∈ [GET, SET, INCR, DECR]) (hkey : ts[4]? = some key) (hk : k.1 = cstr key) :
    ReplyFits cap m (cstr a) k := by
  have hwrite : Outbuf cap outbuf' → outbuf'.content = OK ++ [lf] → cstr a ∈ [SET, INCR, DECR] →
      ReplyFits cap m (cstr a) k := by
    intro ho hc hmem
    have hle := ho.length_le
    rw [hc] at hle
    exact .inr ⟨hmem, hle⟩
  rcases h with ⟨ha', hn, hd, hk', -, ho, ht, hc⟩ | ⟨ha', hn, -, -, -, -, -, ho, hc⟩ |
    ⟨ha', hn, -, -, -, -, -, ho, hc⟩ | ⟨ha', hn, -, -, -, -, -, ho, hc⟩ | ⟨ha', hn, -, -⟩
  · obtain rfl := Option.some.inj (hkey.symm.trans hd)
    obtain rfl := Subtype.ext (hk'.trans hk.symm)
    rw [hm.found_eq] at ht
    have hle := ho.length_le
    rw [hc, ← Except.ok.inj ht, List.length_append] at hle
    exact .inl ⟨action_unique ha rfl ha' hn, hle⟩
  · exact hwrite ho hc (by simp [action_unique ha rfl ha' hn])
  · exact hwrite ho hc (by simp [action_unique ha rfl ha' hn])
  · exact hwrite ho hc (by simp [action_unique ha rfl ha' hn])
  · rw [action_unique ha' rfl ha rfl] at hn
    exact absurd hname hn

/-- What a command shows does not depend on the previous reply. -/
theorem observed_eq (hts : Tokens inbuf ts) (ha : ts[2]? = some a)
    (hname : cstr a ∈ [GET, SET, INCR, DECR]) (h1 : Outbuf cap outbuf1) (h2 : Outbuf cap outbuf2) :
    (commandServer hash db inbuf outbuf1).map observed
      = (commandServer hash db inbuf outbuf2).map observed := by
  rw [commandServer_eq hts ha, commandServer_eq hts ha, dispatch_eq, dispatch_eq]
  split_ifs with hget hset hincr hdecr
  · exact getCommand_congr h1 h2 _ _
  · exact observed_congr _ (reply_congr h1 h2 OK)
  · exact observed_congr _ (reply_congr h1 h2 OK)
  · exact observed_congr _ (reply_congr h1 h2 OK)
  · simp [hget, hset, hincr, hdecr] at hname

/-- Both runs return, with one keyspace and one reply. -/
def SameReply (hash : Bytes → UInt64) (db : RedisDb) (inbuf : Bytes) (outbuf1 outbuf2 : Sds) : Prop :=
  ∃ db' o1 o2, commandServer hash db inbuf outbuf1 = .ok (db', o1) ∧
    commandServer hash db inbuf outbuf2 = .ok (db', o2) ∧ o1.content = o2.content

/-- For a request with an action and a key, and with a value if the action is `set`: from all previous
contents of `outbuf` the request returns with the same reply and the same keyspace exactly when the
action is one of the four commands and the reply fits. -/
theorem reply_independent_iff (hash : Bytes → UInt64) (db : RedisDb) (m : Key → Option Bytes)
    (inbuf : Bytes) (ts : List Bytes) (a key : Bytes) (k : Key) (cap : ℕ) (hinv : db.Inv hash)
    (hm : db.Reads m) (hts : Tokens inbuf ts) (ha : ts[2]? = some a) (hkey : ts[4]? = some key)
    (hval : cstr a = SET → ts[6]?.isSome) (hlen : key.length < 2 ^ 31) (hk : k.1 = cstr key)
    (hcap : 0 < cap) :
    (∀ outbuf1 outbuf2 : Sds, Outbuf cap outbuf1 → Outbuf cap outbuf2 →
      SameReply hash db inbuf outbuf1 outbuf2) ↔ ReplyFits cap m (cstr a) k := by
  constructor
  · intro hsame
    obtain ⟨o1, o2, h1, h2, hne⟩ := exists_outbufs hcap
    obtain ⟨db', o1', o2', hok1, hok2, hcontent⟩ := hsame o1 o2 h1 h2
    by_cases hname : cstr a ∈ [GET, SET, INCR, DECR]
    · exact (handled_of_ok hinv h1 hts hok1).replyFits hm ha hname hkey hk
    · -- the two buffers are left as they were
      simp only [List.mem_cons, List.not_mem_nil, or_false, not_or] at hname
      obtain ⟨hget, hset, hincr, hdecr⟩ := hname
      have hother : ∀ o, commandServer hash db inbuf o = .ok ((newObject (newObject db).1).1, o) := by
        intro o
        rw [commandServer_eq hts ha, dispatch_eq, if_neg hget, if_neg hset, if_neg hincr, if_neg hdecr]
        rfl
      rw [hother, Except.ok.injEq, Prod.mk.injEq] at hok1 hok2
      rw [hok1.2, hok2.2] at hne
      exact absurd hcontent hne
  · intro hfit o1 o2 h1 h2
    obtain ⟨⟨db1, o1'⟩, hok1⟩ := hfit.returns hinv hm h1 hts ha hkey hval hlen hk
    obtain ⟨⟨db2, o2'⟩, hok2⟩ := hfit.returns hinv hm h2 hts ha hkey hval hlen hk
    have hname : cstr a ∈ [GET, SET, INCR, DECR] := by
      rcases hfit with ⟨hget, -⟩ | ⟨hwrite, -⟩
      · rw [hget]
        exact List.mem_cons_self ..
      · exact List.mem_cons_of_mem _ hwrite
    have heq : (commandServer hash db inbuf o1).map observed
        = (commandServer hash db inbuf o2).map observed := observed_eq hts ha hname h1 h2
    rw [hok1, hok2] at heq
    obtain ⟨rfl, hcontent⟩ := Prod.mk.inj (Except.ok.inj heq)
    exact ⟨db1, o1', o2', hok1, hok2, hcontent⟩

end Independent

/-- A `get` replies the same over two buffers full of different bytes. -/
theorem reply_independent_get :
    SameReply (fun _ => 0) createDb (ascii "*2 $3 get $3 foo".toList)
      (sdsnewlen (List.replicate MAX_LINE 0) MAX_LINE)
      (sdsnewlen (List.replicate MAX_LINE 7) MAX_LINE) := by
  have hts : Tokens (ascii "*2 $3 get $3 foo".toList)
      [ascii "*2".toList, ascii "$3".toList, GET, ascii "$3".toList, ascii "foo".toList] :=
    tokens_of_sdssplitargs (by decide +kernel)
  have hiff := reply_independent_iff (fun _ => 0) createDb (fun _ => none) _ _ GET
    (ascii "foo".toList) ⟨ascii "foo".toList, by decide⟩ MAX_LINE inv_createDb reads_createDb hts rfl rfl
    (by decide) (by decide) (by decide) (by decide)
  exact hiff.2 (.inl (by decide)) _ _ (outbuf_sdsnewlen (by simp) (by decide))
    (outbuf_sdsnewlen (by simp) (by decide))

/-- An unknown action with a key: the server sends the previous reply, whatever it was. -/
theorem reply_of_ping :
    Tokens (ascii "*2 $4 ping $1 x".toList)
        [ascii "*2".toList, ascii "$4".toList, ascii "ping".toList, ascii "$1".toList,
          ascii "x".toList] ∧
      ∃ outbuf1 outbuf2 : Sds, Outbuf MAX_LINE outbuf1 ∧ Outbuf MAX_LINE outbuf2 ∧
        (commandServer (fun _ => 0) createDb (ascii "*2 $4 ping $1 x".toList) outbuf1).map
          (fun r => r.2.content) = .ok (OK ++ [lf]) ∧
        (commandServer (fun _ => 0) createDb (ascii "*2 $4 ping $1 x".toList) outbuf2).map
          (fun r => r.2.content) = .ok (MISSING ++ [lf]) := by
  have hts : Tokens (ascii "*2 $4 ping $1 x".toList)
      [ascii "*2".toList, ascii "$4".toList, ascii "ping".toList, ascii "$1".toList,
        ascii "x".toList] := tokens_of_sdssplitargs (by decide +kernel)
  have hping : ∀ outbuf, commandServer (fun _ => 0) createDb (ascii "*2 $4 ping $1 x".toList) outbuf
      = .ok ((newObject (newObject createDb).1).1, outbuf) := by
    intro outbuf
    rw [commandServer_eq hts rfl, dispatch_eq, if_neg (by decide), if_neg (by decide),
      if_neg (by decide), if_neg (by decide)]
    rfl
  have ho : Outbuf MAX_LINE (sdsnewlen (List.replicate MAX_LINE 0) MAX_LINE) :=
    outbuf_sdsnewlen (by simp) (by decide)
  obtain ⟨outbuf1, -, ho1, hc1⟩ := ho.reply_of_lt (t := OK) (by decide)
  obtain ⟨outbuf2, -, ho2, hc2⟩ := ho.reply_of_lt (t := MISSING) (by decide)
  refine ⟨hts, outbuf1, outbuf2, ho1, ho2, ?_, ?_⟩
  · rw [hping]
    exact congrArg Except.ok hc1
  · rw [hping]
    exact congrArg Except.ok hc2

end RedisCounter
