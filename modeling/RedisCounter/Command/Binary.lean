import RedisCounter.Command.Serving

/-!
# Keys and values of any bytes

`set`, `incr` and `decr` use the whole key and keep the whole value, while `get` looks up the key's
C string and replies the value's C string. For a key and a value without NUL the two agree, whatever
bytes the other requests of the run hold; with a NUL in either they do not.
-/

namespace RedisCounter

open Run

variable {hash : Bytes → UInt64}

/-- A run of complete `set`, `get` and `incr` requests never fails. -/
theorem ok_of_counted {outbuf : Sds} (ho : Outbuf MAX_LINE outbuf) {ps : List Bytes}
    (h : ∀ p ∈ ps, ∃ r, Counted p r) :
    ∃ s outs, run (serve hash) (createDb, outbuf) ps = .ok (s, outs) := by
  have hstep : ∀ s p, (∃ m, Serving hash s m) → (∃ r, Counted p r) →
      ∃ s' reply, serve hash s p = .ok (s', reply) ∧ ∃ m', Serving hash s' m' := by
    intro s p hs hp
    obtain ⟨m, hm⟩ := hs
    obtain ⟨r, hr⟩ := hp
    obtain ⟨s', reply, m', hok, hm', -⟩ := hm.step hr.complete
    exact ⟨s', reply, hok, m', hm'⟩
  obtain ⟨s, outs, hrun, -⟩ := ok_run _ hstep h ⟨_, serving_createDb ho⟩
  exact ⟨s, outs, hrun⟩

/-- `get` of a key without NUL replies what its object holds. -/
theorem Sane.get_reply {s : Server} (h : Sane hash s) {p key t : Bytes} (hp : IsRequest p (.get key))
    (hzero : (0 : UInt8) ∉ key) {k : Key} (hk : k.1 = key) (ht : found (s.1.get k) = .ok t)
    (hfit : t.length < MAX_LINE) : ∃ s', serve hash s p = .ok (s', t ++ [lf]) := by
  rcases hp with _ | ⟨hts, ha, hname, hkey⟩
  have hkc : k.1 = cstr key := by rw [hk, cstr_of_zero_not_mem hzero]
  obtain ⟨db', outbuf', hok, -, -, hcontent⟩ :=
    commandServer_get h.inv h.outbuf hts ha hname hkey hkc ht hfit
  exact ⟨(db', outbuf'), serve_of_ok hok hcontent⟩

/-- For a key and a value without NUL `get` replies exactly the value last set, and `missing key` for
a key no request wrote: in every keyspace that a run of requests of any kind has reached, with any
requests that do not write the key in between. Runs of complete `set`, `get` and `incr` requests, of
any bytes, are among them: they never fail. -/
theorem get_of_set (hash : Bytes → UInt64) (outbuf : Sds) (key pget : Bytes)
    (ho : Outbuf MAX_LINE outbuf) (hzero : (0 : UInt8) ∉ key) (hget : IsRequest pget (.get key))
    (hshort : pget.length < MAX_LINE) :
    (∀ (past between : List Bytes) (pset val : Bytes) (s s' : Server) (outs outs' : List Bytes),
      run (serve hash) (createDb, outbuf) past = .ok (s, outs) →
      IsRequest pset (.set key val) → pset.length < MAX_LINE → (0 : UInt8) ∉ val →
      (∀ p ∈ between, ¬ Writes p key) →
      run (serve hash) s (pset :: between) = .ok (s', outs') →
      ∃ s'', serve hash s' pget = .ok (s'', val ++ [lf])) ∧
    (∀ (past : List Bytes) (s : Server) (outs : List Bytes),
      run (serve hash) (createDb, outbuf) past = .ok (s, outs) → (∀ p ∈ past, ¬ Writes p key) →
      ∃ s'', serve hash s pget = .ok (s'', MISSING ++ [lf])) ∧
    ∀ ps : List Bytes, (∀ p ∈ ps, ∃ r, Counted p r) →
      ∃ s outs, run (serve hash) (createDb, outbuf) ps = .ok (s, outs) := by
  refine ⟨?_, ?_, fun ps => ok_of_counted ho⟩
  · intro past between pset val s s' outs outs' hpast hset hshort' hval hbetween hrun
    have hs := ((sane_createDb ho).run hpast).1
    obtain ⟨s1, reply, outs1, hstep, hrest, -⟩ := run_cons_eq_ok hrun
    obtain ⟨k, hk, o, hobj, hptr⟩ := hs.bound_of_set hset hstep
    obtain ⟨hs', hframe⟩ := (hs.step hstep).1.run hrest
    -- nothing in between writes the key, so its object is still the one that was set
    have hread : found (s'.1.get k) = .ok val := by
      rw [hframe k fun p hp => hk ▸ hbetween p hp, hobj]
      show cstrAt o.ptr = .ok val
      rw [hptr, (wf_sdsOf val).cstrAt, content_sdsOf, cstr_of_zero_not_mem hval]
    exact hs'.get_reply hget hzero hk hread (hset.length_val.trans_lt hshort')
  · intro past s outs hpast hnever
    obtain ⟨hs, hframe⟩ := (sane_createDb ho).run hpast
    have hlen : key.length < 2 ^ 31 := (hget.length_key.trans_lt hshort).trans (by decide)
    have hread : found (s.1.get ⟨key, hlen⟩) = .ok MISSING := by
      rw [hframe ⟨key, hlen⟩ hnever]
      rfl
    exact hs.get_reply hget hzero rfl hread (by decide)

/-- A key with a blank and a value with a newline, both quoted. -/
theorem get_of_set_quoted :
    ∃ s s' : Server, ∃ outs,
      run (serve fun _ => 0) (createDb, sdsnewlen (List.replicate MAX_LINE 0) MAX_LINE)
        [ascii "*3 $3 set $3 'a b' $3 \"4\\n2\"".toList] = .ok (s, outs) ∧
      serve (fun _ => 0) s (ascii "*2 $3 get $3 'a b'".toList)
        = .ok (s', ascii "4\n2\n".toList) := by
  have hset : IsRequest (ascii "*3 $3 set $3 'a b' $3 \"4\\n2\"".toList)
      (.set (ascii "a b".toList) (ascii "4\n2".toList)) := by
    have hts : Tokens (ascii "*3 $3 set $3 'a b' $3 \"4\\n2\"".toList)
        [ascii "*3".toList, ascii "$3".toList, SET, ascii "$3".toList, ascii "a b".toList,
          ascii "$3".toList, ascii "4\n2".toList] := tokens_of_sdssplitargs (by decide +kernel)
    exact .set hts rfl (by decide) rfl rfl
  have hget : IsRequest (ascii "*2 $3 get $3 'a b'".toList) (.get (ascii "a b".toList)) := by
    have hts : Tokens (ascii "*2 $3 get $3 'a b'".toList)
        [ascii "*2".toList, ascii "$3".toList, GET, ascii "$3".toList, ascii "a b".toList] :=
      tokens_of_sdssplitargs (by decide +kernel)
    exact .get hts rfl (by decide) rfl
  obtain ⟨hfirst, -, htotal⟩ := get_of_set (fun _ => 0)
    (sdsnewlen (List.replicate MAX_LINE 0) MAX_LINE) (ascii "a b".toList)
    (ascii "*2 $3 get $3 'a b'".toList) (outbuf_sdsnewlen (by simp) (by decide)) (by decide) hget
    (by decide)
  obtain ⟨s, outs, hrun⟩ := htotal [ascii "*3 $3 set $3 'a b' $3 \"4\\n2\"".toList]
    (by simpa using ⟨_, hset, rfl, by decide⟩)
  obtain ⟨s', hreply⟩ := hfirst [] [] _ _ _ s [] outs rfl hset (by decide) (by decide) (by simp) hrun
  exact ⟨s, s', outs, hrun, hreply⟩

/-- A key with a NUL is set and then reported missing: the request binds the three bytes `a`, NUL,
`b`, and `get` looks up `a`. -/
theorem get_of_set_nul :
    IsRequest (ascii "*3 $3 set $3 \"a\\x00b\" $1 7".toList) (.set [97, 0, 98] [55]) ∧
      IsRequest (ascii "*2 $3 get $3 \"a\\x00b\"".toList) (.get [97, 0, 98]) ∧
      (run (serve fun _ => 0) (createDb, sdsnewlen (List.replicate MAX_LINE 0) MAX_LINE)
        [ascii "*3 $3 set $3 \"a\\x00b\" $1 7".toList,
          ascii "*2 $3 get $3 \"a\\x00b\"".toList]).map Prod.snd
        = .ok [OK ++ [lf], MISSING ++ [lf]] ∧ MISSING ++ [lf] ≠ [55] ++ [lf] := by
  have hset : Tokens (ascii "*3 $3 set $3 \"a\\x00b\" $1 7".toList)
      [ascii "*3".toList, ascii "$3".toList, SET, ascii "$3".toList, [97, 0, 98], ascii "$1".toList,
        [55]] := tokens_of_sdssplitargs (by decide +kernel)
  have hget : Tokens (ascii "*2 $3 get $3 \"a\\x00b\"".toList)
      [ascii "*2".toList, ascii "$3".toList, GET, ascii "$3".toList, [97, 0, 98]] :=
    tokens_of_sdssplitargs (by decide +kernel)
  exact ⟨.set hset rfl (by decide) rfl rfl, .get hget rfl (by decide) rfl, by decide +kernel,
    by decide⟩

end RedisCounter
