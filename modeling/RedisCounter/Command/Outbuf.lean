import RedisCounter.Command.Serving

/-!
# The reply buffer stays where it is

`commandServer` drops the pointers `sdscpy` and `sdscatlen` return, so its caller's `outbuf` is valid
only as long as no reply moves the buffer. A reply is a stored value and a newline. A stored value is
a token behind six others of one read, or a counter, so there is always room for it.
-/

namespace RedisCounter

open Run

variable {hash : Bytes → UInt64} {db db' : RedisDb} {outbuf outbuf' : Sds} {p t out : Bytes}

/-! ## What returns has not moved the buffer -/

theorem reply_block (h : reply outbuf t = .ok outbuf') : outbuf'.block = outbuf.block := by
  unfold reply at h
  dsimp only at h
  split_ifs at h with hstay
  cases h
  exact hstay.2.trans hstay.1

theorem getCommand_block {cKey : Robj}
    (h : getCommand hash db cKey outbuf = .ok (db', outbuf')) : outbuf'.block = outbuf.block := by
  obtain ⟨d, -, h⟩ := bind_eq_ok h
  obtain ⟨k, -, h⟩ := bind_eq_ok h
  obtain ⟨⟨dict, ret⟩, -, h⟩ := bind_eq_ok h
  cases ret with
  | none =>
    obtain ⟨o, hreply, h⟩ := bind_eq_ok h
    cases h
    exact reply_block hreply
  | some ret =>
    obtain ⟨v, -, h⟩ := bind_eq_ok h
    obtain ⟨o, hreply, h⟩ := bind_eq_ok h
    cases h
    exact reply_block hreply

/-- A request of any kind that returns leaves `outbuf` in its block. -/
theorem commandServer_block (h : commandServer hash db p outbuf = .ok (db', outbuf')) :
    outbuf'.block = outbuf.block := by
  obtain ⟨ts, a, hts, ha⟩ := action_of_ok h
  rw [commandServer_eq hts ha, dispatch_eq] at h
  split_ifs at h
  · exact getCommand_block h
  · exact reply_block (ok_of_write_reply h).2
  · exact reply_block (ok_of_write_reply h).2
  · exact reply_block (ok_of_write_reply h).2
  · cases h
    rfl

theorem serve_block {s s' : Server} (h : serve hash s p = .ok (s', out)) :
    s'.2.block = s.2.block := commandServer_block (ok_of_serve h).1

/-! ## What is in the buffer fits it -/

theorem Outbuf.sdsalloc_eq {cap : ℕ} (h : Outbuf cap outbuf) : sdsalloc outbuf = cap :=
  (sdsalloc_of_ne_type5 h.type).trans h.alloc

theorem Outbuf.length_content_le {cap : ℕ} (h : Outbuf cap outbuf) :
    outbuf.content.length ≤ cap := by
  rw [h.wf.content_length, ← h.sdsalloc_eq]
  exact h.wf.len_le

/-- Every value that can be read fits `outbuf` with its newline. -/
theorem Serving.length_lt {s : Server} {m : Key → Option Bytes} (h : Serving hash s m) {k : Key}
    {o : Robj} (ho : s.1.get k = some o) (ht : cstrAt o.ptr = .ok t) :
    t.length + 1 ≤ sdsalloc s.2 := by
  have hread := h.reads k
  rw [ho, Option.map_some, ht] at hread
  obtain ⟨v, hv, heq⟩ := Option.map_eq_some_iff.1 hread.symm
  rw [h.outbuf.sdsalloc_eq, ← Except.ok.inj heq]
  exact h.fits k v hv

/-! ## Runs -/

/-- `outbuf` after some requests: in the block it was given in, and with room for every value. -/
structure Housed (hash : Bytes → UInt64) (block : ℕ) (s : Server) : Prop where
  serving : ∃ m, Serving hash s m
  block : s.2.block = block

theorem Housed.step {block : ℕ} {s : Server} (h : Housed hash block s) {r : Request}
    (hp : Complete p r) :
    ∃ s' out, serve hash s p = .ok (s', out) ∧ Housed hash block s' ∧ out.length ≤ MAX_LINE := by
  obtain ⟨m, hm⟩ := h.serving
  obtain ⟨s', out, m', hok, hm', -⟩ := hm.step hp
  refine ⟨s', out, hok, ⟨⟨m', hm'⟩, (serve_block hok).trans h.block⟩, ?_⟩
  rw [← (ok_of_serve hok).2]
  exact hm'.outbuf.length_content_le

/-- Every run of complete `set`, `get` and `incr` requests of at most `MAX_LINE` bytes succeeds: no
`sdscpy` and no `sdscatlen` moves `outbuf`. After it the buffer is in its first block, with its first
allocation, in which every stored value fits with a newline; and so did every reply. -/
theorem outbuf_stays (hash : Bytes → UInt64) (outbuf : Sds) (ps : List Bytes)
    (ho : Outbuf MAX_LINE outbuf) (hps : ∀ p ∈ ps, ∃ r, Complete p r) :
    ∃ s outs, run (serve hash) (createDb, outbuf) ps = .ok (s, outs) ∧
      s.2.block = outbuf.block ∧ sdsalloc s.2 = MAX_LINE ∧
      (∀ k o t, s.1.get k = some o → cstrAt o.ptr = .ok t → t.length + 1 ≤ sdsalloc s.2) ∧
      ∀ out ∈ outs, out.length ≤ MAX_LINE := by
  have hstart : Housed hash outbuf.block (createDb, outbuf) := ⟨⟨_, serving_createDb ho⟩, rfl⟩
  obtain ⟨s, outs, hrun, hs, houts⟩ := ok_run_outs _ _ (fun s p hs ⟨r, hr⟩ => hs.step hr) hps hstart
  obtain ⟨m, hm⟩ := hs.serving
  exact ⟨s, outs, hrun, hs.block, hm.outbuf.sdsalloc_eq, fun k o t ho ht => hm.length_lt ho ht,
    houts⟩

/-- A value with a quoted newline, and the reply that repeats it. -/
theorem outbuf_stays_quoted :
    ∃ s outs, run (serve fun _ => 0) (createDb, sdsnewlen (List.replicate MAX_LINE 0) MAX_LINE)
        [ascii "*3 $3 set $1 k $3 \"4\\n2\"".toList, ascii "*2 $3 get $1 k".toList] = .ok (s, outs) ∧
      s.2.block = 0 := by
  have hset : Tokens (ascii "*3 $3 set $1 k $3 \"4\\n2\"".toList)
      [ascii "*3".toList, ascii "$3".toList, SET, ascii "$1".toList, ascii "k".toList,
        ascii "$3".toList, ascii "4\n2".toList] := tokens_of_sdssplitargs (by decide +kernel)
  have hget : Tokens (ascii "*2 $3 get $1 k".toList)
      [ascii "*2".toList, ascii "$3".toList, GET, ascii "$1".toList, ascii "k".toList] :=
    tokens_of_sdssplitargs (by decide +kernel)
  obtain ⟨s, outs, hrun, hblock, -⟩ := outbuf_stays (fun _ => 0)
    (sdsnewlen (List.replicate MAX_LINE 0) MAX_LINE)
    [ascii "*3 $3 set $1 k $3 \"4\\n2\"".toList, ascii "*2 $3 get $1 k".toList]
    (outbuf_sdsnewlen (by simp) (by decide))
    (List.forall_mem_cons.2 ⟨⟨_, .set hset rfl (by decide) rfl rfl, rfl, by decide⟩,
      List.forall_mem_singleton.2 ⟨_, .get hget rfl (by decide) rfl, rfl, by decide⟩⟩)
  exact ⟨s, outs, hrun, hblock⟩

end RedisCounter
