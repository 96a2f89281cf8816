import RedisCounter.Command.Serving

/-!
# What a value object holds, from the requests before

Without `decr` the object of a key was made by the last request that wrote the key: by a `set`, whose
value token it holds, or by an `incr`, which wrote the digits of a counter into an empty string. The
first kind is a well-formed sds. The second is not: nothing records the digits in the header.
-/

namespace RedisCounter

open Run Decimal

variable {hash : Bytes → UInt64}

def Request.writes : Request → Bool
  | .get _ => false
  | _ => true

/-- The last request that wrote the key. -/
def lastWrite (key : Bytes) (past : List Request) : Option Request :=
  (past.filter fun r => r.writes && r.key == key).getLast?

theorem lastWrite_append (key : Bytes) (past : List Request) (r : Request) :
    lastWrite key (past ++ [r]) = if r.writes ∧ r.key = key then some r else lastWrite key past := by
  unfold lastWrite
  rw [List.filter_append]
  by_cases h : r.writes ∧ r.key = key
  · rw [if_pos h, List.filter_cons_of_pos (by simpa using h)]
    simp
  · rw [if_neg h, List.filter_cons_of_neg (by simpa using h)]
    simp

/-- The last write of a key is a write of that key. -/
theorem writes_of_lastWrite {key : Bytes} {past : List Request} {r : Request}
    (h : lastWrite key past = some r) : r ∈ past ∧ r.key = key := by
  have hmem := List.mem_of_getLast? h
  rw [List.mem_filter, Bool.and_eq_true, beq_iff_eq] at hmem
  exact ⟨hmem.1, hmem.2.2⟩

theorem lastWrite_of_ne {key : Bytes} {past : List Request} {r : Request} (h : r.key ≠ key) :
    lastWrite key (past ++ [r]) = lastWrite key past := by
  rw [lastWrite_append, if_neg fun hr => h hr.2]

/-! ## Objects and the requests that made them -/

/-- The object of a key whose last write this is. -/
inductive Stored : Option Request → Option Robj → Prop
  | unbound : Stored none none
  | set {key val : Bytes} {o : Robj} (ho : o.ptr = .sds (sdsOf val) 0) :
      Stored (some (.set key val)) (some o)
  | incr {key : Bytes} {z : ℤ} {o : Robj} (hmin : LONG_MIN ≤ z) (hmax : z ≤ LONG_MAX)
      (ho : o.ptr = .sds (counterSds z) 0) : Stored (some (.incr key)) (some o)

/-- The server after some requests: every object is the one its key's last write made. -/
structure Tracked (hash : Bytes → UInt64) (past : List Request) (s : Server) : Prop where
  sane : Sane hash s
  stored : ∀ k : Key, Stored (lastWrite k.1 past) (s.1.get k)

theorem tracked_createDb {outbuf : Sds} (h : Outbuf MAX_LINE outbuf) :
    Tracked hash [] (createDb, outbuf) where
  sane := sane_createDb h
  stored _ := .unbound

theorem incrPtr_eq_ok {found : Option Robj} {ptr : VoidPtr} (h : RedisDb.incrPtr found = .ok ptr) :
    ∃ z, LONG_MIN ≤ z ∧ z ≤ LONG_MAX ∧ ptr = .sds (counterSds z) 0 := by
  rcases found with _ | o
  · exact ⟨1, by decide, by decide, (Except.ok.inj h).symm⟩
  · obtain ⟨t, -, h⟩ := bind_eq_ok h
    exact ⟨_, LONG_MIN_le_wrapLong _, wrapLong_le_LONG_MAX _, (Except.ok.inj h).symm⟩

section Tracked

variable {past : List Request} {s s' : Server} {p reply : Bytes} {r : Request}

/-- A request that binds its key, and no other. -/
theorem Tracked.bound (h : Tracked hash past s) (hsane : Sane hash s') {k : Key} {o : Robj}
    (hdb : RedisDb.Bound hash s.1 k o s'.1) (hw : r.writes) (hk : r.key = k.1)
    (ho : Stored (some r) (some o)) : Tracked hash (past ++ [r]) s' where
  sane := hsane
  stored k' := by
    rw [hdb.get]
    rcases eq_or_ne k' k with rfl | hne
    · rw [Function.update_self, lastWrite_append, if_pos ⟨hw, hk⟩]
      exact ho
    · have hne' : r.key ≠ k'.1 := fun heq => hne (Subtype.ext (heq.symm.trans hk))
      rw [Function.update_of_ne hne, lastWrite_of_ne hne']
      exact h.stored k'

/-- One request. -/
theorem Tracked.step (h : Tracked hash past s) (hp : IsRequest p r) (hr : r.isDecr = false)
    (hok : serve hash s p = .ok (s', reply)) : Tracked hash (past ++ [r]) s' := by
  have hsane := (h.sane.step hok).1
  rcases hp with ⟨hts, ha, hname, hkey, hval⟩ | ⟨hts, ha, hname, hkey⟩ | ⟨hts, ha, hname, hkey⟩ | _
  · obtain ⟨d, hd, k, hk, o, -, hptr, hdb⟩ := (h.sane.handled hts hok).of_set ha hname
    obtain rfl := Option.some.inj (hkey.symm.trans hd)
    rw [hval] at hptr
    exact h.bound hsane hdb rfl hk.symm (.set hptr)
  · obtain ⟨k, -, hdb, -⟩ := (h.sane.handled hts hok).of_get ha hname hkey
    refine ⟨hsane, fun k' => ?_⟩
    rw [lastWrite_append, if_neg fun hw => Bool.false_ne_true hw.1, hdb.get]
    exact h.stored k'
  · obtain ⟨d, hd, k, hk, o, hptr, hdb⟩ := (h.sane.handled hts hok).of_incr ha hname
    obtain rfl := Option.some.inj (hkey.symm.trans hd)
    obtain ⟨z, hmin, hmax, ho⟩ := incrPtr_eq_ok hptr
    exact h.bound hsane hdb rfl hk.symm (.incr hmin hmax ho)
  · cases hr

end Tracked

/-- Every run of requests without `decr` that returns. -/
theorem tracked_run {outbuf : Sds} (ho : Outbuf MAX_LINE outbuf) {ps : List Bytes}
    {rs : List Request} (hps : List.Forall₂ (fun p r => IsRequest p r ∧ r.isDecr = false) ps rs)
    {s : Server} {outs : List Bytes} (hrun : run (serve hash) (createDb, outbuf) ps = .ok (s, outs)) :
    Tracked hash rs s := by
  have hrun' := history_run (Tracked hash) (fun _ _ _ => True)
    (fun past s i r s' o h hi hok => ⟨h.step hi.1 hi.2 hok, trivial⟩) hps (tracked_createDb ho) hrun
  exact hrun'.1

/-! ## Headers of stored strings -/

/-- The pointer of an object is an sds whose header agrees with its content: it is well formed, its
length is the one `strlen` finds, and a copy, a comparison and an append see the string that `strlen`
and `atol` see. -/
structure HeaderAgrees (o : Robj) (s : Sds) : Prop where
  ptr : o.ptr = .sds s 0
  wf : s.Wf
  len : sdslen s = strlen s.buf
  dup : (sdsdup s).content = cstr s.buf
  cmp : ∀ t : Sds, t.Wf → (sdscmp s t = 0 ↔ cstr s.buf = t.content)
  cat : ∀ t, (sdscatlen s t).content = cstr s.buf ++ t

/-- A well-formed string without NUL. -/
theorem headerAgrees_of_wf {o : Robj} {s : Sds} (ho : o.ptr = .sds s 0) (h : s.Wf)
    (hzero : (0 : UInt8) ∉ s.content) : HeaderAgrees o s := by
  have hc : cstr s.buf = s.content := h.cstr_buf.trans (cstr_of_zero_not_mem hzero)
  refine ⟨ho, h, ?_, ?_, fun t ht => ?_, fun t => ?_⟩
  · rw [strlen, hc, h.content_length]
    rfl
  · rw [h.content_sdsdup, hc]
  · rw [sdscmp_eq_zero_iff h ht, hc]
  · rw [h.content_sdscatlen, hc]

/-- A counter's digits are not in its length. -/
theorem not_headerAgrees_counterSds {o : Robj} {s : Sds} {z : ℤ} (hmin : LONG_MIN ≤ z)
    (hmax : z ≤ LONG_MAX) (ho : o.ptr = .sds (counterSds z) 0) : ¬ HeaderAgrees o s := by
  intro h
  obtain ⟨rfl, -⟩ := VoidPtr.sds.inj (h.ptr.symm.trans ho)
  have hbuf : cstr (counterSds z).buf = intText z := by
    rw [counterSds]
    dsimp only
    rw [sdsll2str_spec _ hmin hmax, cstr_intText_append]
  -- the header is the one of the empty string
  have hlen : sdslen (counterSds z) = 0 := rfl
  have hnil : intText z = [] := by
    rw [← hbuf]
    exact List.length_eq_zero_iff.1 (h.len.symm.trans hlen)
  exact intText_ne_nil z hnil

/-- In every keyspace that a run of `set` requests, with values without NUL, of `get` and of `incr`
requests has reached: every value's header agrees with its content exactly when no key was last
written by an `incr`. -/
theorem headerAgrees_iff (hash : Bytes → UInt64) (outbuf : Sds) (ps : List Bytes) (rs : List Request)
    (s : Server) (outs : List Bytes) (ho : Outbuf MAX_LINE outbuf)
    (hps : List.Forall₂ (fun p r => IsRequest p r ∧ r.isDecr = false) ps rs)
    (hvals : ∀ key val, .set key val ∈ rs → (0 : UInt8) ∉ val)
    (hrun : run (serve hash) (createDb, outbuf) ps = .ok (s, outs)) :
    (∀ k o, s.1.get k = some o → ∃ t, HeaderAgrees o t) ↔
      ∀ k : Key, lastWrite k.1 rs ≠ some (.incr k.1) := by
  have h := tracked_run ho hps hrun
  constructor
  · intro hall k hlast
    have hk := h.stored k
    rw [hlast] at hk
    generalize hget : s.1.get k = found at hk
    cases hk with
    | incr hmin hmax hptr =>
      obtain ⟨t, ht⟩ := hall k _ hget
      exact not_headerAgrees_counterSds hmin hmax hptr ht
  · intro hnone k o hget
    have hk := h.stored k
    rw [hget] at hk
    generalize hlast : lastWrite k.1 rs = last at hk
    cases hk with
    | @set key val _ hptr =>
      have hzero := hvals key val (writes_of_lastWrite hlast).1
      exact ⟨_, headerAgrees_of_wf hptr (wf_sdsOf val) (by rwa [content_sdsOf])⟩
    | @incr key z _ hmin hmax hptr =>
      obtain rfl : key = k.1 := (writes_of_lastWrite hlast).2
      exact absurd hlast (hnone k)

/-- A key set to 5: its header agrees. -/
theorem headerAgrees_five :
    ∃ s outs, run (serve fun _ => 0) (createDb, sdsnewlen (List.replicate MAX_LINE 0) MAX_LINE)
        [Request.wire (.set [97] [53])] = .ok (s, outs) ∧
      ∀ k o, s.1.get k = some o → ∃ t, HeaderAgrees o t := by
  have ho : Outbuf MAX_LINE (sdsnewlen (List.replicate MAX_LINE 0) MAX_LINE) :=
    outbuf_sdsnewlen (by simp) (by decide)
  have hset : IsRequest (Request.wire (.set [97] [53])) (.set [97] [53]) :=
    isRequest_wire (by decide +kernel)
  have hstart : Serving (fun _ => 0) (createDb, sdsnewlen (List.replicate MAX_LINE 0) MAX_LINE)
      fun _ => none := serving_createDb ho
  obtain ⟨s, hok, -⟩ := hstart.set hset (by decide) (k := ⟨[97], by decide⟩) rfl
  have hrun := run_cons_ok hok []
  refine ⟨s, _, hrun, ?_⟩
  have hiff := headerAgrees_iff (fun _ => 0) (sdsnewlen (List.replicate MAX_LINE 0) MAX_LINE)
    [Request.wire (.set [97] [53])] [.set [97] [53]] s _ ho (.cons ⟨hset, rfl⟩ .nil) (by simp) hrun
  apply hiff.2
  intro k hlast
  cases List.mem_singleton.1 (writes_of_lastWrite hlast).1

/-- One `incr` on an empty keyspace stores a string whose header says 0 bytes, with room for 0, and
which holds the digit 1. -/
theorem headerAgrees_incr :
    (run (serveRequest fun _ => 0) (createDb, sdsnewlen (List.replicate MAX_LINE 0) MAX_LINE)
        [.incr [97]]).map (fun r => r.1.1.get ⟨[97], by decide⟩)
        = .ok (some ⟨2, .sds (counterSds 1) 0⟩) ∧
      sdslen (counterSds 1) = 0 ∧ sdsalloc (counterSds 1) = 0 ∧ strlen (counterSds 1).buf = 1 ∧
      ∀ t, ¬ HeaderAgrees ⟨2, .sds (counterSds 1) 0⟩ t := by
  refine ⟨by decide +kernel, rfl, rfl, by decide +kernel, fun t => ?_⟩
  exact not_headerAgrees_counterSds (by decide) (by decide) rfl

end RedisCounter
