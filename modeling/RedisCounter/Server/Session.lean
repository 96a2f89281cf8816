import RedisCounter.Command.History

/-!
# A client and the server, turn by turn

`str_cli` sends a command, reads one line and prints it, and so on. The server sends what is in
`outbuf`: a value, which may hold any byte but NUL, and a newline. A value with a newline of its own
makes two lines of one reply, and from then on the client prints the rest of one reply in place of the
next.
-/

namespace RedisCounter

open Run

variable {hash : Bytes → UInt64}

/-! ## The client -/

/-- The loop of `readline`, with the number of turns that are left. -/
def readlineLoop : ℕ → Bytes → Option (Bytes × Bytes)
  | 0, stream => some ([], stream)
  | _ + 1, [] => none
  | n + 1, c :: stream =>
    if c = lf then some ([c], stream)
    else (readlineLoop n stream).map fun x => (c :: x.1, x.2)

/-- `readline(fd, vptr, maxlen)`, from the bytes on their way to the client: the line, and the bytes
that are left; `none` while `read` waits for more. The connection stays open, so no `read` ends or
fails. -/
def readline (maxlen : ℕ) (stream : Bytes) : Option (Bytes × Bytes) :=
  readlineLoop (maxlen - 1) stream

/-- The server, and the bytes it has sent and the client has not read. -/
abbrev Session := Server × Bytes

/-- One turn of `str_cli`: its command reaches the server as the bytes `p`, the server writes all of
`outbuf`, and the client reads a line and prints it up to its NUL. What comes out is the reply and the
line printed. -/
def cliTurn (hash : Bytes → UInt64) (s : Session) (p : Bytes) :
    Except Fault (Session × (Bytes × Option Bytes)) := do
  let (server, reply) ← serve hash s.1 p
  match readline MAX_LINE (s.2 ++ reply) with
  | none => pure ((server, s.2 ++ reply), reply, none)
  | some (recvline, stream) => pure ((server, stream), reply, some (cstr recvline))

/-! ## Lines -/

/-- Not empty, with exactly one newline, which is the last byte. -/
def OneLine (reply : Bytes) : Prop :=
  reply ≠ [] ∧ reply.count lf = 1 ∧ reply.getLast? = some lf

instance (reply : Bytes) : Decidable (OneLine reply) :=
  inferInstanceAs (Decidable (reply ≠ [] ∧ reply.count lf = 1 ∧ reply.getLast? = some lf))

theorem oneLine_append_lf {t : Bytes} : OneLine (t ++ [lf]) ↔ lf ∉ t := by
  simp [OneLine, List.count_eq_zero]

/-- A line that the buffer can hold is read whole, with its newline. -/
theorem readlineLoop_append {n : ℕ} {d : Bytes} (h : lf ∉ d) (hn : d.length < n) (r : Bytes) :
    readlineLoop n (d ++ lf :: r) = some (d ++ [lf], r) := by
  induction d generalizing n with
  | nil =>
    obtain ⟨n, rfl⟩ := Nat.exists_eq_succ_of_ne_zero hn.ne'
    rfl
  | cons c d ih =>
    obtain ⟨n, rfl⟩ := Nat.exists_eq_succ_of_ne_zero (Nat.ne_zero_of_lt hn)
    rw [List.mem_cons, not_or] at h
    have hd := ih h.2 (Nat.lt_of_succ_lt_succ hn)
    rw [List.cons_append, readlineLoop, if_neg (Ne.symm h.1), hd]
    rfl

/-- A stream that ends with a newline does not keep the client waiting. -/
theorem readlineLoop_of_ends (n : ℕ) (d : Bytes) : ∃ x, readlineLoop n (d ++ [lf]) = some x := by
  induction n generalizing d with
  | zero => exact ⟨([], d ++ [lf]), rfl⟩
  | succ n ih =>
    rcases d with _ | ⟨c, d⟩
    · exact ⟨([lf], []), rfl⟩
    · rw [List.cons_append, readlineLoop]
      split_ifs
      · exact ⟨([c], d ++ [lf]), rfl⟩
      · obtain ⟨x, hread⟩ := ih d
        exact ⟨(c :: x.1, x.2), by rw [hread, Option.map_some]⟩

/-! ## Replies -/

/-- A request that writes is answered `ok`. -/
theorem Sane.reply_ok {s s' : Server} (h : Sane hash s) {p reply : Bytes} {r : Request}
    (hp : IsRequest p r) (hw : r.writes) (hok : serve hash s p = .ok (s', reply)) :
    reply = OK ++ [lf] := by
  have hreply := (ok_of_serve hok).2
  obtain ⟨ts, a, hts, ha, hname⟩ : ∃ ts a, Tokens p ts ∧ ts[2]? = some a ∧
      cstr a ∈ [SET, INCR, DECR] := by
    rcases hp with ⟨hts, ha, hname, -⟩ | _ | ⟨hts, ha, hname, -⟩ | ⟨hts, ha, hname, -⟩
    · exact ⟨_, _, hts, ha, by simp [hname]⟩
    · cases hw
    · exact ⟨_, _, hts, ha, by simp [hname]⟩
    · exact ⟨_, _, hts, ha, by simp [hname]⟩
  rcases h.handled hts hok with ⟨ha', hget, -⟩ | ⟨-, -, -, -, -, -, -, -, hc⟩ |
    ⟨-, -, -, -, -, -, -, -, hc⟩ | ⟨-, -, -, -, -, -, -, -, hc⟩ | ⟨ha', hother, -, -⟩
  · rw [action_unique ha rfl ha' hget] at hname
    exact absurd hname (by decide)
  · exact hreply.symm.trans hc
  · exact hreply.symm.trans hc
  · exact hreply.symm.trans hc
  · rw [action_unique ha' rfl ha rfl] at hother
    exact absurd (List.mem_cons_of_mem _ hname) hother

theorem Sane.reply_ends {s s' : Server} (h : Sane hash s) {p reply : Bytes} {r : Request}
    (hp : IsRequest p r) (hok : serve hash s p = .ok (s', reply)) : ∃ t, reply = t ++ [lf] := by
  cases r with
  | get key =>
    obtain ⟨k, -, -, t, -, hreply⟩ := h.of_get hp hok
    exact ⟨t, hreply⟩
  | set key val => exact ⟨OK, h.reply_ok hp rfl hok⟩
  | incr key => exact ⟨OK, h.reply_ok hp rfl hok⟩
  | decr key => exact ⟨OK, h.reply_ok hp rfl hok⟩

/-- A `get` of a key that was last set to a value with a newline in its C string. -/
def Request.ReadsLf (past : List Request) : Request → Prop
  | .get key => ∃ k val, lastWrite (cstr key) past = some (.set k val) ∧ lf ∈ cstr val
  | _ => False

/-- Every `set` so far was short enough for one read. -/
def ShortVals (past : List Request) : Prop :=
  ∀ key val, .set key val ∈ past → val.length + 6 ≤ MAX_LINE

/-- What the reply to `r` is: a text that a line can hold, with a newline in it exactly when `r` reads
one. -/
def RepliesTo (past : List Request) (r : Request) (reply : Bytes) : Prop :=
  ∃ t, reply = t ++ [lf] ∧ (0 : UInt8) ∉ t ∧ t.length < MAX_LINE - 1 ∧ (lf ∈ t ↔ r.ReadsLf past)

/-- The text of a counter has no newline. -/
theorem lf_not_mem_intText (z : ℤ) : lf ∉ Decimal.intText z := by
  intro hmem
  rcases Decimal.eq_or_isDigit_of_mem_intText hmem with heq | hdigit
  · exact absurd heq (by decide)
  · exact absurd hdigit (by decide)

theorem Tracked.repliesTo {past : List Request} {s s' : Server} (h : Tracked hash past s)
    (hshort : ShortVals past) {p reply : Bytes} {r : Request} (hp : Complete p r)
    (hok : serve hash s p = .ok (s', reply)) : RepliesTo past r reply := by
  have hOK : r.writes → RepliesTo past r reply := by
    intro hw
    refine ⟨OK, h.sane.reply_ok hp.isRequest hw hok, by decide, by decide, ?_⟩
    cases r with
    | get key => cases hw
    | set key val => exact ⟨fun hlf => absurd hlf (by decide), False.elim⟩
    | incr key => exact ⟨fun hlf => absurd hlf (by decide), False.elim⟩
    | decr key => exact ⟨fun hlf => absurd hlf (by decide), False.elim⟩
  cases r with
  | set key val => exact hOK rfl
  | incr key => exact hOK rfl
  | decr key => exact hOK rfl
  | get key =>
    obtain ⟨k, hk, -, t, ht, hreply⟩ := h.sane.of_get hp.isRequest hok
    have hzero : (0 : UInt8) ∉ t := by
      rw [← cstr_of_found ht]
      exact zero_not_mem_cstr t
    have hstored := h.stored k
    refine ⟨t, hreply, hzero, ?_⟩
    rw [Request.ReadsLf, ← hk]
    -- what the key's last write left is what is replied
    generalize hlast : lastWrite k.1 past = last at hstored ⊢
    generalize s.1.get k = found at hstored ht
    cases hstored with
    | unbound =>
      obtain rfl : MISSING = t := Except.ok.inj ht
      refine ⟨by decide, fun hlf => absurd hlf (by decide), ?_⟩
      rintro ⟨k', val, hset, -⟩
      cases hset
    | @set key' val o ho =>
      have hread : cstrAt o.ptr = .ok (cstr val) := by
        rw [ho, (wf_sdsOf val).cstrAt, content_sdsOf]
      obtain rfl : cstr val = t := Except.ok.inj (hread.symm.trans ht)
      have hval := hshort key' val (writes_of_lastWrite hlast).1
      have hle := length_cstr_le val
      refine ⟨by omega, fun hlf => ⟨key', val, rfl, hlf⟩, ?_⟩
      rintro ⟨k', val', hset, hlf⟩
      cases hset
      exact hlf
    | @incr key' z o hmin hmax ho =>
      have hread : cstrAt o.ptr = .ok (Decimal.intText z) := by
        rw [ho, cstrAt_counterSds hmin hmax]
      obtain rfl : Decimal.intText z = t := Except.ok.inj (hread.symm.trans ht)
      have hlen := length_intText_le hmin hmax
      refine ⟨hlen.trans_lt (by decide), fun hlf => absurd hlf (lf_not_mem_intText z), ?_⟩
      rintro ⟨k', val, hset, -⟩
      cases hset

/-! ## One turn -/

/-- A turn serves its request, and the client reads from what is then on the way. -/
theorem cliTurn_eq_ok {s s' : Session} {p : Bytes} {o : Bytes × Option Bytes}
    (h : cliTurn hash s p = .ok (s', o)) :
    serve hash s.1 p = .ok (s'.1, o.1) ∧
      (readline MAX_LINE (s.2 ++ o.1) = none ∧ o.2 = none ∨
        ∃ recvline, readline MAX_LINE (s.2 ++ o.1) = some (recvline, s'.2) ∧
          o.2 = some (cstr recvline)) := by
  obtain ⟨⟨server, reply⟩, hserve, h⟩ := bind_eq_ok h
  rcases hread : readline MAX_LINE (s.2 ++ reply) with _ | ⟨recvline, stream⟩
  · simp only [hread] at h
    cases h
    exact ⟨hserve, .inl ⟨hread, rfl⟩⟩
  · simp only [hread] at h
    cases h
    exact ⟨hserve, .inr ⟨recvline, hread, rfl⟩⟩

/-- A reply that is one line is printed, and nothing is left of it. -/
theorem cliTurn_of_oneLine {s : Server} {s' : Session} {p t : Bytes} {o : Bytes × Option Bytes}
    (h : cliTurn hash (s, []) p = .ok (s', o)) (ho : o.1 = t ++ [lf]) (hzero : (0 : UInt8) ∉ t)
    (hlen : t.length < MAX_LINE - 1) (hlf : lf ∉ t) : o.2 = some o.1 ∧ s'.2 = [] := by
  have hread : readline MAX_LINE ([] ++ o.1) = some (o.1, []) := by
    rw [ho]
    exact readlineLoop_append hlf hlen []
  have hcstr : cstr o.1 = o.1 := by
    apply cstr_of_zero_not_mem
    rw [ho]
    simp [hzero]
  rcases (cliTurn_eq_ok h).2 with ⟨hnone, -⟩ | ⟨recvline, hsome, ho2⟩
  · cases hnone.symm.trans hread
  · obtain ⟨rfl, hs'⟩ := Prod.mk.inj (Option.some.inj (hsome.symm.trans hread))
    exact ⟨by rw [ho2, hcstr], hs'⟩

/-- Of a reply that is more than one line, only the first is printed. -/
theorem cliTurn_of_lf_mem {s : Server} {s' : Session} {p t : Bytes} {o : Bytes × Option Bytes}
    (h : cliTurn hash (s, []) p = .ok (s', o)) (ho : o.1 = t ++ [lf])
    (hlen : t.length < MAX_LINE - 1) (hlf : lf ∈ t) : o.2 ≠ some o.1 := by
  obtain ⟨d, r, ht, hd⟩ := List.eq_append_cons_of_mem hlf
  have hlent : t.length = d.length + (r.length + 1) := by
    rw [ht, List.length_append, List.length_cons]
  have hread : readline MAX_LINE ([] ++ o.1) = some (d ++ [lf], r ++ [lf]) := by
    rw [ho, ht, List.nil_append, List.append_assoc, List.cons_append]
    exact readlineLoop_append hd (by omega) _
  rcases (cliTurn_eq_ok h).2 with ⟨hnone, -⟩ | ⟨recvline, hsome, ho2⟩
  · cases hnone.symm.trans hread
  · obtain ⟨rfl, -⟩ := Prod.mk.inj (Option.some.inj (hsome.symm.trans hread))
    rw [ho2]
    intro heq
    have hle := length_cstr_le (d ++ [lf])
    rw [Option.some.inj heq, ho, List.length_append, List.length_append, List.length_singleton] at hle
    omega

/-- Whatever is left on the way from the turns before, the client is not kept waiting. -/
theorem cliTurn_ok {s : Session} (h : ∃ m, Serving hash s.1 m) {p : Bytes} {r : Request}
    (hp : Complete p r) :
    ∃ s' o, cliTurn hash s p = .ok (s', o) ∧ (∃ m, Serving hash s'.1 m) ∧ o.2 ≠ none := by
  obtain ⟨m, h⟩ := h
  obtain ⟨s1, reply, m', hok, hm', -⟩ := h.step hp
  have hsane : Sane hash s.1 := ⟨h.inv, h.outbuf⟩
  obtain ⟨t, rfl⟩ := hsane.reply_ends hp.isRequest hok
  obtain ⟨d, hd⟩ : ∃ d, s.2 ++ (t ++ [lf]) = d ++ [lf] := ⟨s.2 ++ t, (List.append_assoc ..).symm⟩
  obtain ⟨⟨recvline, stream⟩, hread⟩ := readlineLoop_of_ends (MAX_LINE - 1) d
  rw [← hd] at hread
  refine ⟨(s1, stream), (t ++ [lf], some (cstr recvline)), ?_, ⟨m', hm'⟩, Option.some_ne_none _⟩
  simp only [cliTurn, hok, readline, hread, bind, Except.bind]
  rfl

/-! ## Runs -/

/-- No `get` reads a newline. -/
def NoLfRead (rs : List Request) : Prop :=
  ∀ past r rest, rs = past ++ r :: rest → ¬ r.ReadsLf past

/-- The replies are lines exactly when no request reads a newline. -/
theorem oneLine_iff_of_outs {rs : List Request} {outs : List (Bytes × Option Bytes)}
    (h : Outs (fun past r (o : Bytes × Option Bytes) => RepliesTo past r o.1) [] rs outs) :
    (∀ o ∈ outs, OneLine o.1) ↔ NoLfRead rs := by
  apply h.forall_mem_iff
  rintro past r o ⟨t, ht, -, -, hlf⟩
  rw [ht, oneLine_append_lf, hlf]

/-- The client prints every reply exactly when every reply is one line: up to the first that is not,
nothing is left on the way, and of that one it prints less. -/
theorem printed_iff {past rs : List Request} {outs : List (Bytes × Option Bytes)}
    (h : Outs (fun past r (o : Bytes × Option Bytes) => RepliesTo past r o.1) past rs outs)
    {ps : List Bytes} {s : Server} {s' : Session}
    (hrun : run (cliTurn hash) (s, []) ps = .ok (s', outs)) :
    (∀ o ∈ outs, o.2 = some o.1) ↔ ∀ o ∈ outs, OneLine o.1 := by
  induction h generalizing ps s with
  | nil => simp
  | @cons past r rs o os ho _ ih =>
    obtain ⟨t, ht, hzero, hlen, -⟩ := ho
    rcases ps with _ | ⟨p, ps⟩
    · cases hrun
    obtain ⟨s1, o1, os1, hturn, hrest, heq⟩ := run_cons_eq_ok hrun
    obtain ⟨rfl, rfl⟩ := List.cons.inj heq
    rw [List.forall_mem_cons, List.forall_mem_cons]
    by_cases hlf : lf ∈ t
    · have hne := cliTurn_of_lf_mem hturn ht hlen hlf
      have hnot : ¬ OneLine o.1 := by
        rw [ht, oneLine_append_lf, not_not]
        exact hlf
      simp [hne, hnot]
    · obtain ⟨hprinted, hempty⟩ := cliTurn_of_oneLine hturn ht hzero hlen hlf
      have hone : OneLine o.1 := by
        rw [ht, oneLine_append_lf]
        exact hlf
      obtain ⟨server, stream⟩ := s1
      obtain rfl : stream = [] := hempty
      rw [ih hrest]
      simp [hprinted, hone]

theorem complete_of_forall₂ {ps : List Bytes} {rs : List Request}
    (h : List.Forall₂ Complete ps rs) : ∀ p ∈ ps, ∃ r, Complete p r := by
  induction h with
  | nil => simp
  | cons hp _ ih => exact List.forall_mem_cons.2 ⟨⟨_, hp⟩, ih⟩

/-- In every session of one client whose requests are complete `set`, `get` and `incr` requests of any
bytes, of at most `MAX_LINE` bytes each: no request fails and the client never waits for ever; every
reply is one line exactly when no request reads a newline; and so is every line printed the reply to
its command. -/
theorem in_step_iff (hash : Bytes → UInt64) (outbuf : Sds) (ps : List Bytes) (rs : List Request)
    (ho : Outbuf MAX_LINE outbuf) (hps : List.Forall₂ Complete ps rs) :
    ∃ s outs, run (cliTurn hash) ((createDb, outbuf), []) ps = .ok (s, outs) ∧
      (∀ o ∈ outs, o.2 ≠ none) ∧
      ((∀ o ∈ outs, OneLine o.1) ↔ NoLfRead rs) ∧
      ((∀ o ∈ outs, o.2 = some o.1) ↔ NoLfRead rs) := by
  have hturn : ∀ (s : Session) (p : Bytes), (∃ m, Serving hash s.1 m) → (∃ r, Complete p r) →
      ∃ s' o, cliTurn hash s p = .ok (s', o) ∧ (∃ m, Serving hash s'.1 m) ∧ o.2 ≠ none :=
    fun s p hs ⟨r, hr⟩ => cliTurn_ok hs hr
  have hstart : ∃ m, Serving hash ((createDb, outbuf), ([] : Bytes)).1 m := ⟨_, serving_createDb ho⟩
  obtain ⟨s, outs, hrun, -, hwait⟩ :=
    ok_run_outs (fun s : Session => ∃ m, Serving hash s.1 m)
      (fun o : Bytes × Option Bytes => o.2 ≠ none) hturn (complete_of_forall₂ hps) hstart
  have hempty : Tracked hash [] (createDb, outbuf) ∧ ShortVals [] :=
    ⟨tracked_createDb ho, fun key val h => absurd h List.not_mem_nil⟩
  have houts := (history_run (fun past (s : Session) => Tracked hash past s.1 ∧ ShortVals past)
    (fun past r o => RepliesTo past r o.1) ?_ hps hempty hrun).2
  · have hlines := oneLine_iff_of_outs houts
    exact ⟨s, outs, hrun, hwait, hlines, (printed_iff houts hrun).trans hlines⟩
  · rintro past s p r s' o ⟨htracked, hshort⟩ hp hturn
    have hok := (cliTurn_eq_ok hturn).1
    refine ⟨⟨htracked.step hp.isRequest hp.isDecr hok, ?_⟩, htracked.repliesTo hshort hp hok⟩
    intro key val hmem
    rcases List.mem_append.1 hmem with hmem | hmem
    · exact hshort key val hmem
    · obtain rfl := List.mem_singleton.1 hmem
      exact hp.length_val

/-- A value of one line is set and read back in step. -/
theorem in_step_five :
    ∃ s outs, run (cliTurn fun _ => 0) ((createDb, sdsnewlen (List.replicate MAX_LINE 0) MAX_LINE), [])
        [Request.wire (.set [97] [53]), Request.wire (.get [97])] = .ok (s, outs) ∧
      (∀ o ∈ outs, OneLine o.1) ∧ ∀ o ∈ outs, o.2 = some o.1 := by
  have hset : Complete (Request.wire (.set [97] [53])) (.set [97] [53]) :=
    ⟨isRequest_wire (by decide +kernel), rfl, by decide +kernel⟩
  have hget : Complete (Request.wire (.get [97])) (.get [97]) :=
    ⟨isRequest_wire (by decide +kernel), rfl, by decide +kernel⟩
  have hread : NoLfRead [.set [97] [53], .get [97]] := by
    unfold NoLfRead
    rw [forall_split_cons, forall_split_cons]
    refine ⟨id, ?_, by simp⟩
    rintro ⟨k, val, hlast, hlf⟩
    obtain ⟨-, rfl⟩ := Request.set.inj (Option.some.inj hlast)
    exact absurd hlf (by decide)
  obtain ⟨s, outs, hrun, -, hlines, hprinted⟩ := in_step_iff (fun _ => 0)
    (sdsnewlen (List.replicate MAX_LINE 0) MAX_LINE)
    [Request.wire (.set [97] [53]), Request.wire (.get [97])] [.set [97] [53], .get [97]]
    (outbuf_sdsnewlen (by simp) (by decide)) (.cons hset (.cons hget .nil))
  exact ⟨s, outs, hrun, hlines.2 hread, hprinted.2 hread⟩

/-- The client types `set k '"a\nb"'`, `get k` and `get k`. The server decodes the escape, and the
value comes back as two lines: the third command is answered with the rest of the second reply. -/
theorem in_step_quoted_newline :
    IsRequest (Request.wire (.set [107] (ascii "\"a\\nb\"".toList))) (.set [107] [97, 10, 98]) ∧
      (run (cliTurn fun _ => 0) ((createDb, sdsnewlen (List.replicate MAX_LINE 0) MAX_LINE), [])
        [Request.wire (.set [107] (ascii "\"a\\nb\"".toList)), Request.wire (.get [107]),
          Request.wire (.get [107])]).map Prod.snd
        = .ok [(OK ++ [lf], some (OK ++ [lf])), ([97, 10, 98, 10], some [97, 10]),
          ([97, 10, 98, 10], some [98, 10])] ∧
      ¬ OneLine [97, 10, 98, 10] := by
  have hts : Tokens (Request.wire (.set [107] (ascii "\"a\\nb\"".toList)))
      [ascii "*3".toList, ascii "$3".toList, SET, ascii "$1".toList, [107], ascii "$6".toList,
        [97, 10, 98]] := tokens_of_sdssplitargs (by decide +kernel)
  exact ⟨.set hts rfl (by decide) rfl rfl, by decide +kernel, by decide⟩

end RedisCounter
