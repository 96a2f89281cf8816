import RedisCounter.Command.Effects

/-!
# Serving requests one after the other

The server as a machine: it reads the bytes of a request, runs `commandServer` on the one keyspace
and the one `outbuf`, and what it leaves in `outbuf` is the reply. `Serving` is the invariant of the
runs without `decr`: every value reads as a C string short enough to be a reply. A complete request
never fails there, whatever bytes its key and its value hold.
-/

namespace RedisCounter

open Run

/-- A request, by its arguments. -/
inductive Request
  | set (key val : Bytes)
  | get (key : Bytes)
  | incr (key : Bytes)
  | decr (key : Bytes)
deriving DecidableEq

namespace Request

/-- What the client types, as arguments. -/
def args : Request → List Bytes
  | .set key val => [SET, key, val]
  | .get key => [GET, key]
  | .incr key => [INCR, key]
  | .decr key => [DECR, key]

def key : Request → Bytes
  | .set key _ => key
  | .get key => key
  | .incr key => key
  | .decr key => key

def isDecr : Request → Bool
  | .decr _ => true
  | _ => false

theorem key_mem_args (r : Request) : r.key ∈ r.args := by
  cases r <;> simp [key, args]

/-- The bytes the client sends. -/
def wire (r : Request) : Bytes := (clientBuf r.args).content

end Request

/-! ## The server -/

/-- The keyspace and `outbuf`. -/
abbrev Server := RedisDb × Sds

/-- `commandServer` on the bytes of one read; what it leaves in `outbuf` is the reply. -/
def serve (hash : Bytes → UInt64) (s : Server) (inbuf : Bytes) :
    Except Fault (Server × Bytes) := do
  let s ← commandServer hash s.1 inbuf s.2
  pure (s, s.2.content)

/-- The server handles a request as the client sends it. -/
def serveRequest (hash : Bytes → UInt64) (s : Server) (r : Request) : Except Fault (Server × Bytes) :=
  serve hash s r.wire

theorem serve_of_ok {hash : Bytes → UInt64} {s s' : Server} {inbuf reply : Bytes}
    (h : commandServer hash s.1 inbuf s.2 = .ok s') (hreply : s'.2.content = reply) :
    serve hash s inbuf = .ok (s', reply) := by
  simp only [serve, h, bind, Except.bind, pure, Except.pure, hreply]

/-- The tokens of a line are those of a complete request: an action at 2 that is the command's name
up to its first NUL, the key at 4, the value of a `set` at 6. -/
inductive IsRequest (p : Bytes) : Request → Prop
  | set {ts : List Bytes} {a key val : Bytes} (hts : Tokens p ts) (ha : ts[2]? = some a)
      (hname : cstr a = SET) (hkey : ts[4]? = some key) (hval : ts[6]? = some val) :
      IsRequest p (.set key val)
  | get {ts : List Bytes} {a key : Bytes} (hts : Tokens p ts) (ha : ts[2]? = some a)
      (hname : cstr a = GET) (hkey : ts[4]? = some key) : IsRequest p (.get key)
  | incr {ts : List Bytes} {a key : Bytes} (hts : Tokens p ts) (ha : ts[2]? = some a)
      (hname : cstr a = INCR) (hkey : ts[4]? = some key) : IsRequest p (.incr key)
  | decr {ts : List Bytes} {a key : Bytes} (hts : Tokens p ts) (ha : ts[2]? = some a)
      (hname : cstr a = DECR) (hkey : ts[4]? = some key) : IsRequest p (.decr key)

/-- A line whose tokens are those of a command that writes this key. -/
def Writes (p key : Bytes) : Prop :=
  ∃ ts a, Tokens p ts ∧ ts[2]? = some a ∧ cstr a ∈ [SET, INCR, DECR] ∧ ts[4]? = some key

/-- A complete request other than `decr`, in a buffer the server can read. -/
structure Counted (p : Bytes) (r : Request) : Prop where
  isRequest : IsRequest p r
  isDecr : r.isDecr = false
  short : p.length < MAX_LINE

/-- A complete request other than `decr`, of a size that one `read` can return. -/
structure Complete (p : Bytes) (r : Request) : Prop where
  isRequest : IsRequest p r
  isDecr : r.isDecr = false
  length : p.length ≤ MAX_LINE

theorem Counted.complete {p : Bytes} {r : Request} (h : Counted p r) : Complete p r :=
  ⟨h.isRequest, h.isDecr, h.short.le⟩

theorem IsRequest.length_key {p : Bytes} {r : Request} (h : IsRequest p r) :
    r.key.length ≤ p.length := by
  rcases h with ⟨hts, -, -, hkey, -⟩ | ⟨hts, -, -, hkey⟩ | ⟨hts, -, -, hkey⟩ | ⟨hts, -, -, hkey⟩ <;>
    exact hts.length_le _ (List.mem_of_getElem? hkey)

/-- The six tokens in front of a value take room of their own. -/
theorem IsRequest.length_val_add {p key val : Bytes} (h : IsRequest p (.set key val)) :
    val.length + 6 ≤ p.length := by
  rcases h with ⟨hts, -, -, -, hval⟩
  exact hts.length_add_le hval

theorem IsRequest.length_val {p key val : Bytes} (h : IsRequest p (.set key val)) :
    val.length ≤ p.length := (Nat.le_add_right _ 6).trans h.length_val_add

theorem Complete.length_key {p : Bytes} {r : Request} (h : Complete p r) :
    r.key.length < 2 ^ 31 :=
  (h.isRequest.length_key.trans h.length).trans_lt (by decide)

theorem Complete.length_val {p key val : Bytes} (h : Complete p (.set key val)) :
    val.length + 6 ≤ MAX_LINE := h.isRequest.length_val_add.trans h.length

/-! ## The sizes of values -/

theorem LONG_MIN_le_atol (p : Bytes) : LONG_MIN ≤ atol p := by
  unfold atol
  split
  · exact le_max_left _ _
  · exact le_min (by decide) (by unfold LONG_MIN; omega)
  · exact le_min (by decide) (by unfold LONG_MIN; omega)

theorem length_intText_lt {z : ℤ} (hmin : LONG_MIN ≤ z) (hmax : z ≤ LONG_MAX) :
    (Decimal.intText z).length < MAX_LINE :=
  (length_intText_le hmin hmax).trans_lt (by decide)

theorem length_incrText_lt (found : Option Bytes) : (incrText found).length < MAX_LINE := by
  cases found with
  | none => exact length_intText_lt (by decide) (by decide)
  | some v => exact length_intText_lt (LONG_MIN_le_wrapLong _) (wrapLong_le_LONG_MAX _)

theorem length_cstr_le (p : Bytes) : (cstr p).length ≤ p.length :=
  (List.takeWhile_prefix _).length_le

/-! ## Encoded requests -/

/-- An argument is shorter than the encoding of its request. -/
theorem length_lt_encode {args : List Bytes} {a : Bytes} (h : a ∈ args) :
    a.length < (encode args).length := by
  have harg : a.length ≤ (encodeArg a).length := by
    simp only [encodeArg, List.length_append]
    omega
  have hflat : (encodeArg a).length ≤ (args.flatMap encodeArg).length :=
    (List.sublist_flatten_of_mem (List.mem_map_of_mem h)).length_le
  simp only [encode, List.length_append, List.length_cons]
  omega

/-- The bytes on the wire are the encoding. -/
theorem wire_eq {r : Request} (h : ∀ a ∈ r.args, Plain a) : r.wire = encode r.args :=
  content_clientBuf fun a ha => (h a ha).zero_not_mem

/-- A request with plain arguments arrives as that request, whatever line follows it. -/
theorem isRequest_wire_append {r : Request} (h : ∀ a ∈ r.args, Plain a) {rest : Bytes}
    {ts : List Bytes} (hrest : Tokens rest ts) : IsRequest (r.wire ++ rest) r := by
  have hts := tokens_encode_append h hrest
  rw [← wire_eq h] at hts
  cases r with
  | set key val => exact .set hts rfl (by decide) rfl rfl
  | get key => exact .get hts rfl (by decide) rfl
  | incr key => exact .incr hts rfl (by decide) rfl
  | decr key => exact .decr hts rfl (by decide) rfl

theorem isRequest_wire {r : Request} (h : ∀ a ∈ r.args, Plain a) : IsRequest r.wire r := by
  have hr := isRequest_wire_append h tokens_nil
  rwa [List.append_nil] at hr

/-! ## The invariant -/

/-- The keyspace reads as `m`, and every value is a reply that fits `outbuf`. -/
structure Serving (hash : Bytes → UInt64) (s : Server) (m : Key → Option Bytes) : Prop where
  inv : s.1.Inv hash
  reads : s.1.Reads m
  outbuf : Outbuf MAX_LINE s.2
  fits : ∀ k, ∀ v ∈ m k, v.length < MAX_LINE

section Serving

variable {hash : Bytes → UInt64} {s : Server} {m : Key → Option Bytes} {p : Bytes}

theorem serving_createDb {outbuf : Sds} (h : Outbuf MAX_LINE outbuf) :
    Serving hash (createDb, outbuf) fun _ => none where
  inv := inv_createDb
  reads := reads_createDb
  outbuf := h
  fits key v hv := by simp at hv

theorem Serving.fits_update (h : Serving hash s m) {k : Key} {t : Bytes} (ht : t.length < MAX_LINE) :
    ∀ k', ∀ v ∈ Function.update m k (some t) k', v.length < MAX_LINE :=
  Buckets.forall_of_update (P := fun v : Bytes => v.length < MAX_LINE) ht h.fits

/-- A `set` request binds its key to the C string of its value. -/
theorem Serving.set (h : Serving hash s m) {key val : Bytes} (hp : IsRequest p (.set key val))
    (hval : val.length < MAX_LINE) {k : Key} (hk : k.1 = key) :
    ∃ s', serve hash s p = .ok (s', OK ++ [lf]) ∧
      Serving hash s' (Function.update m k (some (cstr val))) := by
  rcases hp with ⟨hts, ha, hname, hkey, hv⟩
  obtain ⟨db', outbuf', hok, hinv, hreads, ho, hcontent⟩ := commandServer_set h.inv h.reads h.outbuf
    (by decide) hts ha hname hkey hk hv
  exact ⟨(db', outbuf'), serve_of_ok hok hcontent, hinv, hreads, ho,
    h.fits_update ((length_cstr_le val).trans_lt hval)⟩

/-- A `get` request replies the value of the C string of its key. -/
theorem Serving.get (h : Serving hash s m) {key : Bytes} (hp : IsRequest p (.get key)) {k : Key}
    (hk : k.1 = cstr key) :
    ∃ s', serve hash s p = .ok (s', (m k).getD MISSING ++ [lf]) ∧ Serving hash s' m ∧
      RedisDb.Same hash s.1 s'.1 := by
  rcases hp with _ | ⟨hts, ha, hname, hkey⟩
  have hfit : ((m k).getD MISSING).length < MAX_LINE := by
    rcases hv : m k with _ | v
    · decide
    · exact h.fits k v hv
  obtain ⟨db', outbuf', hok, hsame, ho, hcontent⟩ :=
    commandServer_get h.inv h.outbuf hts ha hname hkey hk (h.reads.found_eq k) hfit
  exact ⟨(db', outbuf'), serve_of_ok hok hcontent, ⟨hsame.inv, h.reads.same hsame, ho, h.fits⟩, hsame⟩

/-- An `incr` request binds its key to the text of the next counter. -/
theorem Serving.incr (h : Serving hash s m) {key : Bytes} (hp : IsRequest p (.incr key)) {k : Key}
    (hk : k.1 = key) :
    ∃ s', serve hash s p = .ok (s', OK ++ [lf]) ∧
      Serving hash s' (Function.update m k (some (incrText (m k)))) := by
  rcases hp with _ | _ | ⟨hts, ha, hname, hkey⟩
  obtain ⟨db', outbuf', hok, hinv, hreads, ho, hcontent⟩ := commandServer_incr h.inv h.reads h.outbuf
    (by decide) hts ha hname hkey hk
  exact ⟨(db', outbuf'), serve_of_ok hok hcontent, hinv, hreads, ho,
    h.fits_update (length_incrText_lt _)⟩

/-- A complete request other than `decr` never fails. A key that it does not set reads as before,
unless it is the key that is incremented. -/
theorem Serving.step (h : Serving hash s m) {r : Request} (hx : Complete p r) :
    ∃ s' reply m', serve hash s p = .ok (s', reply) ∧ Serving hash s' m' ∧
      ∀ k : Key, (∀ val, r ≠ .set k.1 val) →
        m' k = if r = .incr k.1 then some (incrText (m k)) else m k := by
  have hkey : r.key.length < 2 ^ 31 := hx.length_key
  cases r with
  | set key val =>
    have hval : val.length < MAX_LINE := by
      have := hx.length_val
      omega
    obtain ⟨s', hok, hs'⟩ := h.set hx.isRequest hval (k := ⟨key, hkey⟩) rfl
    refine ⟨s', _, _, hok, hs', fun k hk => ?_⟩
    -- the key set is excluded, so the key asked about is another
    have hne : k ≠ ⟨key, hkey⟩ := by
      rintro rfl
      exact hk val rfl
    rw [Function.update_of_ne hne, if_neg (by simp)]
  | get key =>
    have hlen : (cstr key).length < 2 ^ 31 := (length_cstr_le key).trans_lt hkey
    obtain ⟨s', hok, hs', -⟩ := h.get hx.isRequest (k := ⟨cstr key, hlen⟩) rfl
    exact ⟨s', _, m, hok, hs', fun k _ => by rw [if_neg (by simp)]⟩
  | incr key =>
    obtain ⟨s', hok, hs'⟩ := h.incr hx.isRequest (k := ⟨key, hkey⟩) rfl
    refine ⟨s', _, _, hok, hs', fun k _ => ?_⟩
    rcases eq_or_ne k ⟨key, hkey⟩ with rfl | hne
    · rw [Function.update_self, if_pos rfl]
    · have hkne : key ≠ k.1 := fun heq => hne (Subtype.ext heq.symm)
      rw [Function.update_of_ne hne, if_neg (by simpa using hkne)]
  | decr key => exact absurd hx.isDecr (by simp [Request.isDecr])

end Serving

/-! ## Any bytes at all -/

/-- What every request that returns keeps, complete or not. -/
structure Sane (hash : Bytes → UInt64) (s : Server) : Prop where
  inv : s.1.Inv hash
  outbuf : Outbuf MAX_LINE s.2

theorem sane_createDb {hash : Bytes → UInt64} {outbuf : Sds} (h : Outbuf MAX_LINE outbuf) :
    Sane hash (createDb, outbuf) := ⟨inv_createDb, h⟩

section Sane

variable {hash : Bytes → UInt64} {s s' : Server} {p reply : Bytes}

theorem ok_of_serve (h : serve hash s p = .ok (s', reply)) :
    commandServer hash s.1 p s.2 = .ok s' ∧ s'.2.content = reply := by
  obtain ⟨r, hc, h⟩ := bind_eq_ok h
  cases h
  exact ⟨hc, rfl⟩

theorem Sane.handled (h : Sane hash s) {ts : List Bytes} (hts : Tokens p ts)
    (hok : serve hash s p = .ok (s', reply)) : Handled hash MAX_LINE s.1 s.2 ts s'.1 s'.2 :=
  handled_of_ok h.inv h.outbuf hts (ok_of_serve hok).1

/-- A request leaves the object of every key that it does not write. -/
theorem Sane.step (h : Sane hash s) (hok : serve hash s p = .ok (s', reply)) :
    Sane hash s' ∧ ∀ k : Key, ¬ Writes p k.1 → s'.1.get k = s.1.get k := by
  obtain ⟨ts, -, hts, -⟩ := action_of_ok (ok_of_serve hok).1
  have hother : ∀ {a d : Bytes} {k : Key} {o : Robj}, ts[2]? = some a →
      cstr a ∈ [SET, INCR, DECR] → ts[4]? = some d → k.1 = d → RedisDb.Bound hash s.1 k o s'.1 →
      ∀ k' : Key, ¬ Writes p k'.1 → s'.1.get k' = s.1.get k' := by
    intro a d k o ha hname hd hk hb k' hk'
    have hne : k' ≠ k := by
      rintro rfl
      exact hk' ⟨ts, a, hts, ha, hname, by rw [hd, hk]⟩
    rw [hb.get, Function.update_of_ne hne]
  rcases h.handled hts hok with ⟨-, -, -, -, hdb, ho, -, -⟩ | ⟨ha, hname, hd, hk, -, -, hdb, ho, -⟩ |
    ⟨ha, hname, hd, hk, -, -, hdb, ho, -⟩ | ⟨ha, hname, hd, hk, -, -, hdb, ho, -⟩ | ⟨-, -, hdb, ho⟩
  · exact ⟨⟨hdb.inv, ho⟩, fun k _ => by rw [hdb.get]⟩
  · exact ⟨⟨hdb.inv, ho⟩, hother ha (by simp [hname]) hd hk hdb⟩
  · exact ⟨⟨hdb.inv, ho⟩, hother ha (by simp [hname]) hd hk hdb⟩
  · exact ⟨⟨hdb.inv, ho⟩, hother ha (by simp [hname]) hd hk hdb⟩
  · exact ⟨⟨hdb.inv, ho ▸ h.outbuf⟩, fun k _ => by rw [hdb.get]⟩

/-- A run leaves the object of every key that none of its requests writes. -/
theorem Sane.run (h : Sane hash s) {ps outs : List Bytes}
    (hrun : Run.run (serve hash) s ps = .ok (s', outs)) :
    Sane hash s' ∧ ∀ k : Key, (∀ p ∈ ps, ¬ Writes p k.1) → s'.1.get k = s.1.get k := by
  induction ps generalizing s outs with
  | nil =>
    cases hrun
    exact ⟨h, fun _ _ => rfl⟩
  | cons p ps ih =>
    obtain ⟨s1, reply, outs', hstep, hrest, -⟩ := run_cons_eq_ok hrun
    obtain ⟨h1, hframe1⟩ := h.step hstep
    obtain ⟨h', hframe⟩ := ih h1 hrest
    refine ⟨h', fun k hk => ?_⟩
    rw [hframe k fun q hq => hk q (List.mem_cons_of_mem p hq), hframe1 k (hk p (List.mem_cons_self ..))]

/-- After a `set` the key is bound to an object with the sds of the whole value. -/
theorem Sane.bound_of_set (h : Sane hash s) {key val : Bytes} (hp : IsRequest p (.set key val))
    (hok : serve hash s p = .ok (s', reply)) :
    ∃ k : Key, k.1 = key ∧ ∃ o, s'.1.get k = some o ∧ o.ptr = .sds (sdsOf val) 0 := by
  rcases hp with ⟨hts, ha, hname, hkey, hval⟩
  obtain ⟨d, hd, k, hk, o, -, hptr, hdb⟩ := (h.handled hts hok).of_set ha hname
  obtain rfl := Option.some.inj (hkey.symm.trans hd)
  refine ⟨k, hk, o, by rw [hdb.get, Function.update_self], ?_⟩
  rw [hptr, hval]
  rfl

/-- A `get` that returns replied what the object of the C string of its key holds. -/
theorem Sane.of_get (h : Sane hash s) {key : Bytes} (hp : IsRequest p (.get key))
    (hok : serve hash s p = .ok (s', reply)) :
    ∃ k : Key, k.1 = cstr key ∧ RedisDb.Same hash s.1 s'.1 ∧
      ∃ t, found (s.1.get k) = .ok t ∧ reply = t ++ [lf] := by
  have hreply := (ok_of_serve hok).2
  rcases hp with _ | ⟨hts, ha, hname, hkey⟩
  obtain ⟨k, hk, hsame, t, ht, hc⟩ := (h.handled hts hok).of_get ha hname hkey
  exact ⟨k, hk, hsame, t, ht, hreply.symm.trans hc⟩

end Sane

end RedisCounter
