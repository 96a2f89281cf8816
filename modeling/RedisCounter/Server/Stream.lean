import RedisCounter.Command.Decoder
import RedisCounter.Command.Refinement
import RedisCounter.Server.Loop

/-!
# Requests in a stream

A connection is a stream of bytes, and the loop takes whatever one read returns for one request: it
does not look at the lengths that the client sends, and keeps nothing for the next read. While every
read returns one whole request, the keyspace and the replies of every connection are those of the
machine over a finite map, and the requests that were read are the first of those sent. A read that
returns two requests applies the first and drops the second, and a read that ends inside a request
leaves `commandServer` without an action.
-/

namespace RedisCounter

open Run Decimal

/-! ## Counters -/

/-- The integer that a value counts, 0 when there is none. -/
def countOf (v : Option Bytes) : ℤ := v.elim 0 atol

/-- What a key counts. -/
def counter (s : Server) (k : Key) : ℤ :=
  (s.1.get k).elim 0 fun o => (cstrAt o.ptr).toOption.elim 0 atol

theorem Serves.counter_eq {hash : Bytes → UInt64} {s : Server} {m : Store} (h : Serves hash s m)
    (k : Key) : counter s k = countOf (m.lookup k.1) := by
  rcases hk : m.lookup k.1 with _ | v
  · rw [counter, (Serving.reads h).get_eq_none hk]
    rfl
  · obtain ⟨o, ho, hv⟩ := (Serving.reads h).get_eq_some hk
    rw [counter, ho, Option.elim_some, hv]
    rfl

/-- An increment counts one more. -/
theorem countOf_nextText {found : Option Bytes} (h : ∀ v ∈ found, atol v + 1 ≤ LONG_MAX) :
    countOf (some (nextText found)) = countOf found + 1 := by
  cases found with
  | none =>
    have h1 : atol (intText 1) = 1 := by decide
    exact h1
  | some v =>
    have hmin : LONG_MIN ≤ atol v + 1 := (LONG_MIN_le_atol v).trans (by omega)
    exact atol_intText hmin (h v rfl)

/-- A request that is neither a `set` nor a `decr` of a key adds one to its counter if it increments
it, and leaves it otherwise. -/
theorem countOf_machineStep {m : Store} {r : Request} {key : Bytes} (hdecr : r.isDecr = false)
    (hset : ∀ val, r ≠ .set key val) (hrange : InRange m r) :
    countOf ((machineStep m r).1.lookup key)
      = countOf (m.lookup key) + if r = .incr key then 1 else 0 := by
  cases r with
  | set key' val =>
    have hne : key ≠ key' := by
      rintro rfl
      exact hset val rfl
    rw [if_neg (by simp), add_zero]
    exact congrArg countOf (Finmap.lookup_insert_of_ne _ hne)
  | get key' =>
    rw [if_neg (by simp), add_zero]
    rfl
  | incr key' =>
    rcases eq_or_ne key key' with rfl | hne
    · rw [if_pos rfl, ← countOf_nextText hrange]
      exact congrArg countOf (Finmap.lookup_insert _)
    · have hne' : Request.incr key' ≠ .incr key := fun heq => hne (Request.incr.inj heq).symm
      rw [if_neg hne', add_zero]
      exact congrArg countOf (Finmap.lookup_insert_of_ne _ hne)
  | decr key' => cases hdecr

/-- Over a run, a key that is not set counts one more for each request that increments it. -/
theorem countOf_arun {m : Store} {reqs : List Request} {key : Bytes}
    (hdecr : ∀ r ∈ reqs, r.isDecr = false) (hset : ∀ val, .set key val ∉ reqs)
    (hrange : Admissible machineStep InRange m reqs) :
    countOf ((arun machineStep m reqs).1.lookup key)
      = countOf (m.lookup key) + reqs.count (.incr key) := by
  induction reqs generalizing m with
  | nil => simp [arun]
  | cons r reqs ih =>
    have hrest := ih (fun q hq => hdecr q (List.mem_cons_of_mem r hq))
      (fun val hmem => hset val (List.mem_cons_of_mem r hmem)) hrange.2
    have hhead := countOf_machineStep (hdecr r (List.mem_cons_self ..))
      (fun val heq => hset val (heq ▸ List.mem_cons_self ..)) hrange.1
    show countOf ((arun machineStep (machineStep m r).1 reqs).1.lookup key) = _
    rw [hrest, hhead, List.count_cons]
    simp only [beq_iff_eq]
    split_ifs
    · push_cast
      omega
    · push_cast
      omega

/-! ## Reads that return one whole request -/

/-- The read returns the request that is in front of what the connection has received, whole, and an
increment does not leave the range of `long`. -/
structure ReturnsOne (s : Server) (unread : Bytes) (ret : ℕ) (r : Request) : Prop where
  simple : Simple r
  ret : ret = r.wire.length
  front : r.wire <+: unread
  inRange : ∀ k : Key, r = .incr k.1 → counter s k < LONG_MAX

/-- The batch fits into `events`, and a read returns one whole request. -/
def OneRequest (l : Loop) : LoopStep → Prop
  | .arrive _ _ => True
  | .wait events => events.length ≤ EVENTS
  | .handle ret => ∀ sockfd, l.events.head? = some (.epollin sockfd) → ret ≠ 0 →
      ∀ conn ∈ l.conns.lookup sockfd, ∃ r, ReturnsOne l.server conn.unread ret r

/-- The requests that were read so far, each with its descriptor. -/
structure Loop.Applied (l : Loop) (reqs : List (ℕ × Request)) : Prop where
  requests : l.requests = reqs.map fun x => (x.1, x.2.wire)
  simple : ∀ r ∈ reqs.map Prod.snd, Simple r
  inRange : Admissible machineStep InRange ∅ (reqs.map Prod.snd)

/-- The server has come from the empty keyspace by these requests: it serves the machine's map, and
each descriptor has the machine's replies to its own. -/
theorem Loop.Served.serves {hash : Bytes → UInt64} {outbuf : Sds} {l : Loop}
    {reqs : List (ℕ × Request)} (h : l.Served hash outbuf) (ho : Outbuf MAX_LINE outbuf)
    (happlied : l.Applied reqs) :
    Serves hash l.server (arun machineStep ∅ (reqs.map Prod.snd)).1 ∧
      ∀ sockfd, l.replies sockfd
        = ((reqs.zip (arun machineStep ∅ (reqs.map Prod.snd)).2).filter
            fun x => x.1.1 == sockfd).map Prod.snd := by
  obtain ⟨outs, hrun, -, hrouted⟩ := h
  have hstart : Serves hash (createDb, outbuf) ∅ := serves_createDb ho
  obtain ⟨s, hmachine, hs⟩ := hstart.run happlied.simple happlied.inRange
  have hbytes : l.requests.map Prod.snd = (reqs.map Prod.snd).map Request.wire := by
    rw [happlied.requests, List.map_map, List.map_map]
    rfl
  -- the buffers that were read are the requests, so the two runs are one
  rw [hbytes, run_map] at hrun
  obtain ⟨rfl, rfl⟩ := Prod.mk.inj (Except.ok.inj (hmachine.symm.trans hrun))
  refine ⟨hs, fun sockfd => ?_⟩
  rw [hrouted sockfd, happlied.requests, List.zip_map_left, List.filter_map, List.map_map]
  rfl

section Steps

variable {hash : Bytes → UInt64} {outbuf : Sds} {l l' : Loop} {reqs : List (ℕ × Request)}

/-- A counter in range is a machine's counter in range. -/
theorem Serves.inRange {s : Server} {m : Store} (h : Serves hash s m) {r : Request}
    (hsimple : Simple r) (hrange : ∀ k : Key, r = .incr k.1 → counter s k < LONG_MAX) :
    InRange m r := by
  cases r with
  | incr key =>
    have hcomplete : Complete (Request.wire (.incr key)) (.incr key) :=
      ⟨isRequest_wire hsimple.plain, rfl, hsimple.short.le⟩
    intro v hv
    have hlt := hrange ⟨key, hcomplete.length_key⟩ rfl
    rw [h.counter_eq, Option.mem_def.1 hv] at hlt
    exact hlt
  | set key val => trivial
  | get key => trivial
  | decr key => trivial

theorem Loop.Applied.read (h : l.Applied reqs) {sockfd : ℕ} {r : Request} (hsimple : Simple r)
    (hrange : InRange (arun machineStep ∅ (reqs.map Prod.snd)).1 r)
    (hrequests : l'.requests = l.requests ++ [(sockfd, r.wire)]) :
    l'.Applied (reqs ++ [(sockfd, r)]) where
  requests := by
    rw [hrequests, h.requests, List.map_append]
    rfl
  simple := by
    rw [List.map_append, List.forall_mem_append]
    exact ⟨h.simple, by simpa using hsimple⟩
  inRange := by
    rw [List.map_append, admissible_append]
    exact ⟨h.inRange, hrange, trivial⟩

/-- The bytes that a read returns are its request. -/
theorem ReturnsOne.take_eq {s : Server} {unread : Bytes} {ret : ℕ} {r : Request}
    (h : ReturnsOne s unread ret r) : unread.take ret = r.wire := by
  rw [h.ret]
  exact (List.prefix_iff_eq_take.1 h.front).symm

/-- A step that reads at most one whole request succeeds. -/
theorem exists_step {m : Store} (hs : Serves hash l.server m) {i : LoopStep} (hone : OneRequest l i) :
    ∃ l', loopStep hash l i = .ok (l', ()) := by
  cases i with
  | arrive sockfd data =>
    rcases hconn : l.conns.lookup sockfd with _ | conn
    · exact ⟨l, by simp only [loopStep, hconn]; rfl⟩
    · exact ⟨{ l with conns := l.conns.insert sockfd { conn with unread := conn.unread ++ data } },
        by simp only [loopStep, hconn]; rfl⟩
  | wait events => exact ⟨{ l with events }, if_neg (Nat.not_lt.2 hone)⟩
  | handle ret =>
    rcases hevents : l.events with _ | ⟨e, events⟩
    · exact ⟨l, by simp only [loopStep, hevents]; rfl⟩
    cases e with
    | listen =>
      exact ⟨{ l with events, conns := l.conns.insert ret ⟨.epollin, []⟩ },
        by simp only [loopStep, hevents]; rfl⟩
    | epollout sockfd =>
      exact ⟨writeEvent { l with events } sockfd ret, by simp only [loopStep, hevents]; rfl⟩
    | epollin sockfd =>
      suffices hread : ∃ l', readEvent hash { l with events } sockfd ret = .ok l' by
        obtain ⟨l', hread⟩ := hread
        exact ⟨l', by simp only [loopStep, hevents, hread, ok_bind]; rfl⟩
      rcases hconn : l.conns.lookup sockfd with _ | conn
      · exact ⟨{ l with events }, by simp only [readEvent, hconn]; rfl⟩
      by_cases hzero : ret = 0
      · exact ⟨{ l with events, conns := l.conns.erase sockfd },
          by simp only [readEvent, hconn, if_pos hzero]; rfl⟩
      · obtain ⟨r, hr⟩ := hone sockfd (by rw [hevents]; rfl) hzero conn hconn
        have hlt : ¬ MAX_LINE ≤ ret := by
          rw [hr.ret, Nat.not_le]
          exact hr.simple.short
        obtain ⟨s', hserve, -⟩ := hs.step hr.simple.isDecr hr.simple.plain hr.simple.short
          (hs.inRange hr.simple hr.inRange)
        have hserve : serve hash l.server (conn.unread.take ret) = .ok (s', (machineStep m r).2) := by
          rw [hr.take_eq]
          exact hserve
        simp only [readEvent, hconn, if_neg hzero, if_neg hlt, hserve, ok_bind]
        exact ⟨_, rfl⟩

/-- What has been read after a step are requests, one for each read. -/
theorem Loop.Applied.step (h : l.Applied reqs)
    (hs : Serves hash l.server (arun machineStep ∅ (reqs.map Prod.snd)).1) {i : LoopStep}
    (hone : OneRequest l i) (hstep : Stepped hash l i l') : ∃ reqs', l'.Applied reqs' := by
  have hsame : l'.requests = l.requests → ∃ reqs', l'.Applied reqs' :=
    fun hrequests => ⟨reqs, hrequests.trans h.requests, h.simple, h.inRange⟩
  cases hstep with
  | skip => exact hsame rfl
  | arrive => exact hsame rfl
  | wait => exact hsame rfl
  | accept => exact hsame rfl
  | stale => exact hsame rfl
  | close => exact hsame rfl
  | @read sockfd n events conn server reply hevents hconn hpos =>
    obtain ⟨r, hr⟩ := hone sockfd (by rw [hevents]; rfl) hpos conn hconn
    have hrequests : l.requests ++ [(sockfd, conn.unread.take n)]
        = l.requests ++ [(sockfd, r.wire)] := by
      rw [hr.take_eq]
    exact ⟨_, h.read hr.simple (hs.inRange hr.simple hr.inRange) hrequests⟩
  | write =>
    apply hsame
    unfold writeEvent
    dsimp only
    split_ifs <;> rfl

end Steps

/-! ## What was sent -/

/-- What a descriptor's socket has received and nobody has read. -/
def unread (conns : Finmap fun _ : ℕ => Conn) (sockfd : ℕ) : Bytes :=
  (conns.lookup sockfd).elim [] Conn.unread

/-- What has been read from a descriptor, and what is still to be read. -/
def stream (l : Loop) (sockfd : ℕ) : Bytes :=
  (l.requests.filter fun x => x.1 == sockfd).flatMap Prod.snd ++ unread l.conns sockfd

/-- The bytes that a step brings to a descriptor. -/
def LoopStep.bytes (sockfd : ℕ) : LoopStep → Bytes
  | .arrive fd data => if fd = sockfd then data else []
  | _ => []

/-- All bytes that reach a descriptor. -/
def received (sockfd : ℕ) (steps : List LoopStep) : Bytes := steps.flatMap (LoopStep.bytes sockfd)

/-- Bytes reach open connections, `accept` returns a descriptor that is not in use, and a connection
is closed when all that it has received has been read. -/
def Drained (l : Loop) : LoopStep → Prop
  | .arrive sockfd _ => registered l.conns sockfd ≠ none
  | .wait _ => True
  | .handle ret => (l.events.head? = some .listen → registered l.conns ret = none) ∧
      ∀ sockfd, l.events.head? = some (.epollin sockfd) → ret = 0 → unread l.conns sockfd = []

section Stream

variable {hash : Bytes → UInt64} {l l' : Loop} {sockfd : ℕ}

theorem unread_of_lookup {conns : Finmap fun _ : ℕ => Conn} {conn : Conn}
    (h : conns.lookup sockfd = some conn) : unread conns sockfd = conn.unread := by
  rw [unread, h, Option.elim_some]

theorem unread_insert (conns : Finmap fun _ : ℕ => Conn) (conn : Conn) :
    unread (conns.insert sockfd conn) = Function.update (unread conns) sockfd conn.unread := by
  funext fd
  unfold unread
  rcases eq_or_ne fd sockfd with rfl | hne
  · rw [Function.update_self, Finmap.lookup_insert, Option.elim_some]
  · rw [Function.update_of_ne hne, Finmap.lookup_insert_of_ne _ hne]

theorem unread_erase (conns : Finmap fun _ : ℕ => Conn) :
    unread (conns.erase sockfd) = Function.update (unread conns) sockfd [] := by
  funext fd
  unfold unread
  rcases eq_or_ne fd sockfd with rfl | hne
  · rw [Function.update_self, Finmap.lookup_erase, Option.elim_none]
  · rw [Function.update_of_ne hne, Finmap.lookup_erase_ne hne]

theorem unread_setInterest (conns : Finmap fun _ : ℕ => Conn) (interest : Interest) :
    unread (setInterest conns sockfd interest) = unread conns := by
  unfold setInterest
  rcases hconn : conns.lookup sockfd with _ | conn
  · rfl
  · show unread (conns.insert sockfd _) = _
    rw [unread_insert, ← unread_of_lookup hconn, Function.update_eq_self]

theorem stream_congr (hrequests : l'.requests = l.requests)
    (hunread : unread l'.conns = unread l.conns) : stream l' sockfd = stream l sockfd := by
  rw [stream, hrequests, hunread]
  rfl

/-- Bytes arrive behind those that are unread. -/
theorem stream_arrive {fd : ℕ} {data : Bytes} (hopen : registered l.conns fd ≠ none)
    (hok : loopStep hash l (.arrive fd data) = .ok (l', ())) :
    stream l' sockfd = stream l sockfd ++ (LoopStep.arrive fd data).bytes sockfd := by
  rcases hconn : l.conns.lookup fd with _ | conn
  · exact absurd (by rw [registered, hconn]; rfl) hopen
  simp only [loopStep, hconn] at hok
  cases hok
  rw [stream, stream, unread_insert, List.append_assoc, LoopStep.bytes]
  rcases eq_or_ne fd sockfd with rfl | hne
  · rw [Function.update_self, if_pos rfl, unread_of_lookup hconn]
  · rw [Function.update_of_ne hne.symm, if_neg hne, List.append_nil]

/-- An event takes bytes from what is unread and adds them to what has been read. -/
theorem stream_handle {ret : ℕ} (hdrained : Drained l (.handle ret))
    (hstep : Stepped hash l (.handle ret) l') : stream l' sockfd = stream l sockfd := by
  cases hstep with
  | skip => rfl
  | @accept ret events hevents =>
    have hfree : unread l.conns ret = [] := by
      have hnone : l.conns.lookup ret = none :=
        Option.map_eq_none_iff.1 (hdrained.1 (by rw [hevents]; rfl))
      rw [unread, hnone, Option.elim_none]
    refine stream_congr rfl ?_
    rw [unread_insert, ← hfree, Function.update_eq_self]
  | stale => rfl
  | @close fd events hevents =>
    have hempty : unread l.conns fd = [] := hdrained.2 fd (by rw [hevents]; rfl) rfl
    refine stream_congr rfl ?_
    rw [unread_erase, ← hempty, Function.update_eq_self]
  | @read fd n events conn server reply hevents hconn =>
    rw [stream, stream, unread_insert, List.filter_append, List.flatMap_append, List.append_assoc]
    rcases eq_or_ne fd sockfd with rfl | hne
    · rw [Function.update_self, unread_of_lookup hconn]
      simp
    · rw [Function.update_of_ne hne.symm]
      simp [hne]
  | @write fd ret events hevents =>
    unfold writeEvent
    dsimp only
    split_ifs
    · rfl
    · exact stream_congr rfl (unread_setInterest _ _)

/-- Over a run, what has been read with what is unread grows by the bytes that have arrived. -/
theorem stream_of_run {steps : List LoopStep} {outs : List Unit}
    (hdrained : Along (loopStep hash) Drained l steps)
    (hrun : run (loopStep hash) l steps = .ok (l', outs)) :
    stream l' sockfd = stream l sockfd ++ received sockfd steps := by
  induction steps generalizing l outs with
  | nil =>
    cases hrun
    rw [received, List.flatMap_nil, List.append_nil]
  | cons i steps ih =>
    obtain ⟨l1, _, outs', hok, hrest, -⟩ := run_cons_eq_ok hrun
    have hstep : stream l1 sockfd = stream l sockfd ++ i.bytes sockfd := by
      cases i with
      | arrive fd data => exact stream_arrive hdrained.1 hok
      | wait events =>
        have hstepped := stepped_of_ok hok
        cases hstepped <;> simp [stream, LoopStep.bytes]
      | handle ret =>
        have hbytes : (LoopStep.handle ret).bytes sockfd = [] := rfl
        rw [stream_handle hdrained.1 (stepped_of_ok hok), hbytes, List.append_nil]
    have hcons : received sockfd (i :: steps) = i.bytes sockfd ++ received sockfd steps := rfl
    rw [ih (hdrained.2 l1 () hok) hrest, hstep, hcons, List.append_assoc]

end Stream

/-! ## Reading the stream back -/

theorem Simple.sendable {r : Request} (h : Simple r) : Sendable r.args := by
  have hlt : ∀ a ∈ r.args, a.length < 2048 := by
    intro a ha
    have hwire : r.wire.length < 2048 := h.short
    rw [wire_eq h.plain] at hwire
    exact (length_lt_encode ha).trans hwire
  refine ⟨fun a ha => (h.plain a ha).zero_not_mem, ?_, ?_⟩
  · cases r <;> simp [Request.args]
  · cases r <;> simp [Request.args] at hlt ⊢ <;> omega

theorem Request.args_injective : Function.Injective Request.args := by
  intro r r' h
  have hnames : [SET, GET, INCR, DECR].Nodup := by decide
  cases r <;> cases r' <;> simp_all [Request.args]

/-- Requests with anything behind them differ where the requests or what follows them differ. -/
theorem wire_append_inj {r r' : Request} {p p' : Bytes} (h : Simple r) (h' : Simple r')
    (heq : r.wire ++ p = r'.wire ++ p') : r = r' ∧ p = p' := by
  rw [Request.wire, Request.wire, h.sendable.content_clientBuf, h'.sendable.content_clientBuf] at heq
  obtain ⟨hargs, hp⟩ := reference_append_inj heq
  exact ⟨Request.args_injective hargs, hp⟩

/-- If requests and some bytes behind them are the bytes of requests that were sent, then they are the
first of these, and the bytes behind are those of the others. -/
theorem eq_append_of_flatMap_wire {sent reqs : List Request} {rest : Bytes}
    (hsent : ∀ r ∈ sent, Simple r) (hreqs : ∀ r ∈ reqs, Simple r)
    (h : sent.flatMap Request.wire = reqs.flatMap Request.wire ++ rest) :
    ∃ later, sent = reqs ++ later ∧ rest = later.flatMap Request.wire := by
  induction reqs generalizing sent with
  | nil => exact ⟨sent, rfl, h.symm⟩
  | cons r reqs ih =>
    obtain ⟨hr, hreqs'⟩ := List.forall_mem_cons.1 hreqs
    rcases sent with _ | ⟨s, sent⟩
    · rw [List.flatMap_cons, Request.wire, hr.sendable.content_clientBuf] at h
      cases h
    obtain ⟨hs, hsent'⟩ := List.forall_mem_cons.1 hsent
    rw [List.flatMap_cons, List.flatMap_cons, List.append_assoc] at h
    obtain ⟨rfl, hrest⟩ := wire_append_inj hs hr h
    obtain ⟨later, rfl, hlater⟩ := ih hsent' hreqs' hrest
    exact ⟨later, rfl, hlater⟩

/-- What has been read from a descriptor are its requests. -/
theorem Loop.Applied.stream_eq {l : Loop} {reqs : List (ℕ × Request)} (h : l.Applied reqs)
    (sockfd : ℕ) : stream l sockfd
      = ((reqs.filter fun x => x.1 == sockfd).map Prod.snd).flatMap Request.wire
        ++ unread l.conns sockfd := by
  rw [stream, h.requests, List.filter_map, List.flatMap_map, List.flatMap_map]
  rfl

/-! ## Runs -/

theorem length_filter_zip {α β : Type*} {xs : List α} {ys : List β} (h : xs.length = ys.length)
    (p : α → Bool) : ((xs.zip ys).filter fun x => p x.1).length = (xs.filter p).length := by
  have hfst : (xs.zip ys).map Prod.fst = xs := List.map_fst_zip (Nat.le_of_eq h)
  conv_rhs => rw [← hfst, List.filter_map, List.length_map]
  rfl

/-- In every run whose reads each return one whole request, of plain arguments and other than `decr`:
no step fails; the keyspace reads as the machine's map after the requests that were read; each
descriptor has one reply for each of its requests, the machine's; where whole requests were sent to a
descriptor, those that were read are the first of them, in their order, and the bytes of the others
are unread or still to come; and over any last part of the requests the counter of a key that is not
set there has grown by the number of its increments. -/
theorem one_command_per_read (hash : Bytes → UInt64) (outbuf : Sds) (steps : List LoopStep)
    (ho : Outbuf MAX_LINE outbuf)
    (hone : Along (loopStep hash) OneRequest (startLoop outbuf) steps) :
    ∃ (l : Loop) (outs : List Unit) (reqs : List (ℕ × Request)),
      run (loopStep hash) (startLoop outbuf) steps = .ok (l, outs) ∧
      l.requests = reqs.map (fun x => (x.1, x.2.wire)) ∧
      Serves hash l.server (arun machineStep ∅ (reqs.map Prod.snd)).1 ∧
      (∀ sockfd, (l.replies sockfd).length = (reqs.filter fun x => x.1 == sockfd).length ∧
        l.replies sockfd = ((reqs.zip (arun machineStep ∅ (reqs.map Prod.snd)).2).filter
          fun x => x.1.1 == sockfd).map Prod.snd) ∧
      (∀ (sockfd : ℕ) (sent : List Request) (coming : Bytes),
        Along (loopStep hash) Drained (startLoop outbuf) steps → (∀ r ∈ sent, Simple r) →
        received sockfd steps ++ coming = sent.flatMap Request.wire →
        ∃ later, sent = (reqs.filter fun x => x.1 == sockfd).map Prod.snd ++ later ∧
          unread l.conns sockfd ++ coming = later.flatMap Request.wire) ∧
      ∀ (k : Key) (past stream : List Request), reqs.map Prod.snd = past ++ stream →
        (∀ val, .set k.1 val ∉ stream) →
        counter l.server k
          = countOf ((arun machineStep ∅ past).1.lookup k.1) + stream.count (.incr k.1) := by
  have hstep : ∀ l i, (l.Served hash outbuf ∧ ∃ reqs, l.Applied reqs) → OneRequest l i →
      ∃ l' o, loopStep hash l i = .ok (l', o) ∧ l'.Served hash outbuf ∧ ∃ reqs, l'.Applied reqs := by
    rintro l i ⟨hserved, reqs, happlied⟩ hi
    have hs := (hserved.serves ho happlied).1
    obtain ⟨l', hok⟩ := exists_step hs hi
    have hstepped := stepped_of_ok hok
    exact ⟨l', (), hok, hserved.step hstepped, happlied.step hs hi hstepped⟩
  have hstart : ∃ reqs, (startLoop outbuf).Applied reqs := ⟨[], rfl, by simp, trivial⟩
  obtain ⟨l, outs, hrun, -, reqs, happlied⟩ :=
    ok_of_along _ hstep hone ⟨served_startLoop, hstart⟩
  obtain ⟨hs, hreplies⟩ := (served_of_run hrun).serves ho happlied
  refine ⟨l, outs, reqs, hrun, happlied.requests, hs, fun sockfd => ⟨?_, hreplies sockfd⟩, ?_, ?_⟩
  · have hlen : reqs.length = (arun machineStep ∅ (reqs.map Prod.snd)).2.length := by
      rw [length_arun, List.length_map]
    rw [hreplies, List.length_map]
    exact length_filter_zip hlen fun x => x.1 == sockfd
  · intro sockfd sent coming hdrained hsent hbytes
    have hstream : stream l sockfd = received sockfd steps := stream_of_run hdrained hrun
    rw [← hstream, happlied.stream_eq, List.append_assoc] at hbytes
    refine eq_append_of_flatMap_wire hsent (fun r hr => ?_) hbytes.symm
    obtain ⟨x, hx, rfl⟩ := List.mem_map.1 hr
    exact happlied.simple x.2 (List.mem_map_of_mem (List.mem_of_mem_filter hx))
  · intro k past stream hsplit hset
    have hsimple := happlied.simple
    have hrange := happlied.inRange
    rw [hsplit] at hsimple hrange
    rw [hs.counter_eq, hsplit, arun_append_fst]
    exact countOf_arun (fun r hr => (hsimple r (List.mem_append_right _ hr)).isDecr) hset
      (admissible_append.1 hrange).2

/-- A client connects, and one read returns all that has arrived from it. -/
def connectRead (data : Bytes) : List LoopStep :=
  [.wait [.listen], .handle 5, .arrive 5 data, .wait [.epollin 5], .handle data.length]

/-- One increment is read whole, and it is what was sent. -/
theorem one_command_per_read_incr :
    ∃ (l : Loop) (outs : List Unit) (reqs : List (ℕ × Request)),
      run (loopStep fun _ => 7) (startLoop (sdsnewlen (List.replicate MAX_LINE 0) MAX_LINE))
        (connectRead (Request.wire (.incr [97]))) = .ok (l, outs) ∧
      l.requests = [(5, Request.wire (.incr [97]))] ∧
      Serves (fun _ => 7) l.server (arun machineStep ∅ (reqs.map Prod.snd)).1 ∧
      (l.replies 5).length = 1 ∧
      ∃ later, [.incr [97]] = (reqs.filter fun x => x.1 == 5).map Prod.snd ++ later ∧
        unread l.conns 5 = later.flatMap Request.wire := by
  have ho : Outbuf MAX_LINE (sdsnewlen (List.replicate MAX_LINE 0) MAX_LINE) :=
    outbuf_sdsnewlen (by simp) (by decide)
  have hstart : Serves (fun _ => 7) (createDb, sdsnewlen (List.replicate MAX_LINE 0) MAX_LINE) ∅ :=
    serves_createDb ho
  have hsimple : Simple (.incr [97]) := ⟨rfl, by decide +kernel, by decide +kernel⟩
  have hone : Along (loopStep fun _ => 7) OneRequest
      (startLoop (sdsnewlen (List.replicate MAX_LINE 0) MAX_LINE))
      (connectRead (Request.wire (.incr [97]))) := by
    have hle : [Event.listen].length ≤ EVENTS := by decide
    have hle' : [Event.epollin 5].length ≤ EVENTS := by decide
    refine (along_cons_ok rfl).2 ⟨hle, ?_⟩
    refine (along_cons_ok rfl).2 ⟨by rintro sockfd ⟨⟩, ?_⟩
    refine (along_cons_ok rfl).2 ⟨trivial, ?_⟩
    refine (along_cons_ok rfl).2 ⟨hle', ?_⟩
    refine ⟨?_, fun _ _ _ => trivial⟩
    rintro sockfd ⟨⟩ - conn hconn
    obtain rfl := Option.some.inj (hconn.symm.trans (Finmap.lookup_insert _))
    have hfront : Request.wire (.incr [97]) <+: [] ++ Request.wire (.incr [97]) := by simp
    refine ⟨.incr [97], hsimple, rfl, hfront, fun k _ => ?_⟩
    show counter (createDb, _) k < LONG_MAX
    rw [hstart.counter_eq, Finmap.lookup_empty]
    decide
  have hdrained : Along (loopStep fun _ => 7) Drained
      (startLoop (sdsnewlen (List.replicate MAX_LINE 0) MAX_LINE))
      (connectRead (Request.wire (.incr [97]))) := by
    refine (along_cons_ok rfl).2 ⟨trivial, ?_⟩
    refine (along_cons_ok rfl).2 ⟨⟨fun _ => rfl, by rintro sockfd ⟨⟩⟩, ?_⟩
    refine (along_cons_ok rfl).2 ⟨Option.some_ne_none Interest.epollin, ?_⟩
    refine (along_cons_ok rfl).2 ⟨trivial, ?_⟩
    refine ⟨⟨fun h => (by cases h), ?_⟩, fun _ _ _ => trivial⟩
    rintro sockfd ⟨⟩ hzero
    exact absurd hzero (by decide +kernel)
  obtain ⟨l, outs, reqs, hrun, hrequests, hs, hreplies, hsent, -⟩ := one_command_per_read (fun _ => 7)
    (sdsnewlen (List.replicate MAX_LINE 0) MAX_LINE) _ ho hone
  have hread : (run (loopStep fun _ => 7) (startLoop (sdsnewlen (List.replicate MAX_LINE 0) MAX_LINE))
      (connectRead (Request.wire (.incr [97])))).map (fun r => r.1.requests)
      = .ok [(5, Request.wire (.incr [97]))] := by decide +kernel
  rw [hrun] at hread
  have hread : l.requests = [(5, Request.wire (.incr [97]))] := Except.ok.inj hread
  obtain ⟨x, rfl⟩ : ∃ x, reqs = [x] := by
    rw [hread] at hrequests
    exact List.length_eq_one_iff.1 (by simpa using (congrArg List.length hrequests).symm)
  have hfd : x.1 = 5 := by
    rw [hread] at hrequests
    simpa using (congrArg (List.map Prod.fst) hrequests).symm
  refine ⟨l, outs, [x], hrun, hread, hs, ?_, ?_⟩
  · rw [(hreplies 5).1]
    simp [hfd]
  · have hsimple' : ∀ r ∈ [Request.incr [97]], Simple r := by simpa using hsimple
    obtain ⟨later, hlater, hunread⟩ := hsent 5 [.incr [97]] [] hdrained hsimple' (by decide +kernel)
    exact ⟨later, hlater, by rwa [List.append_nil] at hunread⟩

/-- A client sends two increments. In one read they count 1, with one reply; if the first read ends
inside the first of them, `commandServer` compares an action that it never assigned. -/
theorem lost_increment :
    (run (loopStep fun _ => 7) (startLoop (sdsnewlen (List.replicate MAX_LINE 0) MAX_LINE))
        (connectRead ([.incr [97], .incr [97]].flatMap Request.wire))).map
          (fun r => (r.1.replies 5, counter r.1.server ⟨[97], by decide⟩)) = .ok ([OK ++ [lf]], 1) ∧
      (run (loopStep fun _ => 7) (startLoop (sdsnewlen (List.replicate MAX_LINE 0) MAX_LINE))
        (connectRead ((Request.wire (.incr [97])).take 5))).map
          (fun r => (r.1.replies 5, counter r.1.server ⟨[97], by decide⟩)) = .error .unassigned ∧
      Along (loopStep fun _ => 7) Possible
        (startLoop (sdsnewlen (List.replicate MAX_LINE 0) MAX_LINE))
        (connectRead ([.incr [97], .incr [97]].flatMap Request.wire)) ∧
      Along (loopStep fun _ => 7) Possible
        (startLoop (sdsnewlen (List.replicate MAX_LINE 0) MAX_LINE))
        (connectRead ((Request.wire (.incr [97])).take 5)) := by
  refine ⟨?_, ?_, ?_, ?_⟩ <;> decide +kernel

end RedisCounter
