import RedisCounter.Server.Loop

/-!
# Which connection gets which reply

A reply is computed when the request is read, and written on a later event from the `outbuf` that all
connections share. As long as no request is read while a connection waits for its reply, and writes
are not cut short, every connection is sent the replies to its own requests. Two requests in one
batch are enough for the first connection to be sent the reply to the second.
-/

namespace RedisCounter

open Run

/-- Each connection was written the replies computed for its own requests, one for one; the reply to
its last request may be outstanding. -/
def Routed (l : Loop) : Prop :=
  ∀ sockfd, l.replies sockfd = l.written sockfd ∨
    ∃ reply, l.replies sockfd = l.written sockfd ++ [reply]

/-- No event but the one at hand needs `outbuf`: a request is read only while no connection waits for
its reply, and a write takes all of `outbuf`. -/
def Exclusive (l : Loop) (ret : ℕ) : Event → Prop
  | .listen => True
  | .epollin _ => ret = 0 ∨ ∀ sockfd ∈ l.conns.keys, registered l.conns sockfd = some .epollin
  | .epollout _ => ret = sdslen l.server.2

instance (l : Loop) (ret : ℕ) : ∀ e, Decidable (Exclusive l ret e)
  | .listen => .isTrue trivial
  | .epollin _ => inferInstanceAs
      (Decidable (ret = 0 ∨ ∀ sockfd ∈ l.conns.keys, registered l.conns sockfd = some .epollin))
  | .epollout _ => inferInstanceAs (Decidable (ret = sdslen l.server.2))

/-- The step handles its event, if it handles one, exclusively. -/
def Unshared (l : Loop) : LoopStep → Prop
  | .handle ret => ∀ e ∈ l.events.head?, Exclusive l ret e
  | _ => True

instance (l : Loop) : ∀ i, Decidable (Unshared l i)
  | .arrive _ _ => .isTrue trivial
  | .wait _ => .isTrue trivial
  | .handle ret => inferInstanceAs (Decidable (∀ e ∈ l.events.head?, Exclusive l ret e))

/-! ## The registrations -/

section Interest

variable {l : Loop} {hash : Bytes → UInt64} {sockfd : ℕ}

theorem registered_insert (conns : Finmap fun _ : ℕ => Conn) (conn : Conn) :
    registered (conns.insert sockfd conn)
      = Function.update (registered conns) sockfd (some conn.interest) := by
  funext fd
  unfold registered
  rcases eq_or_ne fd sockfd with rfl | hne
  · rw [Function.update_self, Finmap.lookup_insert, Option.map_some]
  · rw [Function.update_of_ne hne, Finmap.lookup_insert_of_ne _ hne]

theorem registered_erase (conns : Finmap fun _ : ℕ => Conn) :
    registered (conns.erase sockfd) = Function.update (registered conns) sockfd none := by
  funext fd
  unfold registered
  rcases eq_or_ne fd sockfd with rfl | hne
  · rw [Function.update_self, Finmap.lookup_erase, Option.map_none]
  · rw [Function.update_of_ne hne, Finmap.lookup_erase_ne hne]

/-- The other events of a batch stay ready when the registration of one descriptor changes. -/
theorem ready_update {interest : ℕ → Option Interest} {events : List Event}
    (h : ∀ e ∈ events, Ready interest e) (hin : Event.epollin sockfd ∉ events)
    (hout : Event.epollout sockfd ∉ events) (x : Option Interest) :
    ∀ e ∈ events, Ready (Function.update interest sockfd x) e := by
  intro e he
  cases e with
  | listen => trivial
  | epollin fd =>
    have hne : fd ≠ sockfd := by
      rintro rfl
      exact hin he
    show Function.update interest sockfd x fd = _
    rw [Function.update_of_ne hne]
    exact h _ he
  | epollout fd =>
    have hne : fd ≠ sockfd := by
      rintro rfl
      exact hout he
    show Function.update interest sockfd x fd = _
    rw [Function.update_of_ne hne]
    exact h _ he

end Interest

/-! ## The invariant -/

/-- A connection that waits for `EPOLLOUT` is owed one reply, and it is in `outbuf`; the others are
owed none. -/
structure Loop.Inv (l : Loop) : Prop where
  ready : ∀ e ∈ l.events, Ready (registered l.conns) e
  nodup : l.events.Nodup
  idle : ∀ fd, registered l.conns fd ≠ some .epollout → l.replies fd = l.written fd
  waiting : ∀ fd, registered l.conns fd = some .epollout →
    l.replies fd = l.written fd ++ [l.server.2.content]

theorem inv_startLoop (outbuf : Sds) : (startLoop outbuf).Inv where
  ready := by simp [startLoop]
  nodup := List.nodup_nil
  idle _ _ := rfl
  waiting fd h := by cases h

theorem Loop.Inv.routed {l : Loop} (h : l.Inv) : Routed l := by
  intro fd
  by_cases hfd : registered l.conns fd = some .epollout
  · exact .inr ⟨_, h.waiting fd hfd⟩
  · exact .inl (h.idle fd hfd)

/-! ## Each step keeps the invariant -/

section Steps

variable {hash : Bytes → UInt64} {l l' : Loop} {sockfd : ℕ}

/-- Changing one registration to anything but `EPOLLOUT`, when the descriptor is owed nothing. -/
theorem Loop.Inv.register (h : l.Inv) {events : List Event} {conns : Finmap fun _ : ℕ => Conn}
    {x : Option Interest} (hx : x ≠ some .epollout)
    (hconns : registered conns = Function.update (registered l.conns) sockfd x)
    (hready : ∀ e ∈ events, Ready (Function.update (registered l.conns) sockfd x) e)
    (hnodup : events.Nodup) (howed : l.replies sockfd = l.written sockfd) :
    ({ l with events, conns } : Loop).Inv where
  ready e he := by
    show Ready (registered conns) e
    rw [hconns]
    exact hready e he
  nodup := hnodup
  idle fd hfd := by
    rcases eq_or_ne fd sockfd with rfl | hne
    · exact howed
    · refine h.idle fd fun hold => hfd ?_
      show registered conns fd = some .epollout
      rw [hconns, Function.update_of_ne hne, hold]
  waiting fd hfd := by
    have hfd : registered conns fd = some .epollout := hfd
    rw [hconns] at hfd
    rcases eq_or_ne fd sockfd with rfl | hne
    · rw [Function.update_self] at hfd
      exact absurd hfd hx
    · rw [Function.update_of_ne hne] at hfd
      exact h.waiting fd hfd

/-- The events behind one for a descriptor are for other descriptors. -/
theorem not_mem_of_ready {e : Event} {events : List Event} {interest : ℕ → Option Interest}
    (hready : ∀ x ∈ e :: events, Ready interest x) (hnodup : (e :: events).Nodup)
    (he : e = .epollin sockfd ∨ e = .epollout sockfd) :
    Event.epollin sockfd ∉ events ∧ Event.epollout sockfd ∉ events := by
  have hmem := (List.nodup_cons.1 hnodup).1
  have hself := hready e (List.mem_cons_self ..)
  constructor <;> intro hother
  · rcases he with rfl | rfl
    · exact hmem hother
    · have hin := hready _ (List.mem_cons_of_mem _ hother)
      exact absurd (Option.some.inj (hin.symm.trans hself)) (by decide)
  · rcases he with rfl | rfl
    · have hout := hready _ (List.mem_cons_of_mem _ hother)
      exact absurd (Option.some.inj (hself.symm.trans hout)) (by decide)
    · exact hmem hother

/-- The event at hand is ready, and so are those behind it. -/
theorem Loop.Inv.batch (h : l.Inv) {e : Event} {events : List Event} (hevents : l.events = e :: events) :
    Ready (registered l.conns) e ∧ (∀ e' ∈ events, Ready (registered l.conns) e') ∧ events.Nodup := by
  have hready := h.ready
  have hnodup := h.nodup
  rw [hevents] at hready hnodup
  exact ⟨hready e (List.mem_cons_self ..), fun e' he' => hready e' (List.mem_cons_of_mem e he'),
    (List.nodup_cons.1 hnodup).2⟩

/-- The events behind one for a descriptor stay ready when its registration changes. -/
theorem Loop.Inv.behind (h : l.Inv) {e : Event} {events : List Event} (hevents : l.events = e :: events)
    (he : e = .epollin sockfd ∨ e = .epollout sockfd) (x : Option Interest) :
    ∀ e' ∈ events, Ready (Function.update (registered l.conns) sockfd x) e' := by
  have hready := h.ready
  have hnodup := h.nodup
  rw [hevents] at hready hnodup
  obtain ⟨hin, hout⟩ := not_mem_of_ready hready hnodup he
  exact ready_update (h.batch hevents).2.1 hin hout x

theorem Loop.Inv.accept (h : l.Inv) {events : List Event} (hevents : l.events = .listen :: events)
    (hnew : registered l.conns sockfd = none) :
    ({ l with events, conns := l.conns.insert sockfd ⟨.epollin, []⟩ } : Loop).Inv := by
  obtain ⟨-, hrest, hnodup⟩ := h.batch hevents
  -- the batch has no event for a descriptor that is given out only now
  have hin : Event.epollin sockfd ∉ events := by
    intro hmem
    have hreg : registered l.conns sockfd = some .epollin := hrest _ hmem
    rw [hnew] at hreg
    cases hreg
  have hout : Event.epollout sockfd ∉ events := by
    intro hmem
    have hreg : registered l.conns sockfd = some .epollout := hrest _ hmem
    rw [hnew] at hreg
    cases hreg
  refine h.register (by decide) (registered_insert _ _) (ready_update hrest hin hout _) hnodup
    (h.idle sockfd ?_)
  rw [hnew]
  decide

theorem Loop.Inv.arrive (h : l.Inv) {conn conn' : Conn} (hconn : l.conns.lookup sockfd = some conn)
    (hsame : conn'.interest = conn.interest) :
    ({ l with conns := l.conns.insert sockfd conn' } : Loop).Inv := by
  have hsame' : registered (l.conns.insert sockfd conn') = registered l.conns := by
    have hself : registered l.conns sockfd = some conn.interest :=
      congrArg (Option.map Conn.interest) hconn
    rw [registered_insert, hsame, ← hself, Function.update_eq_self]
  refine ⟨fun e he => ?_, h.nodup, fun fd hfd => h.idle fd ?_, fun fd hfd => h.waiting fd ?_⟩
  · show Ready (registered (l.conns.insert sockfd conn')) e
    rw [hsame']
    exact h.ready e he
  · rw [← hsame']
    exact hfd
  · rw [← hsame']
    exact hfd

theorem Loop.exists_conn {x : Interest} (h : registered l.conns sockfd = some x) :
    ∃ conn, l.conns.lookup sockfd = some conn ∧ conn.interest = x := Option.map_eq_some_iff.1 h

/-- A connection that hangs up is owed nothing. -/
theorem Loop.Inv.close (h : l.Inv) {events : List Event}
    (hevents : l.events = .epollin sockfd :: events) :
    ({ l with events, conns := l.conns.erase sockfd } : Loop).Inv := by
  obtain ⟨hself, -, hnodup⟩ := h.batch hevents
  have hself : registered l.conns sockfd = some .epollin := hself
  refine h.register (by decide) (registered_erase _) (h.behind hevents (.inl rfl) _) hnodup
    (h.idle sockfd ?_)
  rw [hself]
  decide

/-- A request that is read while no connection waits leaves only its own waiting. -/
theorem Loop.Inv.read (h : l.Inv) {events : List Event} {requests : List (ℕ × Bytes)}
    {server : Server} {unread reply : Bytes} (hevents : l.events = .epollin sockfd :: events)
    (hquiet : ∀ fd, registered l.conns fd ≠ some .epollout) (hreply : server.2.content = reply) :
    ({ l with
        events
        conns := l.conns.insert sockfd ⟨.epollout, unread⟩
        server
        requests
        replies := Function.update l.replies sockfd (l.replies sockfd ++ [reply]) } : Loop).Inv := by
  refine ⟨fun e he => ?_, (h.batch hevents).2.2, fun fd hfd => ?_, fun fd hfd => ?_⟩
  · show Ready (registered (l.conns.insert sockfd ⟨.epollout, unread⟩)) e
    rw [registered_insert]
    exact h.behind hevents (.inl rfl) _ e he
  · have hfd : registered (l.conns.insert sockfd ⟨.epollout, unread⟩) fd ≠ some .epollout := hfd
    rw [registered_insert] at hfd
    rcases eq_or_ne fd sockfd with rfl | hne
    · exact absurd (Function.update_self ..) hfd
    · show Function.update l.replies sockfd _ fd = l.written fd
      rw [Function.update_of_ne hne]
      exact h.idle fd (hquiet fd)
  · have hfd : registered (l.conns.insert sockfd ⟨.epollout, unread⟩) fd = some .epollout := hfd
    rw [registered_insert] at hfd
    rcases eq_or_ne fd sockfd with rfl | hne
    · show Function.update l.replies fd _ fd = l.written fd ++ [server.2.content]
      rw [Function.update_self, h.idle fd (hquiet fd), hreply]
    · rw [Function.update_of_ne hne] at hfd
      exact absurd hfd (hquiet fd)

/-- A write of all of `outbuf` pays the connection what it is owed. -/
theorem Loop.Inv.write (h : l.Inv) {events : List Event} {ret : ℕ}
    (hevents : l.events = .epollout sockfd :: events) (hall : ret = sdslen l.server.2) :
    (writeEvent { l with events } sockfd ret).Inv := by
  obtain ⟨hself, -, hnodup⟩ := h.batch hevents
  have hself : registered l.conns sockfd = some .epollout := hself
  obtain ⟨conn, hconn, -⟩ := Loop.exists_conn hself
  have hbytes : l.server.2.content.take (sdslen l.server.2) = l.server.2.content := by
    simp [Sds.content, sdslen]
  simp only [writeEvent, hall, ne_eq, not_true_eq_false, if_false, setInterest, hconn, hbytes]
  refine ⟨fun e he => ?_, hnodup, fun fd hfd => ?_, fun fd hfd => ?_⟩
  · show Ready (registered (l.conns.insert sockfd _)) e
    rw [registered_insert]
    exact h.behind hevents (.inr rfl) _ e he
  · have hfd : registered (l.conns.insert sockfd _) fd ≠ some .epollout := hfd
    rw [registered_insert] at hfd
    rcases eq_or_ne fd sockfd with rfl | hne
    · show l.replies fd = Function.update l.written fd _ fd
      rw [Function.update_self]
      exact h.waiting fd hself
    · show l.replies fd = Function.update l.written sockfd _ fd
      rw [Function.update_of_ne hne] at hfd ⊢
      exact h.idle fd hfd
  · have hfd : registered (l.conns.insert sockfd _) fd = some .epollout := hfd
    rw [registered_insert] at hfd
    rcases eq_or_ne fd sockfd with rfl | hne
    · rw [Function.update_self] at hfd
      cases hfd
    · show l.replies fd = Function.update l.written sockfd _ fd ++ _
      rw [Function.update_of_ne hne] at hfd ⊢
      exact h.waiting fd hfd

/-- One step of the loop. -/
theorem Loop.Inv.step (h : l.Inv) {i : LoopStep} (hp : Possible l i) (hu : Unshared l i)
    (hstep : Stepped hash l i l') : l'.Inv := by
  have hhead : ∀ {e : Event} {events : List Event}, l.events = e :: events → e ∈ l.events.head? :=
    fun hevents => by rw [hevents, List.head?_cons, Option.mem_some_iff]
  cases hstep with
  | skip => exact h
  | arrive hconn => exact h.arrive hconn rfl
  | wait =>
    obtain ⟨-, -, -, hnodup, hready⟩ := hp
    exact ⟨hready, hnodup, h.idle, h.waiting⟩
  | accept hevents => exact h.accept hevents (hp.2 _ (hhead hevents))
  | @stale sockfd ret events hevents hconn =>
    -- a ready event is for a descriptor that is registered
    have hself : registered l.conns sockfd = some .epollin :=
      h.ready (.epollin sockfd) (by rw [hevents]; simp)
    obtain ⟨conn, hconn', -⟩ := Loop.exists_conn hself
    rw [hconn] at hconn'
    cases hconn'
  | close hevents => exact h.close hevents
  | read hevents hconn hpos hlt hserve =>
    refine h.read hevents (fun fd hfd => ?_) (ok_of_serve hserve).2
    rcases hu _ (hhead hevents) with hzero | hall
    · exact hpos hzero
    · -- no connection waits when a request is read
      obtain ⟨c, hc, -⟩ := Loop.exists_conn hfd
      have hkey : fd ∈ l.conns.keys := Finmap.mem_keys.2 (Finmap.mem_of_lookup_eq_some hc)
      exact absurd (Option.some.inj (hfd.symm.trans (hall fd hkey))) (by decide)
  | write hevents => exact h.write hevents (hu _ (hhead hevents))

end Steps

/-! ## Runs -/

/-- In every run whose steps handle their events exclusively, each connection is sent the replies to
its own requests, whatever the batches. -/
theorem routed_of_unshared (hash : Bytes → UInt64) (outbuf : Sds) (steps : List LoopStep) (l : Loop)
    (outs : List Unit)
    (hsteps : Along (loopStep hash) (fun l i => Possible l i ∧ Unshared l i) (startLoop outbuf) steps)
    (hrun : run (loopStep hash) (startLoop outbuf) steps = .ok (l, outs)) : Routed l := by
  refine (inv_of_along Loop.Inv ?_ hsteps (inv_startLoop outbuf) hrun).routed
  intro l i l' o h hi hok
  exact h.step hi.1 hi.2 (stepped_of_ok hok)

/-- Two clients connect; the first sends `incr a` and the second `get b`. -/
def twoClients : List LoopStep :=
  [.wait [.listen], .handle 5, .wait [.listen], .handle 6, .arrive 5 (Request.wire (.incr [97])),
    .arrive 6 (Request.wire (.get [98]))]

/-- They are served one after the other, and get their replies. -/
theorem routed_turns :
    ∃ l outs, run (loopStep fun _ => 0) (startLoop (sdsnewlen (List.replicate MAX_LINE 0) MAX_LINE))
        (twoClients ++ [.wait [.epollin 5], .handle (Request.wire (.incr [97])).length,
          .wait [.epollout 5], .handle 3, .wait [.epollin 6],
          .handle (Request.wire (.get [98])).length, .wait [.epollout 6], .handle 12])
        = .ok (l, outs) ∧ Routed l := by
  generalize hsteps : twoClients ++ [.wait [.epollin 5], .handle (Request.wire (.incr [97])).length,
    .wait [.epollout 5], .handle 3, .wait [.epollin 6], .handle (Request.wire (.get [98])).length,
    .wait [.epollout 6], .handle 12] = steps
  have halong : Along (loopStep fun _ => 0) (fun l i => Possible l i ∧ Unshared l i)
      (startLoop (sdsnewlen (List.replicate MAX_LINE 0) MAX_LINE)) steps := by
    rw [← hsteps]
    decide +kernel
  obtain ⟨l, outs, hrun, -⟩ : ∃ l outs, run (loopStep fun _ => 0)
      (startLoop (sdsnewlen (List.replicate MAX_LINE 0) MAX_LINE)) steps = .ok (l, outs) ∧ True := by
    apply exists_of_ends
    rw [← hsteps]
    decide +kernel
  exact ⟨l, outs, hrun, routed_of_unshared _ _ _ l outs halong hrun⟩

/-- They are ready in one batch: `commandServer` replied `ok` to the first, and the first is sent
`missing key`, the reply to the second. -/
theorem not_routed_batch :
    Along (loopStep fun _ => 0) Possible
        (startLoop (sdsnewlen (List.replicate MAX_LINE 0) MAX_LINE))
        (twoClients ++ [.wait [.epollin 5, .epollin 6], .handle (Request.wire (.incr [97])).length,
          .handle (Request.wire (.get [98])).length, .wait [.epollout 5], .handle 12]) ∧
      ∃ l outs, run (loopStep fun _ => 0)
          (startLoop (sdsnewlen (List.replicate MAX_LINE 0) MAX_LINE))
          (twoClients ++ [.wait [.epollin 5, .epollin 6], .handle (Request.wire (.incr [97])).length,
            .handle (Request.wire (.get [98])).length, .wait [.epollout 5], .handle 12])
          = .ok (l, outs) ∧
        l.replies 5 = [OK ++ [lf]] ∧ l.written 5 = [MISSING ++ [lf]] ∧ ¬ Routed l := by
  refine ⟨by decide +kernel, ?_⟩
  generalize hsteps : twoClients ++ [.wait [.epollin 5, .epollin 6],
    .handle (Request.wire (.incr [97])).length, .handle (Request.wire (.get [98])).length,
    .wait [.epollout 5], .handle 12] = steps
  obtain ⟨l, outs, hrun, hreplies, hwritten⟩ : ∃ l outs, run (loopStep fun _ => 0)
      (startLoop (sdsnewlen (List.replicate MAX_LINE 0) MAX_LINE)) steps = .ok (l, outs) ∧
        l.replies 5 = [OK ++ [lf]] ∧ l.written 5 = [MISSING ++ [lf]] := by
    apply exists_of_ends
    rw [← hsteps]
    decide +kernel
  refine ⟨l, outs, hrun, hreplies, hwritten, fun hrouted => ?_⟩
  have h5 := hrouted 5
  rw [hreplies, hwritten] at h5
  rcases h5 with heq | ⟨reply, heq⟩
  · exact absurd heq (by decide)
  · exact absurd (congrArg List.length heq) (by simp)

end RedisCounter
