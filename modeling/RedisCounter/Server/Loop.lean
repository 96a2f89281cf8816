import RedisCounter.Command.Serving
import Mathlib.Data.Finmap

/-!
# The event loop of the server

`main` of `server.c` after the socket is set up: `epoll_wait` returns a batch of ready events, and
the loop over the batch accepts a connection, or reads once and runs `commandServer` and waits for
`EPOLLOUT`, or writes `outbuf` and waits for `EPOLLIN` again. Every connection shares one `outbuf`.

One step of the model is one thing that happens: bytes reach a socket, `epoll_wait` returns, or the
loop handles the next event of its batch. What the kernel decides (which events are ready, how many
bytes a call transfers, the descriptor of a new connection) is part of the step; `Possible` says
what it can decide. The bytes read and written, and the replies computed, are kept as a history. A
descriptor that is closed may be given out again.
-/

namespace RedisCounter

open Run

/-- `events[20]`. -/
def EVENTS : ℕ := 20

/-- The `maxevents` that `epoll_wait` is called with. -/
def CONNECT_SIZE : ℕ := 256

/-- The event a connection is registered for. -/
inductive Interest
  | epollin | epollout
deriving DecidableEq

/-- An accepted connection: its registration, and what its socket has received and nobody has read. -/
structure Conn where
  interest : Interest
  unread : Bytes

/-- An entry of `events`. -/
inductive Event
  /-- `events[i].data.fd == listenfd`. -/
  | listen
  | epollin (sockfd : ℕ)
  | epollout (sockfd : ℕ)
deriving DecidableEq

/-- The state of the loop. -/
structure Loop where
  conns : Finmap fun _ : ℕ => Conn
  /-- The events of the batch that are still to be handled. -/
  events : List Event
  server : Server
  /-- History: what each `read` put into `inbuf`, in order. -/
  requests : List (ℕ × Bytes)
  /-- History: what `commandServer` left in `outbuf`, for the requests of each descriptor. -/
  replies : ℕ → List Bytes
  /-- History: what was written to each descriptor, by event. -/
  written : ℕ → List Bytes

/-- The loop with its keyspace created and no connection. -/
def startLoop (outbuf : Sds) : Loop := ⟨∅, [], (createDb, outbuf), [], fun _ => [], fun _ => []⟩

/-- What happens next. -/
inductive LoopStep
  /-- Bytes reach a socket. -/
  | arrive (sockfd : ℕ) (data : Bytes)
  /-- `epoll_wait` returns. -/
  | wait (events : List Event)
  /-- The loop handles the next event; its `accept`, `read` or `write` returns `ret`, where 0 stands
  for errors as well. -/
  | handle (ret : ℕ)

/-- `epoll_ctl(epfd, EPOLL_CTL_MOD, sockfd, &ev)`. -/
def setInterest (conns : Finmap fun _ : ℕ => Conn) (sockfd : ℕ) (interest : Interest) :
    Finmap fun _ : ℕ => Conn :=
  match conns.lookup sockfd with
  | none => conns
  | some conn => conns.insert sockfd { conn with interest }

/-- The branch for `EPOLLIN`: the read that returns `n` bytes. -/
def readEvent (hash : Bytes → UInt64) (l : Loop) (sockfd n : ℕ) : Except Fault Loop :=
  match l.conns.lookup sockfd with
  | none => pure l
  | some conn =>
    -- an error or the end of the stream: `close(sockfd)`
    if n = 0 then pure { l with conns := l.conns.erase sockfd }
    -- `inbuf[n] = 0` would be written behind `inbuf[MAX_LINE]`
    else if MAX_LINE ≤ n then throw .inbufOverrun
    else do
      let inbuf := conn.unread.take n
      let (server, reply) ← serve hash l.server inbuf
      pure { l with
        conns := l.conns.insert sockfd ⟨.epollout, conn.unread.drop n⟩
        server
        requests := l.requests ++ [(sockfd, inbuf)]
        replies := Function.update l.replies sockfd (l.replies sockfd ++ [reply]) }

/-- The branch for `EPOLLOUT`: the write that returns `ret`. A short write leaves the `for` loop. -/
def writeEvent (l : Loop) (sockfd ret : ℕ) : Loop :=
  let bytes := l.server.2.content.take ret
  let l := { l with written := Function.update l.written sockfd (l.written sockfd ++ [bytes]) }
  if ret ≠ sdslen l.server.2 then { l with events := [] }
  else { l with conns := setInterest l.conns sockfd .epollin }

/-- One step. -/
def loopStep (hash : Bytes → UInt64) (l : Loop) : LoopStep → Except Fault (Loop × Unit)
  | .arrive sockfd data =>
    match l.conns.lookup sockfd with
    | none => pure (l, ())
    | some conn =>
      pure ({ l with conns := l.conns.insert sockfd { conn with unread := conn.unread ++ data } }, ())
  | .wait events =>
    if EVENTS < events.length then throw .eventsOverrun else pure ({ l with events }, ())
  | .handle ret =>
    match l.events with
    -- the batch is used up: the loop waits
    | [] => pure (l, ())
    | .listen :: events =>
      pure ({ l with events, conns := l.conns.insert ret ⟨.epollin, []⟩ }, ())
    | .epollin sockfd :: events => do pure (← readEvent hash { l with events } sockfd ret, ())
    | .epollout sockfd :: events => pure (writeEvent { l with events } sockfd ret, ())

/-! ## What a step can have done -/

/-- The steps that return, with what they leave behind. -/
inductive Stepped (hash : Bytes → UInt64) (l : Loop) : LoopStep → Loop → Prop
  /-- Bytes for a closed descriptor, or a step of an empty batch. -/
  | skip {i : LoopStep} : Stepped hash l i l
  | arrive {sockfd : ℕ} {data : Bytes} {conn : Conn} (hconn : l.conns.lookup sockfd = some conn) :
      Stepped hash l (.arrive sockfd data)
        { l with conns := l.conns.insert sockfd { conn with unread := conn.unread ++ data } }
  | wait {events : List Event} (hle : events.length ≤ EVENTS) :
      Stepped hash l (.wait events) { l with events }
  | accept {ret : ℕ} {events : List Event} (hevents : l.events = .listen :: events) :
      Stepped hash l (.handle ret) { l with events, conns := l.conns.insert ret ⟨.epollin, []⟩ }
  /-- The event is for a descriptor that is closed. -/
  | stale {sockfd ret : ℕ} {events : List Event} (hevents : l.events = .epollin sockfd :: events)
      (hconn : l.conns.lookup sockfd = none) : Stepped hash l (.handle ret) { l with events }
  | close {sockfd : ℕ} {events : List Event} (hevents : l.events = .epollin sockfd :: events) :
      Stepped hash l (.handle 0) { l with events, conns := l.conns.erase sockfd }
  | read {sockfd n : ℕ} {events : List Event} {conn : Conn} {server : Server} {reply : Bytes}
      (hevents : l.events = .epollin sockfd :: events) (hconn : l.conns.lookup sockfd = some conn)
      (hpos : n ≠ 0) (hlt : n < MAX_LINE)
      (hserve : serve hash l.server (conn.unread.take n) = .ok (server, reply)) :
      Stepped hash l (.handle n) { l with
        events
        conns := l.conns.insert sockfd ⟨.epollout, conn.unread.drop n⟩
        server
        requests := l.requests ++ [(sockfd, conn.unread.take n)]
        replies := Function.update l.replies sockfd (l.replies sockfd ++ [reply]) }
  | write {sockfd ret : ℕ} {events : List Event} (hevents : l.events = .epollout sockfd :: events) :
      Stepped hash l (.handle ret) (writeEvent { l with events } sockfd ret)

section Stepped

variable {hash : Bytes → UInt64} {l l' : Loop}

theorem stepped_of_readEvent {sockfd n : ℕ} {events : List Event}
    (hevents : l.events = .epollin sockfd :: events)
    (hok : readEvent hash { l with events } sockfd n = .ok l') : Stepped hash l (.handle n) l' := by
  unfold readEvent at hok
  rcases hconn : l.conns.lookup sockfd with _ | conn
  · simp only [hconn] at hok
    cases hok
    exact .stale hevents hconn
  · simp only [hconn] at hok
    split_ifs at hok with hzero hover
    · cases hok
      rw [hzero]
      exact .close hevents
    · obtain ⟨⟨server, reply⟩, hserve, hok⟩ := bind_eq_ok hok
      cases hok
      exact .read hevents hconn hzero (Nat.lt_of_not_le hover) hserve

theorem stepped_of_ok {i : LoopStep} (hok : loopStep hash l i = .ok (l', ())) :
    Stepped hash l i l' := by
  cases i with
  | arrive sockfd data =>
    rcases hconn : l.conns.lookup sockfd with _ | conn
    · simp only [loopStep, hconn] at hok
      cases hok
      exact .skip
    · simp only [loopStep, hconn] at hok
      cases hok
      exact .arrive hconn
  | wait events =>
    simp only [loopStep] at hok
    split_ifs at hok with hover
    cases hok
    exact .wait (Nat.le_of_not_lt hover)
  | handle ret =>
    rcases hevents : l.events with _ | ⟨e, events⟩
    · simp only [loopStep, hevents] at hok
      cases hok
      exact .skip
    · simp only [loopStep, hevents] at hok
      cases e with
      | listen =>
        cases hok
        exact .accept hevents
      | epollin sockfd =>
        obtain ⟨l1, hread, hok⟩ := bind_eq_ok hok
        cases hok
        exact stepped_of_readEvent hevents hread
      | epollout sockfd =>
        cases hok
        exact .write hevents

end Stepped

/-! ## What the kernel can do -/

/-- What each descriptor is registered for. -/
def registered (conns : Finmap fun _ : ℕ => Conn) (sockfd : ℕ) : Option Interest :=
  (conns.lookup sockfd).map Conn.interest

/-- `epoll_wait` can report the event: its descriptor is registered for it. -/
def Ready (interest : ℕ → Option Interest) : Event → Prop
  | .listen => True
  | .epollin sockfd => interest sockfd = some .epollin
  | .epollout sockfd => interest sockfd = some .epollout

instance (interest : ℕ → Option Interest) : ∀ e, Decidable (Ready interest e)
  | .listen => .isTrue trivial
  | .epollin sockfd => inferInstanceAs (Decidable (interest sockfd = some .epollin))
  | .epollout sockfd => inferInstanceAs (Decidable (interest sockfd = some .epollout))

/-- What the system call for an event can return: `accept` a descriptor that is not in use, `read` and
`write` at most the bytes there are. -/
def Returns (l : Loop) (ret : ℕ) : Event → Prop
  | .listen => registered l.conns ret = none
  | .epollin sockfd => ret ≤ MAX_LINE ∧ ∀ conn ∈ l.conns.lookup sockfd, ret ≤ conn.unread.length
  | .epollout _ => ret ≤ sdslen l.server.2

instance (l : Loop) (ret : ℕ) : ∀ e, Decidable (Returns l ret e)
  | .listen => inferInstanceAs (Decidable (registered l.conns ret = none))
  | .epollin sockfd => inferInstanceAs
      (Decidable (ret ≤ MAX_LINE ∧ ∀ conn ∈ l.conns.lookup sockfd, ret ≤ conn.unread.length))
  | .epollout _ => inferInstanceAs (Decidable (ret ≤ sdslen l.server.2))

/-- What the kernel can do next. `epoll_wait` is called when the batch is used up, and reports each
descriptor once. -/
def Possible (l : Loop) : LoopStep → Prop
  | .arrive sockfd _ => registered l.conns sockfd ≠ none
  | .wait events => l.events = [] ∧ events ≠ [] ∧ events.length ≤ CONNECT_SIZE ∧ events.Nodup ∧
      ∀ e ∈ events, Ready (registered l.conns) e
  | .handle ret => l.events ≠ [] ∧ ∀ e ∈ l.events.head?, Returns l ret e

instance (l : Loop) : ∀ i, Decidable (Possible l i)
  | .arrive sockfd _ => inferInstanceAs (Decidable (registered l.conns sockfd ≠ none))
  | .wait events => inferInstanceAs (Decidable (l.events = [] ∧ events ≠ [] ∧
      events.length ≤ CONNECT_SIZE ∧ events.Nodup ∧ ∀ e ∈ events, Ready (registered l.conns) e))
  | .handle ret => inferInstanceAs
      (Decidable (l.events ≠ [] ∧ ∀ e ∈ l.events.head?, Returns l ret e))

/-! ## The loop serves the buffers it reads -/

/-- The keyspace and `outbuf` are those of a server that was given the buffers one after the other,
and each descriptor has the replies to its own. -/
def Loop.Served (hash : Bytes → UInt64) (outbuf : Sds) (l : Loop) : Prop :=
  ∃ outs, run (serve hash) (createDb, outbuf) (l.requests.map Prod.snd) = .ok (l.server, outs) ∧
    outs.length = l.requests.length ∧
    ∀ sockfd, l.replies sockfd
      = ((l.requests.zip outs).filter fun x => x.1.1 == sockfd).map Prod.snd

section Served

variable {hash : Bytes → UInt64} {outbuf : Sds} {l l' : Loop}

/-- Only the history of requests, the server and the replies matter. -/
theorem Loop.Served.congr (h : l.Served hash outbuf) (hrequests : l'.requests = l.requests)
    (hserver : l'.server = l.server) (hreplies : l'.replies = l.replies) :
    l'.Served hash outbuf := by
  obtain ⟨outs, hrun, hlen, hrouted⟩ := h
  exact ⟨outs, by rw [hrequests, hserver, hrun], by rw [hrequests, hlen],
    fun fd => by rw [hrequests, hreplies, hrouted fd]⟩

theorem Loop.Served.read (h : l.Served hash outbuf) {sockfd : ℕ} {inbuf reply : Bytes}
    {server : Server} (hserve : serve hash l.server inbuf = .ok (server, reply))
    (hrequests : l'.requests = l.requests ++ [(sockfd, inbuf)]) (hserver : l'.server = server)
    (hreplies : l'.replies = Function.update l.replies sockfd (l.replies sockfd ++ [reply])) :
    l'.Served hash outbuf := by
  obtain ⟨outs, hrun, hlen, hrouted⟩ := h
  refine ⟨outs ++ [reply], ?_, ?_, fun fd => ?_⟩
  · rw [hrequests, List.map_append, hserver]
    exact run_snoc hrun hserve
  · rw [hrequests, List.length_append, List.length_append, hlen]
    rfl
  · -- the reply goes to the descriptor that was read, and the others have what they had
    rw [hrequests, hreplies, List.zip_append hlen.symm, List.filter_append, List.map_append,
      ← hrouted fd]
    rcases eq_or_ne fd sockfd with rfl | hne
    · rw [Function.update_self]
      simp
    · rw [Function.update_of_ne hne]
      simp [hne.symm]

theorem Loop.Served.step (h : l.Served hash outbuf) {i : LoopStep} (hstep : Stepped hash l i l') :
    l'.Served hash outbuf := by
  cases hstep with
  | skip => exact h
  | arrive => exact h.congr rfl rfl rfl
  | wait => exact h.congr rfl rfl rfl
  | accept => exact h.congr rfl rfl rfl
  | stale => exact h.congr rfl rfl rfl
  | close => exact h.congr rfl rfl rfl
  | read hevents hconn hpos hlt hserve => exact h.read hserve rfl rfl rfl
  | write hevents =>
    unfold writeEvent
    dsimp only
    split_ifs
    · exact h.congr rfl rfl rfl
    · exact h.congr rfl rfl rfl

theorem served_startLoop : (startLoop outbuf).Served hash outbuf := ⟨[], rfl, rfl, fun _ => rfl⟩

/-- Every run of the loop is a run of `serve` over the buffers that were read, in the order of the
reads, whatever the connections and the batches. -/
theorem served_of_run {steps : List LoopStep} {outs : List Unit}
    (hrun : run (loopStep hash) (startLoop outbuf) steps = .ok (l, outs)) : l.Served hash outbuf := by
  refine inv_of_run (Loop.Served hash outbuf) ?_ served_startLoop hrun
  exact fun l i l' o h hok => h.step (stepped_of_ok hok)

end Served

end RedisCounter
