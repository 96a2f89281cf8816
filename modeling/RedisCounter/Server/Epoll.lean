import RedisCounter.Server.Loop

/-!
# Which descriptors `epoll_wait` will report

All descriptors are registered with `EPOLLET`: one is reported when it becomes ready after its last
report, and once more when `epoll_ctl` finds it ready. The kernel's part is kept beside the loop: the
accept queue of `listenfd`, and the reports that are due. A report of `listenfd` is answered with one
`accept`, however many connections are queued, and a short write leaves the batch with the reports
behind it. Wherever neither loses work, every descriptor with work has a report that is due when the
loop is back at `epoll_wait`.
-/

namespace RedisCounter

open Run

/-- The loop and the kernel's part of it. -/
structure Epoll where
  loop : Loop
  /-- The accept queue of `listenfd`: what each connection has sent before it is accepted. -/
  backlog : List Bytes
  /-- Ready for another reason than bytes: room in the send buffer, the end of the stream, an error. -/
  signalled : Event → Bool
  /-- The reports that are due. -/
  pending : Event → Bool

def startEpoll (outbuf : Sds) : Epoll := ⟨startLoop outbuf, [], fun _ => false, fun _ => false⟩

/-- What happens next. -/
inductive EpollStep
  /-- A client connects. -/
  | connect
  /-- Bytes reach the `i`-th connection of the accept queue. -/
  | queued (i : ℕ) (data : Bytes)
  /-- A socket becomes ready for another reason than bytes, or is no longer. -/
  | signal (e : Event) (b : Bool)
  /-- Bytes reach a socket, `epoll_wait` returns, or the loop handles an event. -/
  | loop (i : LoopStep)

namespace Epoll

/-- Whether a descriptor is ready. -/
def isReady (k : Epoll) : Event → Bool
  | .listen => !k.backlog.isEmpty
  | .epollin sockfd => k.signalled (.epollin sockfd) ||
      (k.loop.conns.lookup sockfd).any fun conn => !conn.unread.isEmpty
  | .epollout sockfd => k.signalled (.epollout sockfd)

/-- New readiness: a report is due if the descriptor is registered for the event. -/
def raise (k : Epoll) (e : Event) : Epoll :=
  if Ready (registered k.loop.conns) e then { k with pending := Function.update k.pending e true }
  else k

/-- `epoll_ctl` for a descriptor, or `close`, which takes it out of the set: a report is due for what
it is registered for now, if it is ready. -/
def control (k : Epoll) (sockfd : ℕ) : Epoll :=
  { k with pending := fun e =>
      if e = .epollin sockfd ∨ e = .epollout sockfd then
        decide (Ready (registered k.loop.conns) e) && k.isReady e
      else k.pending e }

end Epoll

/-- One step. -/
def epollStep (hash : Bytes → UInt64) (k : Epoll) : EpollStep → Except Fault (Epoll × Unit)
  | .connect => pure ({ k with backlog := k.backlog ++ [[]] }.raise .listen, ())
  | .queued i data => pure ({ k with backlog := k.backlog.modify i (· ++ data) }, ())
  | .signal e b =>
    let k := { k with signalled := Function.update k.signalled e b }
    pure (if b then k.raise e else k, ())
  | .loop i => do
    let (loop, _) ← loopStep hash k.loop i
    match i with
    | .arrive sockfd _ => pure ({ k with loop }.raise (.epollin sockfd), ())
    | .wait events =>
      pure ({ k with loop, pending := fun e => k.pending e && !events.contains e }, ())
    | .handle ret =>
      match k.loop.events with
      | [] => pure ({ k with loop }, ())
      | .listen :: _ => do
        -- the connection at the head of the queue, with what it has sent; `EPOLL_CTL_ADD`
        let (loop, _) ← loopStep hash loop (.arrive ret (k.backlog.headD []))
        pure ({ k with loop, backlog := k.backlog.tail }.control ret, ())
      -- `close`, or `EPOLL_CTL_MOD` to `EPOLLOUT`
      | .epollin sockfd :: _ => pure ({ k with loop }.control sockfd, ())
      | .epollout sockfd :: _ =>
        -- a short write leaves the registration alone
        if ret ≠ sdslen k.loop.server.2 then pure ({ k with loop }, ())
        else pure ({ k with loop }.control sockfd, ())

/-- What the kernel can do next: it reports only what is due, and accepts only what is queued. -/
def PossibleEpoll (k : Epoll) : EpollStep → Prop
  | .connect => True
  | .queued i _ => i < k.backlog.length
  | .signal e _ => e ≠ .listen
  | .loop (.arrive sockfd data) => Possible k.loop (.arrive sockfd data) ∧ data ≠ []
  | .loop (.wait events) => Possible k.loop (.wait events) ∧ ∀ e ∈ events, k.pending e = true
  | .loop (.handle ret) =>
    Possible k.loop (.handle ret) ∧ (k.loop.events.head? = some .listen → k.backlog ≠ [])

instance (k : Epoll) : ∀ i, Decidable (PossibleEpoll k i)
  | .connect => .isTrue trivial
  | .queued i _ => inferInstanceAs (Decidable (i < k.backlog.length))
  | .signal e _ => inferInstanceAs (Decidable (e ≠ .listen))
  | .loop (.arrive sockfd data) =>
    inferInstanceAs (Decidable (Possible k.loop (.arrive sockfd data) ∧ data ≠ []))
  | .loop (.wait events) => inferInstanceAs
      (Decidable (Possible k.loop (.wait events) ∧ ∀ e ∈ events, k.pending e = true))
  | .loop (.handle ret) => inferInstanceAs (Decidable
      (Possible k.loop (.handle ret) ∧ (k.loop.events.head? = some .listen → k.backlog ≠ [])))

/-- A descriptor has work that nobody has handled: a connection in the accept queue, or unread bytes
on a socket that is waited on for input. -/
def Work (k : Epoll) : Event → Prop
  | .listen => k.backlog ≠ []
  | .epollin sockfd =>
    ∃ conn ∈ k.loop.conns.lookup sockfd, conn.interest = .epollin ∧ conn.unread ≠ []
  | .epollout _ => False

instance (k : Epoll) : ∀ e, Decidable (Work k e)
  | .listen => inferInstanceAs (Decidable (k.backlog ≠ []))
  | .epollin sockfd => inferInstanceAs (Decidable
      (∃ conn ∈ k.loop.conns.lookup sockfd, conn.interest = .epollin ∧ conn.unread ≠ []))
  | .epollout _ => .isFalse id

/-- Back at `epoll_wait`, every descriptor with work has a report that is due. -/
def NoLostWakeup (k : Epoll) : Prop :=
  k.loop.events = [] → ∀ e, Work k e → k.pending e = true

/-- The loop is back at `epoll_wait`, and the work of a descriptor has no report. -/
def Lost (k : Epoll) (e : Event) : Prop := k.loop.events = [] ∧ Work k e ∧ k.pending e = false

instance (k : Epoll) (e : Event) : Decidable (Lost k e) :=
  inferInstanceAs (Decidable (k.loop.events = [] ∧ Work k e ∧ k.pending e = false))

theorem Lost.not_noLostWakeup {k : Epoll} {e : Event} (h : Lost k e) : ¬ NoLostWakeup k := by
  obtain ⟨hidle, hwork, hlost⟩ := h
  intro hall
  rw [hall hidle e hwork] at hlost
  cases hlost

/-- Handling the event loses no report: the connection that is accepted is the only one in the queue,
or another came in after the report; and behind a short write there is no work that is not due for a
report of its own. -/
def Keeps (k : Epoll) (ret : ℕ) : Event → Prop
  | .listen => k.backlog.length ≤ 1 ∨ k.pending .listen = true
  | .epollin _ => True
  | .epollout _ =>
    ret = sdslen k.loop.server.2 ∨ ∀ e ∈ k.loop.events.tail, Work k e → k.pending e = true

instance (k : Epoll) (ret : ℕ) : ∀ e, Decidable (Keeps k ret e)
  | .listen => inferInstanceAs (Decidable (k.backlog.length ≤ 1 ∨ k.pending .listen = true))
  | .epollin _ => .isTrue trivial
  | .epollout _ => inferInstanceAs (Decidable
      (ret = sdslen k.loop.server.2 ∨ ∀ e ∈ k.loop.events.tail, Work k e → k.pending e = true))

/-- The step loses no report. -/
def Lossless (k : Epoll) : EpollStep → Prop
  | .loop (.handle ret) => ∀ e ∈ k.loop.events.head?, Keeps k ret e
  | _ => True

instance (k : Epoll) : ∀ i, Decidable (Lossless k i)
  | .connect => .isTrue trivial
  | .queued _ _ => .isTrue trivial
  | .signal _ _ => .isTrue trivial
  | .loop (.arrive _ _) => .isTrue trivial
  | .loop (.wait _) => .isTrue trivial
  | .loop (.handle ret) => inferInstanceAs (Decidable (∀ e ∈ k.loop.events.head?, Keeps k ret e))

/-! ## The invariant -/

/-- Every descriptor with work has a report that is due, or one in the batch that is still to be
handled. -/
def Epoll.Inv (k : Epoll) : Prop := ∀ e, Work k e → k.pending e = true ∨ e ∈ k.loop.events

theorem inv_startEpoll (outbuf : Sds) : (startEpoll outbuf).Inv := by
  intro e hwork
  cases e with
  | listen => exact absurd rfl hwork
  | epollin sockfd =>
    obtain ⟨conn, hconn, -⟩ := hwork
    cases hconn
  | epollout sockfd => exact hwork.elim

theorem Epoll.Inv.noLostWakeup {k : Epoll} (h : k.Inv) : NoLostWakeup k := by
  intro hevents e hwork
  rcases h e hwork with hpending | hmem
  · exact hpending
  · rw [hevents] at hmem
    cases hmem

/-- Nothing but the connection of one descriptor changes, among what the kernel looks at. -/
structure Loop.Only (sockfd : ℕ) (l l' : Loop) : Prop where
  events : l'.events = l.events
  lookup : ∀ fd, fd ≠ sockfd → l'.conns.lookup fd = l.conns.lookup fd

section Only

variable {hash : Bytes → UInt64} {l l' : Loop} {sockfd : ℕ}

theorem Loop.Only.insert (conn : Conn) :
    l.Only sockfd { l with conns := l.conns.insert sockfd conn } :=
  ⟨rfl, fun _ hne => Finmap.lookup_insert_of_ne _ hne⟩

theorem Loop.Only.arrive {data : Bytes}
    (hok : loopStep hash l (.arrive sockfd data) = .ok (l', ())) : l.Only sockfd l' := by
  simp only [loopStep] at hok
  rcases hconn : l.conns.lookup sockfd with _ | conn
  · rw [hconn] at hok
    cases hok
    exact ⟨rfl, fun _ _ => rfl⟩
  · rw [hconn] at hok
    cases hok
    exact .insert _

theorem Loop.Only.read {n : ℕ} (hok : readEvent hash l sockfd n = .ok l') : l.Only sockfd l' := by
  simp only [readEvent] at hok
  rcases hconn : l.conns.lookup sockfd with _ | conn
  · rw [hconn] at hok
    cases hok
    exact ⟨rfl, fun _ _ => rfl⟩
  · rw [hconn] at hok
    dsimp only at hok
    split_ifs at hok with hzero hover
    · cases hok
      exact ⟨rfl, fun _ hne => Finmap.lookup_erase_ne hne⟩
    · obtain ⟨⟨server, reply⟩, -, hok⟩ := bind_eq_ok hok
      cases hok
      exact ⟨rfl, fun _ hne => Finmap.lookup_insert_of_ne _ hne⟩

/-- A write of all of `outbuf`. -/
theorem Loop.Only.write (l : Loop) (sockfd : ℕ) :
    l.Only sockfd (writeEvent l sockfd (sdslen l.server.2)) := by
  unfold writeEvent
  dsimp only
  rw [if_neg fun hne => hne rfl]
  refine ⟨rfl, fun fd hne => ?_⟩
  unfold setInterest
  rcases l.conns.lookup sockfd with _ | conn
  · rfl
  · exact Finmap.lookup_insert_of_ne _ hne

end Only

section Steps

variable {hash : Bytes → UInt64} {k k' : Epoll} {e : Event} {sockfd : ℕ}

/-- Work for one descriptor is not touched by what happens to the others. -/
theorem Work.congr (hwork : Work k' e) (hbacklog : e = .listen → k'.backlog = k.backlog)
    (hlookup : ∀ fd, e = .epollin fd → k'.loop.conns.lookup fd = k.loop.conns.lookup fd) :
    Work k e := by
  cases e with
  | listen =>
    show k.backlog ≠ []
    rw [← hbacklog rfl]
    exact hwork
  | epollin fd =>
    obtain ⟨conn, hconn, hconn'⟩ := hwork
    refine ⟨conn, ?_, hconn'⟩
    rw [← hlookup fd rfl]
    exact hconn
  | epollout fd => exact hwork.elim

/-- A socket with work is registered for input and ready. -/
theorem Work.ready (hwork : Work k (.epollin sockfd)) :
    Ready (registered k.loop.conns) (.epollin sockfd) ∧ k.isReady (.epollin sockfd) = true := by
  obtain ⟨conn, hconn, hinterest, hunread⟩ := hwork
  have hconn : k.loop.conns.lookup sockfd = some conn := hconn
  constructor
  · show registered k.loop.conns sockfd = some .epollin
    rw [registered, hconn, Option.map_some, hinterest]
  · simp [Epoll.isReady, hconn, hunread]

theorem pending_raise (h : k.pending e = true) (e' : Event) : (k.raise e').pending e = true := by
  unfold Epoll.raise
  split_ifs
  · by_cases heq : e = e'
    · subst heq
      exact Function.update_self ..
    · rw [← h]
      exact Function.update_of_ne heq ..
  · exact h

theorem pending_raise_self (h : Ready (registered k.loop.conns) e) : (k.raise e).pending e = true := by
  unfold Epoll.raise
  rw [if_pos h]
  exact Function.update_self ..

@[simp] theorem loop_raise (k : Epoll) (e : Event) : (k.raise e).loop = k.loop := by
  unfold Epoll.raise
  split_ifs <;> rfl

@[simp] theorem backlog_raise (k : Epoll) (e : Event) : (k.raise e).backlog = k.backlog := by
  unfold Epoll.raise
  split_ifs <;> rfl

theorem Work.of_raise {e' : Event} (hwork : Work (k.raise e') e) : Work k e := by
  refine hwork.congr (fun _ => ?_) fun fd _ => ?_
  · rw [backlog_raise]
  · rw [loop_raise]

/-- New work comes with a report of its own. -/
theorem Epoll.Inv.raise (h : k.Inv) {e' : Event} (hevents : k'.loop.events = k.loop.events)
    (hpending : k'.pending = k.pending)
    (hnew : ∀ e, Work k' e → Work k e ∨ e = e' ∧ Ready (registered k'.loop.conns) e') :
    (k'.raise e').Inv := by
  intro e hwork
  rw [loop_raise, hevents]
  rcases hnew e hwork.of_raise with hold | ⟨rfl, hready⟩
  · refine (h e hold).imp_left fun hdue => pending_raise ?_ e'
    rw [hpending]
    exact hdue
  · exact .inl (pending_raise_self hready)

theorem Epoll.Inv.connect (h : k.Inv) :
    ({ k with backlog := k.backlog ++ [[]] }.raise .listen).Inv := by
  refine h.raise rfl rfl fun e hwork => ?_
  by_cases he : e = .listen
  · exact .inr ⟨he, trivial⟩
  · exact .inl (hwork.congr (fun heq => absurd heq he) fun _ _ => rfl)

theorem Epoll.Inv.queued (h : k.Inv) (i : ℕ) (data : Bytes) :
    Epoll.Inv { k with backlog := k.backlog.modify i (· ++ data) } := by
  intro e hwork
  apply h e
  cases e with
  | listen =>
    -- the queue has as many connections as before
    intro hnil
    apply hwork
    show k.backlog.modify i (· ++ data) = []
    rw [hnil, List.modify_nil]
  | epollin fd => exact hwork
  | epollout fd => exact hwork

theorem Epoll.Inv.signal (h : k.Inv) (e : Event) (b : Bool) :
    Epoll.Inv (if b then { k with signalled := Function.update k.signalled e b }.raise e
      else { k with signalled := Function.update k.signalled e b }) := by
  split_ifs
  · exact h.raise rfl rfl fun _ hwork => .inl hwork
  · exact h

theorem Epoll.Inv.arrive (h : k.Inv) {loop : Loop} (honly : k.loop.Only sockfd loop) :
    ({ k with loop }.raise (.epollin sockfd)).Inv := by
  refine h.raise honly.events rfl fun e hwork => ?_
  by_cases he : e = .epollin sockfd
  · subst he
    exact .inr ⟨rfl, hwork.ready.1⟩
  · refine .inl (hwork.congr (fun _ => rfl) fun fd heq => honly.lookup fd ?_)
    rintro rfl
    exact he heq

theorem Epoll.Inv.wait (h : k.Inv) (hidle : k.loop.events = []) {events : List Event} :
    ({ k with
        loop := { k.loop with events }
        pending := fun e => k.pending e && !events.contains e } : Epoll).Inv := by
  intro e hwork
  have hdue : k.pending e = true := h.noLostWakeup hidle e hwork
  by_cases hmem : e ∈ events
  · exact .inr hmem
  · left
    simp [hdue, hmem]

/-- `epoll_ctl` for the descriptor of an event that was handled, when nothing else has lost a report. -/
theorem inv_control (h : ∀ e, e ≠ .epollin sockfd → Work k e →
    k.pending e = true ∨ e ∈ k.loop.events) : (k.control sockfd).Inv := by
  intro e hwork
  have hwork : Work k e := hwork.congr (fun _ => rfl) fun _ _ => rfl
  show (if e = .epollin sockfd ∨ e = .epollout sockfd then
    decide (Ready (registered k.loop.conns) e) && k.isReady e else k.pending e) = true ∨ _
  by_cases he : e = .epollin sockfd
  · subst he
    left
    rw [if_pos (.inl rfl), decide_eq_true hwork.ready.1, hwork.ready.2]
    rfl
  · have hout : e ≠ .epollout sockfd := by
      rintro rfl
      exact hwork
    rw [if_neg fun hor => hor.elim he hout]
    exact h e he hwork

/-- The first event of the batch is handled, and it was not one of `listenfd`. -/
theorem Epoll.Inv.control (h : k.Inv) {loop : Loop} {events : List Event}
    (hevents : k.loop.events = e :: events) (he : e = .epollin sockfd ∨ e = .epollout sockfd)
    (honly : Loop.Only sockfd { k.loop with events } loop) : ({ k with loop }.control sockfd).Inv := by
  apply inv_control
  intro e' hne hwork
  have hold : Work k e' := by
    refine hwork.congr (fun _ => rfl) fun fd heq => honly.lookup fd ?_
    rintro rfl
    exact hne heq
  have hhead : e' ≠ e := by
    rintro rfl
    rcases he with rfl | rfl
    · exact hne rfl
    · exact hold
  have hdue := h e' hold
  rw [hevents] at hdue
  show k.pending e' = true ∨ e' ∈ loop.events
  rw [honly.events]
  exact hdue.imp_right fun hmem => (List.mem_cons.1 hmem).resolve_left hhead

theorem Epoll.Inv.accept (h : k.Inv) {loop : Loop} {events : List Event} {ret : ℕ}
    (hevents : k.loop.events = .listen :: events)
    (hlossless : k.backlog.length ≤ 1 ∨ k.pending .listen = true)
    (honly : Loop.Only ret { k.loop with events } loop) :
    ({ k with loop, backlog := k.backlog.tail }.control ret).Inv := by
  apply inv_control
  intro e hne hwork
  show k.pending e = true ∨ e ∈ loop.events
  rw [honly.events]
  by_cases hlisten : e = .listen
  · subst hlisten
    -- a connection is left in the queue, so another came in after the report
    refine .inl (hlossless.resolve_left fun hle => hwork ?_)
    apply List.eq_nil_of_length_eq_zero
    rw [List.length_tail]
    omega
  · have hold : Work k e := by
      refine hwork.congr (fun heq => absurd heq hlisten) fun fd heq => honly.lookup fd ?_
      rintro rfl
      exact hne heq
    have hdue := h e hold
    rw [hevents] at hdue
    exact hdue.imp_right fun hmem => (List.mem_cons.1 hmem).resolve_left hlisten

/-- The batch is left after a short write. -/
theorem Epoll.Inv.short (h : k.Inv) {loop : Loop} {events : List Event}
    (hevents : k.loop.events = .epollout sockfd :: events)
    (hlossless : ∀ e ∈ events, Work k e → k.pending e = true) (hconns : loop.conns = k.loop.conns) :
    ({ k with loop } : Epoll).Inv := by
  intro e hwork
  have hold : Work k e := by
    refine hwork.congr (fun _ => rfl) fun fd _ => ?_
    show loop.conns.lookup fd = _
    rw [hconns]
  left
  rcases h e hold with hdue | hmem
  · exact hdue
  · rw [hevents] at hmem
    rcases List.mem_cons.1 hmem with rfl | hmem
    · exact hold.elim
    · exact hlossless e hmem hold

/-- What handling an event can have done. -/
inductive EventHandled (k : Epoll) (ret : ℕ) : Epoll → Prop
  /-- There is no event. -/
  | idle (hevents : k.loop.events = []) : EventHandled k ret k
  | accept {events : List Event} {loop : Loop} (hevents : k.loop.events = .listen :: events)
      (honly : Loop.Only ret { k.loop with events } loop) :
      EventHandled k ret ({ k with loop, backlog := k.backlog.tail }.control ret)
  | read {sockfd : ℕ} {events : List Event} {loop : Loop}
      (hevents : k.loop.events = .epollin sockfd :: events)
      (honly : Loop.Only sockfd { k.loop with events } loop) :
      EventHandled k ret ({ k with loop }.control sockfd)
  | write {sockfd : ℕ} {events : List Event} {loop : Loop}
      (hevents : k.loop.events = .epollout sockfd :: events) (hall : ret = sdslen k.loop.server.2)
      (honly : Loop.Only sockfd { k.loop with events } loop) :
      EventHandled k ret ({ k with loop }.control sockfd)
  | short {sockfd : ℕ} {events : List Event} {loop : Loop}
      (hevents : k.loop.events = .epollout sockfd :: events) (hshort : ret ≠ sdslen k.loop.server.2)
      (hconns : loop.conns = k.loop.conns) (hleft : loop.events = []) :
      EventHandled k ret { k with loop }

theorem eventHandled_of_ok {ret : ℕ} (hok : epollStep hash k (.loop (.handle ret)) = .ok (k', ())) :
    EventHandled k ret k' := by
  obtain ⟨⟨loop, ⟨⟩⟩, hloop, hok⟩ := bind_eq_ok hok
  rcases hevents : k.loop.events with _ | ⟨e, events⟩
  · simp only [loopStep, hevents] at hloop
    simp only [hevents] at hok
    cases hloop
    cases hok
    exact .idle hevents
  · simp only [loopStep, hevents] at hloop
    simp only [hevents] at hok
    cases e with
    | listen =>
      cases hloop
      obtain ⟨⟨loop, ⟨⟩⟩, harrive, hok⟩ := bind_eq_ok hok
      cases hok
      -- the descriptor is new, and then has the bytes that were received before
      have honly := Loop.Only.arrive harrive
      refine .accept hevents ⟨honly.events, fun fd hne => (honly.lookup fd hne).trans ?_⟩
      exact Finmap.lookup_insert_of_ne _ hne
    | epollin sockfd =>
      obtain ⟨l, hread, hloop⟩ := bind_eq_ok hloop
      cases hloop
      cases hok
      exact .read hevents (.read hread)
    | epollout sockfd =>
      cases hloop
      dsimp only at hok
      by_cases hshort : ret ≠ sdslen k.loop.server.2
      · rw [if_pos hshort] at hok
        cases hok
        apply EventHandled.short hevents hshort
        · simp only [writeEvent, if_pos hshort]
        · simp only [writeEvent, if_pos hshort]
      · have hall : ret = sdslen k.loop.server.2 := not_not.1 hshort
        rw [if_neg hshort] at hok
        cases hok
        rw [hall]
        exact .write hevents rfl (.write { k.loop with events } sockfd)

/-- The loop handles an event. -/
theorem Epoll.Inv.handle (h : k.Inv) {ret : ℕ} (hl : Lossless k (.loop (.handle ret)))
    (hhandled : EventHandled k ret k') : k'.Inv := by
  have hkeeps : ∀ {e : Event} {events : List Event}, k.loop.events = e :: events → Keeps k ret e := by
    intro e events hevents
    exact hl e (by rw [hevents, List.head?_cons, Option.mem_some_iff])
  cases hhandled with
  | idle => exact h
  | accept hevents honly => exact h.accept hevents (hkeeps hevents) honly
  | read hevents honly => exact h.control hevents (.inl rfl) honly
  | write hevents hall honly => exact h.control hevents (.inr rfl) honly
  | short hevents hshort hconns =>
    have hbehind := (hkeeps hevents).resolve_left hshort
    rw [hevents, List.tail_cons] at hbehind
    exact h.short hevents hbehind hconns

theorem Epoll.Inv.step (h : k.Inv) {i : EpollStep} (hp : PossibleEpoll k i) (hl : Lossless k i)
    (hok : epollStep hash k i = .ok (k', ())) : k'.Inv := by
  cases i with
  | connect =>
    cases hok
    exact h.connect
  | queued i data =>
    cases hok
    exact h.queued i data
  | signal e b =>
    cases hok
    exact h.signal e b
  | loop i =>
    cases i with
    | arrive sockfd data =>
      obtain ⟨⟨loop, ⟨⟩⟩, hloop, hok⟩ := bind_eq_ok hok
      cases hok
      exact h.arrive (.arrive hloop)
    | wait events =>
      obtain ⟨⟨loop, ⟨⟩⟩, hloop, hok⟩ := bind_eq_ok hok
      simp only [loopStep] at hloop
      split_ifs at hloop
      cases hloop
      cases hok
      exact h.wait hp.1.1
    | handle ret => exact h.handle hl (eventHandled_of_ok hok)

/-- Handling an event that leaves every work announced has lost no report. -/
theorem EventHandled.keeps {ret : ℕ} (hhandled : EventHandled k ret k') (hnodup : k.loop.events.Nodup)
    (h' : k'.Inv) (he : e ∈ k.loop.events.head?) : Keeps k ret e := by
  have hhead : ∀ {e' : Event} {events : List Event}, k.loop.events = e' :: events → e' = e := by
    intro e' events hevents
    rw [hevents] at he
    exact Option.some.inj he
  cases hhandled with
  | idle hevents =>
    rw [hevents] at he
    cases he
  | @accept events loop hevents honly =>
    obtain rfl := hhead hevents
    rw [hevents] at hnodup
    by_cases hle : k.backlog.length ≤ 1
    · exact .inl hle
    · -- the connections left in the queue are announced by a report that is due
      have hleft : k.backlog.tail ≠ [] := by
        apply List.ne_nil_of_length_pos
        rw [List.length_tail]
        omega
      refine .inr ((h' .listen hleft).resolve_right fun hmem => ?_)
      have hmem : Event.listen ∈ loop.events := hmem
      rw [honly.events] at hmem
      exact (List.nodup_cons.1 hnodup).1 hmem
  | read hevents =>
    obtain rfl := hhead hevents
    trivial
  | write hevents hall =>
    obtain rfl := hhead hevents
    exact .inl hall
  | @short sockfd events loop hevents hshort hconns hleft =>
    obtain rfl := hhead hevents
    right
    intro e _ hwork
    have hwork' : Work { k with loop } e := by
      refine hwork.congr (fun _ => rfl) fun fd _ => ?_
      show k.loop.conns.lookup fd = loop.conns.lookup fd
      rw [hconns]
    refine (h' e hwork').resolve_right fun hmem => ?_
    have hmem : e ∈ loop.events := hmem
    rw [hleft] at hmem
    cases hmem

/-- A step that leaves every work announced has lost no report. -/
theorem lossless_of_inv (hnodup : k.loop.events.Nodup) {i : EpollStep}
    (hok : epollStep hash k i = .ok (k', ())) (h' : k'.Inv) : Lossless k i := by
  cases i with
  | connect => trivial
  | queued i data => trivial
  | signal e b => trivial
  | loop i =>
    cases i with
    | arrive sockfd data => trivial
    | wait events => trivial
    | handle ret => exact fun e he => (eventHandled_of_ok hok).keeps hnodup h' he

end Steps

/-! ## Runs -/

/-- In every run whose steps lose no report, no wakeup is lost: whenever the loop is back at
`epoll_wait`, every descriptor with work has a report that is due. -/
theorem noLostWakeup_of_lossless (hash : Bytes → UInt64) (outbuf : Sds) (steps : List EpollStep)
    (k : Epoll) (outs : List Unit)
    (hsteps : Along (epollStep hash) (fun k i => PossibleEpoll k i ∧ Lossless k i) (startEpoll outbuf)
      steps)
    (hrun : run (epollStep hash) (startEpoll outbuf) steps = .ok (k, outs)) : NoLostWakeup k := by
  refine (inv_of_along Epoll.Inv ?_ hsteps (inv_startEpoll outbuf) hrun).noLostWakeup
  intro k i k' o h hi hok
  exact h.step hi.1 hi.2 hok

/-- Two clients connect, the second while the report for the first is handled, and one is served. -/
def overlapping : List EpollStep :=
  [.connect, .loop (.wait [.listen]), .connect, .loop (.handle 5), .loop (.wait [.listen]),
    .loop (.handle 6), .signal (.epollout 5) true, .loop (.arrive 5 (Request.wire (.incr [97]))),
    .loop (.wait [.epollin 5]), .loop (.handle (Request.wire (.incr [97])).length),
    .loop (.arrive 6 (Request.wire (.get [98]))), .loop (.wait [.epollout 5]), .loop (.handle 3)]

theorem noLostWakeup_overlapping :
    ∃ k outs, run (epollStep fun _ => 0)
        (startEpoll (sdsnewlen (List.replicate MAX_LINE 0) MAX_LINE)) overlapping = .ok (k, outs) ∧
      NoLostWakeup k := by
  generalize hsteps : overlapping = steps
  have halong : Along (epollStep fun _ => 0) (fun k i => PossibleEpoll k i ∧ Lossless k i)
      (startEpoll (sdsnewlen (List.replicate MAX_LINE 0) MAX_LINE)) steps := by
    rw [← hsteps]
    decide +kernel
  obtain ⟨k, outs, hrun, -⟩ : ∃ k outs, run (epollStep fun _ => 0)
      (startEpoll (sdsnewlen (List.replicate MAX_LINE 0) MAX_LINE)) steps = .ok (k, outs) ∧ True := by
    apply exists_of_ends
    rw [← hsteps]
    decide +kernel
  exact ⟨k, outs, hrun, noLostWakeup_of_lossless _ _ _ k outs halong hrun⟩

/-- Two clients connect before `epoll_wait` is called: one is accepted. -/
def twoQueued : List EpollStep :=
  [.connect, .connect, .loop (.wait [.listen]), .loop (.handle 5)]

/-- The second client's request is reported with a write that is cut short. -/
def behindShort : List EpollStep :=
  [.connect, .loop (.wait [.listen]), .loop (.handle 5), .connect, .loop (.wait [.listen]),
    .loop (.handle 6), .signal (.epollout 5) true, .loop (.arrive 5 (Request.wire (.incr [97]))),
    .loop (.wait [.epollin 5]), .loop (.handle (Request.wire (.incr [97])).length),
    .loop (.arrive 6 (Request.wire (.get [98]))), .loop (.wait [.epollout 5, .epollin 6]),
    .loop (.handle 0)]

/-- The connection left in the queue, and the request behind the write, have no report. -/
theorem lostWakeup_twoQueued_behindShort :
    (Along (epollStep fun _ => 0) PossibleEpoll
        (startEpoll (sdsnewlen (List.replicate MAX_LINE 0) MAX_LINE)) twoQueued ∧
      ∃ k outs, run (epollStep fun _ => 0)
          (startEpoll (sdsnewlen (List.replicate MAX_LINE 0) MAX_LINE)) twoQueued = .ok (k, outs) ∧
        ¬ NoLostWakeup k) ∧
    (Along (epollStep fun _ => 0) PossibleEpoll
        (startEpoll (sdsnewlen (List.replicate MAX_LINE 0) MAX_LINE)) behindShort ∧
      ∃ k outs, run (epollStep fun _ => 0)
          (startEpoll (sdsnewlen (List.replicate MAX_LINE 0) MAX_LINE)) behindShort = .ok (k, outs) ∧
        ¬ NoLostWakeup k) := by
  refine ⟨⟨by decide +kernel, ?_⟩, by decide +kernel, ?_⟩
  · generalize hsteps : twoQueued = steps
    obtain ⟨k, outs, hrun, hlost⟩ : ∃ k outs, run (epollStep fun _ => 0)
        (startEpoll (sdsnewlen (List.replicate MAX_LINE 0) MAX_LINE)) steps = .ok (k, outs) ∧
          Lost k .listen := by
      apply exists_of_ends
      rw [← hsteps]
      decide +kernel
    exact ⟨k, outs, hrun, hlost.not_noLostWakeup⟩
  · generalize hsteps : behindShort = steps
    obtain ⟨k, outs, hrun, hlost⟩ : ∃ k outs, run (epollStep fun _ => 0)
        (startEpoll (sdsnewlen (List.replicate MAX_LINE 0) MAX_LINE)) steps = .ok (k, outs) ∧
          Lost k (.epollin 6) := by
      apply exists_of_ends
      rw [← hsteps]
      decide +kernel
    exact ⟨k, outs, hrun, hlost.not_noLostWakeup⟩

end RedisCounter
