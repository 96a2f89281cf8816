import RedisCounter.Server.Loop

/-!
# The arrays of the event loop

`main` declares `char inbuf[MAX_LINE]` and `events[20]`. `epoll_wait` may write up to `CONNECT_SIZE`
entries of `events`, and a read may fill all of `inbuf`, so that the NUL is put behind it. The loop
stays within both arrays as long as no batch has more than 20 events and no read returns `MAX_LINE`
bytes, and no longer than that.
-/

namespace RedisCounter

open Run

/-- An element of one of the two arrays. -/
inductive Cell
  | events (i : ℕ)
  | inbuf (i : ℕ)
deriving DecidableEq

/-- The index lies within the declared length. -/
def Cell.Declared : Cell → Prop
  | .events i => i < EVENTS
  | .inbuf i => i < MAX_LINE

instance : ∀ c : Cell, Decidable c.Declared
  | .events i => inferInstanceAs (Decidable (i < EVENTS))
  | .inbuf i => inferInstanceAs (Decidable (i < MAX_LINE))

/-- The loop with its variable `nfds`, the length of the batch in `events`. -/
structure Batch where
  loop : Loop
  nfds : ℕ

def startBatch (outbuf : Sds) : Batch := ⟨startLoop outbuf, 0⟩

/-- The index `i` of the event at hand. -/
def Batch.i (s : Batch) : ℕ := s.nfds - s.loop.events.length

/-- One step; `nfds` is what `epoll_wait` returned last. -/
def batchStep (hash : Bytes → UInt64) (s : Batch) (i : LoopStep) : Except Fault (Batch × Unit) := do
  let (loop, _) ← loopStep hash s.loop i
  match i with
  | .wait events => pure (⟨loop, events.length⟩, ())
  | _ => pure (⟨loop, s.nfds⟩, ())

/-- What a step writes in the arrays, by the loop or by the kernel on its behalf. -/
def writes (s : Batch) : LoopStep → List Cell
  | .arrive _ _ => []
  | .wait events => (List.range events.length).map .events
  | .handle ret =>
    match s.loop.events with
    | .epollin sockfd :: _ =>
      -- `bzero(inbuf, MAX_LINE)`, then the read: a descriptor that is closed gives an error
      let bzero := (List.range MAX_LINE).map Cell.inbuf
      if ret = 0 ∨ s.loop.conns.lookup sockfd = none then
        -- `events[i].data.fd = -1`
        bzero ++ [.events s.i]
      else
        -- the bytes that were read, and `inbuf[n] = 0`
        bzero ++ (List.range ret).map Cell.inbuf ++ [.inbuf ret]
    | _ => []

/-- Every index that the step writes lies within its array. -/
def InBounds (s : Batch) (i : LoopStep) : Prop := ∀ c ∈ writes s i, c.Declared

-- `List.all` is a loop, and a read writes thousands of cells
instance (s : Batch) (i : LoopStep) : Decidable (InBounds s i) :=
  decidable_of_iff ((writes s i).all fun c => decide c.Declared) (by simp [InBounds])

/-- The batch fits into `events`, and the bytes read leave room for the NUL in `inbuf`. -/
def Fits (s : Batch) : LoopStep → Prop
  | .arrive _ _ => True
  | .wait events => events.length ≤ EVENTS
  | .handle ret =>
    ∀ sockfd, s.loop.events.head? = some (.epollin sockfd) →
      s.loop.conns.lookup sockfd ≠ none → ret < MAX_LINE

/-- The events that remain are the last of the batch that is in `events`. -/
structure Batch.Inv (s : Batch) : Prop where
  length_le : s.loop.events.length ≤ s.nfds
  nfds_le : s.nfds ≤ EVENTS

theorem inv_startBatch (outbuf : Sds) : (startBatch outbuf).Inv := ⟨Nat.le_refl 0, Nat.zero_le EVENTS⟩

section Steps

variable {hash : Bytes → UInt64} {s s' : Batch}

/-- The event at hand is one of `events`. -/
theorem Batch.Inv.i_lt (h : s.Inv) (hevents : s.loop.events ≠ []) : s.i < EVENTS := by
  have hpos : 0 < s.loop.events.length := List.length_pos_iff.2 hevents
  have hlen := h.length_le
  have hnfds := h.nfds_le
  unfold Batch.i
  omega

/-- Handling an event leaves at most the events behind it. -/
theorem length_events_le {l l' : Loop} {i : LoopStep} (hstep : Stepped hash l i l')
    (hwait : ∀ events, i ≠ .wait events) : l'.events.length ≤ l.events.length := by
  have htail : ∀ {e : Event} {events : List Event}, l.events = e :: events →
      events.length ≤ l.events.length := by
    intro e events hevents
    rw [hevents, List.length_cons]
    exact Nat.le_succ _
  cases hstep with
  | skip => exact Nat.le_refl _
  | arrive => exact Nat.le_refl _
  | wait => exact absurd rfl (hwait _)
  | accept hevents => exact htail hevents
  | stale hevents => exact htail hevents
  | close hevents => exact htail hevents
  | read hevents => exact htail hevents
  | write hevents =>
    unfold writeEvent
    dsimp only
    split_ifs
    · exact Nat.zero_le _
    · exact htail hevents

theorem Batch.Inv.step (h : s.Inv) {i : LoopStep} {o : Unit}
    (hok : batchStep hash s i = .ok (s', o)) : s'.Inv := by
  obtain ⟨⟨loop, o'⟩, hloop, hok⟩ := bind_eq_ok hok
  cases i with
  | arrive sockfd data =>
    cases hok
    exact ⟨(length_events_le (stepped_of_ok hloop) (by simp)).trans h.length_le, h.nfds_le⟩
  | wait events =>
    cases hok
    simp only [loopStep] at hloop
    split_ifs at hloop with hover
    cases hloop
    exact ⟨Nat.le_refl _, Nat.le_of_not_lt hover⟩
  | handle ret =>
    cases hok
    exact ⟨(length_events_le (stepped_of_ok hloop) (by simp)).trans h.length_le, h.nfds_le⟩

/-- The first `n` elements of an array are declared when the last of them is. -/
theorem declared_range_iff {f : ℕ → Cell} {n size : ℕ} (hf : ∀ i, (f i).Declared ↔ i < size) :
    (∀ c ∈ (List.range n).map f, c.Declared) ↔ n ≤ size := by
  simp only [List.forall_mem_map, List.mem_range, hf]
  constructor
  · intro h
    by_contra hlt
    exact Nat.lt_irrefl size (h size (Nat.lt_of_not_le hlt))
  · intro hle i hi
    exact hi.trans_le hle

theorem declared_bzero : ∀ c ∈ (List.range MAX_LINE).map Cell.inbuf, c.Declared :=
  (declared_range_iff fun _ => Iff.rfl).2 (Nat.le_refl MAX_LINE)

/-- A step stays within the arrays exactly when it fits. -/
theorem Batch.Inv.inBounds_iff (h : s.Inv) (i : LoopStep) : InBounds s i ↔ Fits s i := by
  unfold InBounds
  cases i with
  | arrive sockfd data => simp [writes, Fits]
  | wait events => exact declared_range_iff fun _ => Iff.rfl
  | handle ret =>
    rcases hevents : s.loop.events with _ | ⟨e, events⟩
    · simp [writes, Fits, hevents]
    have hi : s.i < EVENTS := h.i_lt (by rw [hevents]; exact List.cons_ne_nil e events)
    cases e with
    | listen => simp [writes, Fits, hevents]
    | epollout sockfd => simp [writes, Fits, hevents]
    | epollin sockfd =>
      have hfits : Fits s (.handle ret) ↔ (s.loop.conns.lookup sockfd ≠ none → ret < MAX_LINE) := by
        simp [Fits, hevents]
      rw [hfits]
      by_cases hclose : ret = 0 ∨ s.loop.conns.lookup sockfd = none
      · -- `inbuf` is cleared, and `events[i]` is an entry of the batch
        simp only [writes, hevents, if_pos hclose, List.forall_mem_append, List.forall_mem_singleton]
        apply iff_of_true ⟨declared_bzero, hi⟩
        intro hconn
        rcases hclose with rfl | hnone
        · decide
        · exact absurd hnone hconn
      · simp only [writes, hevents, if_neg hclose, List.forall_mem_append, List.forall_mem_singleton]
        constructor
        · intro hwrites _
          exact hwrites.2
        · intro hlt
          have hlt : ret < MAX_LINE := hlt fun hnone => hclose (.inr hnone)
          exact ⟨⟨declared_bzero, (declared_range_iff fun _ => Iff.rfl).2 hlt.le⟩, hlt⟩

end Steps

/-- Over every run, the loop writes only within its arrays exactly as long as every batch fits into
`events` and every read leaves room for its NUL. -/
theorem inBounds_iff_fits (hash : Bytes → UInt64) (outbuf : Sds) (steps : List LoopStep) :
    Along (batchStep hash) InBounds (startBatch outbuf) steps ↔
      Along (batchStep hash) Fits (startBatch outbuf) steps :=
  along_iff Batch.Inv (fun _ i h => h.inBounds_iff i) (fun _ _ _ _ h _ hok => h.step hok)
    (inv_startBatch outbuf)

/-- A client connects and sends `MAX_LINE` bytes, which are read at once. -/
def fullLine : List LoopStep :=
  [.wait [.listen], .handle 5, .arrive 5 (List.replicate MAX_LINE 97), .wait [.epollin 5],
    .handle MAX_LINE]

/-- 21 clients connect and send a byte each, before `epoll_wait` is called again. -/
def manyReady : List LoopStep :=
  (List.range 21).flatMap (fun k => [.wait [.listen], .handle (5 + k)]) ++
    (List.range 21).map (fun k => .arrive (5 + k) [97]) ++
    [.wait ((List.range 21).map fun k => .epollin (5 + k))]

/-- The NUL is put in `inbuf[MAX_LINE]`; the kernel writes `events[20]`. -/
theorem not_inBounds_fullLine_manyReady :
    (Along (batchStep fun _ => 0) (fun s i => Possible s.loop i)
        (startBatch (sdsnewlen (List.replicate MAX_LINE 0) MAX_LINE)) fullLine ∧
      ¬ Along (batchStep fun _ => 0) InBounds
        (startBatch (sdsnewlen (List.replicate MAX_LINE 0) MAX_LINE)) fullLine) ∧
    (Along (batchStep fun _ => 0) (fun s i => Possible s.loop i)
        (startBatch (sdsnewlen (List.replicate MAX_LINE 0) MAX_LINE)) manyReady ∧
      ¬ Along (batchStep fun _ => 0) InBounds
        (startBatch (sdsnewlen (List.replicate MAX_LINE 0) MAX_LINE)) manyReady) := by
  refine ⟨⟨?_, ?_⟩, ?_, ?_⟩ <;> decide +kernel

end RedisCounter
