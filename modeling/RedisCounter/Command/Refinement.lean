import Mathlib.Data.Finmap
import RedisCounter.Command.Serving

/-!
# The server as a machine over a finite map

`machineStep` is what the counter server is for: a finite map from byte strings to byte strings,
changed by `set`, `incr` and `decr` and read by `get`, with one reply for each request. The requests
other than `decr` refine it, over runs of any length, for any hash function: whatever buckets a
lookup has moved, the keyspace reads as the map.
-/

namespace RedisCounter

open Run

/-! ## The abstract machine -/

/-- The state of the abstract machine. -/
abbrev Store := Finmap fun _ : Bytes => Bytes

/-- The text after an increment: 1 for an unbound key. -/
def nextText : Option Bytes → Bytes
  | none => Decimal.intText 1
  | some v => Decimal.intText (atol v + 1)

/-- The text after a decrement, which stops at 0: 0 for an unbound key. -/
def prevText : Option Bytes → Bytes
  | none => Decimal.intText 0
  | some v => Decimal.intText (max (atol v - 1) 0)

/-- One request: the new map and the reply. -/
def machineStep (m : Store) : Request → Store × Bytes
  | .set key val => (m.insert key val, OK ++ [lf])
  | .get key => (m, (m.lookup key).getD MISSING ++ [lf])
  | .incr key => (m.insert key (nextText (m.lookup key)), OK ++ [lf])
  | .decr key => (m.insert key (prevText (m.lookup key)), OK ++ [lf])

/-- An increment does not leave the range of `long`. -/
def InRange (m : Store) : Request → Prop
  | .incr key => ∀ v ∈ m.lookup key, atol v + 1 ≤ LONG_MAX
  | _ => True

instance (m : Store) : ∀ r, Decidable (InRange m r)
  | .incr key => inferInstanceAs (Decidable (∀ v ∈ m.lookup key, atol v + 1 ≤ LONG_MAX))
  | .set _ _ => .isTrue trivial
  | .get _ => .isTrue trivial
  | .decr _ => .isTrue trivial

/-! ## The refinement -/

/-- The keyspace reads as the map. -/
def Serves (hash : Bytes → UInt64) (s : Server) (m : Store) : Prop :=
  Serving hash s fun k => m.lookup k.1

theorem serves_createDb {hash : Bytes → UInt64} {outbuf : Sds} (h : Outbuf MAX_LINE outbuf) :
    Serves hash (createDb, outbuf) ∅ := serving_createDb h

section Step

variable {hash : Bytes → UInt64} {s : Server} {m : Store}

theorem lookup_insert_update (m : Store) (k : Key) (v : Bytes) :
    (fun k' : Key => (m.insert k.1 v).lookup k'.1)
      = Function.update (fun k' : Key => m.lookup k'.1) k (some v) := by
  funext k'
  rcases eq_or_ne k' k with rfl | hne
  · rw [Function.update_self, Finmap.lookup_insert]
  · have hne' : k'.1 ≠ k.1 := fun h => hne (Subtype.ext h)
    rw [Function.update_of_ne hne, Finmap.lookup_insert_of_ne _ hne']

/-- Where the increment is in range, the code's text is the machine's. -/
theorem incrText_eq {found : Option Bytes} (h : ∀ v ∈ found, atol v + 1 ≤ LONG_MAX) :
    incrText found = nextText found := by
  cases found with
  | none => rfl
  | some v =>
    have hmin : LONG_MIN ≤ atol v + 1 := (LONG_MIN_le_atol v).trans (by omega)
    exact congrArg Decimal.intText (wrapLong_of_mem hmin (h v rfl))

/-- One request: the server succeeds, replies what the machine replies, and goes on serving the
machine's map. -/
theorem Serves.step (h : Serves hash s m) {r : Request} (hdecr : r.isDecr = false)
    (hplain : ∀ a ∈ r.args, Plain a) (hlen : r.wire.length < MAX_LINE) (hrange : InRange m r) :
    ∃ s', serveRequest hash s r = .ok (s', (machineStep m r).2) ∧
      Serves hash s' (machineStep m r).1 := by
  have hreq := isRequest_wire hplain
  -- plain arguments have no NUL, so `get` and the other commands use the same key
  have hbound : ∀ a ∈ r.args, a.length < MAX_LINE := fun a ha =>
    (length_lt_encode ha).trans (wire_eq hplain ▸ hlen)
  have hkeyc : cstr r.key = r.key := cstr_of_zero_not_mem (hplain _ r.key_mem_args).zero_not_mem
  have hkey : r.key.length < 2 ^ 31 := (hbound _ r.key_mem_args).trans (by decide)
  cases r with
  | set key val =>
    have hmem : val ∈ (Request.set key val).args := by simp [Request.args]
    have hval : cstr val = val := cstr_of_zero_not_mem (hplain val hmem).zero_not_mem
    obtain ⟨s', hok, hs'⟩ := Serving.set h hreq (hbound val hmem) (k := ⟨key, hkey⟩) rfl
    rw [hval, ← lookup_insert_update] at hs'
    exact ⟨s', hok, hs'⟩
  | get key =>
    obtain ⟨s', hok, hs', -⟩ := Serving.get h hreq (k := ⟨key, hkey⟩) hkeyc.symm
    exact ⟨s', hok, hs'⟩
  | incr key =>
    obtain ⟨s', hok, hs'⟩ := Serving.incr h hreq (k := ⟨key, hkey⟩) rfl
    rw [incrText_eq hrange, ← lookup_insert_update] at hs'
    exact ⟨s', hok, hs'⟩
  | decr key => cases hdecr

end Step

/-- A request that `commandServer` serves as the machine does. -/
structure Simple (r : Request) : Prop where
  isDecr : r.isDecr = false
  plain : ∀ a ∈ r.args, Plain a
  short : r.wire.length < MAX_LINE

theorem forall_admissible {C D : Store → Request → Prop} {reqs : List Request} {m : Store}
    (hadm : Admissible machineStep D m reqs) (h : ∀ r ∈ reqs, ∀ m, D m r → C m r) :
    Admissible machineStep C m reqs := by
  induction reqs generalizing m with
  | nil => trivial
  | cons r reqs ih =>
    exact ⟨h r (List.mem_cons_self ..) m hadm.1,
      ih hadm.2 fun r' hr' => h r' (List.mem_cons_of_mem r hr')⟩

/-- Wherever the server serves a map, a run of requests is served as the machine serves them. -/
theorem Serves.run {hash : Bytes → UInt64} {s : Server} {m : Store} (h : Serves hash s m)
    {reqs : List Request} (hsimple : ∀ r ∈ reqs, Simple r)
    (hrange : Admissible machineStep InRange m reqs) :
    ∃ s', Run.run (serveRequest hash) s reqs = .ok (s', (arun machineStep m reqs).2) ∧
      Serves hash s' (arun machineStep m reqs).1 := by
  have hadm : Admissible machineStep (fun m r => Simple r ∧ InRange m r) m reqs :=
    forall_admissible hrange fun r hr m hm => ⟨hsimple r hr, hm⟩
  refine simulation_run (Serves hash) (fun s m r hs hr => ?_) hadm h
  exact hs.step hr.1.isDecr hr.1.plain hr.1.short hr.2

/-- A run of plain `set`, `get` and `incr` requests from the empty keyspace: the server never fails,
and its replies are those of the machine, whatever the hash function. -/
theorem serveRequest_refines (hash : Bytes → UInt64) (outbuf : Sds) (reqs : List Request)
    (ho : Outbuf MAX_LINE outbuf) (hsimple : ∀ r ∈ reqs, Simple r)
    (hrange : Admissible machineStep InRange ∅ reqs) :
    ∃ s, run (serveRequest hash) (createDb, outbuf) reqs = .ok (s, (arun machineStep ∅ reqs).2) ∧
      Serves hash s (arun machineStep ∅ reqs).1 :=
  (serves_createDb ho).run hsimple hrange

/-- A session under a hash function that sends every key to one bucket. -/
theorem serveRequest_refines_session :
    ∃ s, run (serveRequest fun _ => 7) (createDb, sdsnewlen (List.replicate MAX_LINE 0) MAX_LINE)
      [.set (ascii ['f', 'o', 'o']) (ascii ['9']), .incr (ascii ['f', 'o', 'o']),
        .get (ascii ['f', 'o', 'o']), .get (ascii ['b', 'a', 'r'])]
      = .ok (s, [ascii ['o', 'k', '\n'], ascii ['o', 'k', '\n'], ascii ['1', '0', '\n'],
          MISSING ++ [lf]]) := by
  obtain ⟨s, hrun, -⟩ := serveRequest_refines (fun _ => 7)
    (sdsnewlen (List.replicate MAX_LINE 0) MAX_LINE)
    [.set (ascii ['f', 'o', 'o']) (ascii ['9']), .incr (ascii ['f', 'o', 'o']),
      .get (ascii ['f', 'o', 'o']), .get (ascii ['b', 'a', 'r'])]
    (outbuf_sdsnewlen (by simp) (by decide))
    (by
      intro r hr
      simp only [List.mem_cons, List.not_mem_nil, or_false] at hr
      rcases hr with rfl | rfl | rfl | rfl <;> exact ⟨rfl, by decide +kernel, by decide +kernel⟩)
    ⟨trivial, by decide, trivial, trivial, trivial⟩
  exact ⟨s, hrun⟩

end RedisCounter
