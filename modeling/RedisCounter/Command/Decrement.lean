import RedisCounter.Command.Serving

/-!
# What `decr` leaves behind

`set` and `incr` store a pointer to text, and `get` and `incr` read text through it. `decr` takes
the pointer itself for the number: it stores an address one lower, or `NULL` for a new key. Reading
through that address finds the last byte of the sds header in front of the text, or nothing that can
be read, so no counter survives a `decr`.
-/

namespace RedisCounter

open Run Decimal

variable {hash : Bytes → UInt64}

/-! ## The law -/

/-- A text denotes an integer: digits, or a minus sign and digits. -/
inductive Denotes : Bytes → ℤ → Prop
  | nat {ds : Bytes} (hne : ds ≠ []) (h : ∀ c ∈ ds, isDigit c = true) : Denotes ds (natVal ds)
  | neg {ds : Bytes} (hne : ds ≠ []) (h : ∀ c ∈ ds, isDigit c = true) :
      Denotes (45 :: ds) (-(natVal ds : ℤ))

/-- What a decrement of the key has to leave: one less than the integer its value denotes, but not
below 0; and 0 for an unbound key. -/
def DecrTo (s : Server) (k : Key) (n : ℕ) : Prop :=
  s.1.get k = none ∧ n = 0 ∨
    ∃ o t z, s.1.get k = some o ∧ cstrAt o.ptr = .ok t ∧ Denotes t z ∧ (n : ℤ) = max (z - 1) 0

/-- The decrement law for one key: after a `decr` the next `get` replies the integer it has to leave,
and after one `incr` more the integer after that. -/
def DecrLaw (hash : Bytes → UInt64) (s : Server) (k : Key) (pdecr pget pincr : Bytes) : Prop :=
  ∃ n s', DecrTo s k n ∧
    run (serve hash) s [pdecr, pget, pincr, pget]
      = .ok (s', [OK ++ [lf], natText n ++ [lf], OK ++ [lf], natText (n + 1) ++ [lf]])

/-- The text of an integer denotes it. -/
theorem denotes_intText (z : ℤ) : Denotes (intText z) z := by
  have hdigits : ∀ c ∈ natText z.natAbs, isDigit c = true := fun c hc => isDigit_of_mem_natText hc
  unfold intText
  split_ifs with hz
  · have h := Denotes.neg (natText_ne_nil z.natAbs) hdigits
    rw [natVal_natText] at h
    have hval : -(z.natAbs : ℤ) = z := by omega
    rwa [hval] at h
  · have h := Denotes.nat (natText_ne_nil z.natAbs) hdigits
    rw [natVal_natText] at h
    have hval : (z.natAbs : ℤ) = z := by omega
    rwa [hval] at h

/-- The text of what a decrement has to leave is not longer than the text it found. -/
theorem Denotes.length_le {t : Bytes} {z : ℤ} (h : Denotes t z) {n : ℕ}
    (hn : (n : ℤ) = max (z - 1) 0) : (natText n).length ≤ t.length := by
  cases h with
  | nat hne hdigits =>
    have hle : n ≤ natVal t := by omega
    exact (length_natText_mono hle).trans (length_natText_natVal_le hdigits hne)
  | neg hne hdigits =>
    have hzero : n = 0 := by omega
    have hlen : (natText 0).length ≤ 1 := length_natText_le (by omega) (by omega)
    rw [hzero, List.length_cons]
    omega

/-! ## One byte lower -/

/-- One byte below a C string there is an empty one, or the same with one byte more. -/
theorem cstrAt_decrPtr {ptr ptr' : VoidPtr} {t t' : Bytes} (ht : cstrAt ptr = .ok t)
    (hptr : decrPtr ptr = .ok ptr') (ht' : cstrAt ptr' = .ok t') : t' = [] ∨ ∃ b, t' = b :: t := by
  cases ptr with
  | unassigned => cases ht
  | null => cases ht
  | sds s back =>
    cases hptr
    unfold cstrAt at ht ht'
    dsimp only at ht ht'
    split_ifs at ht ht' with hback hback'
    have hlt : s.type.hdrSize - (back + 1) < (sdsHeader s ++ s.buf).length := by
      rw [List.length_append, length_sdsHeader]
      omega
    have hsucc : s.type.hdrSize - (back + 1) + 1 = s.type.hdrSize - back := by omega
    rw [List.drop_eq_getElem_cons hlt, hsucc] at ht'
    rw [← Except.ok.inj ht, ← Except.ok.inj ht']
    by_cases hb : (sdsHeader s ++ s.buf)[s.type.hdrSize - (back + 1)] = 0
    · left
      simp [cstr, hb]
    · right
      exact ⟨(sdsHeader s ++ s.buf)[s.type.hdrSize - (back + 1)], by simp [cstr, hb]⟩

/-! ## The requests of the law -/

section Requests

variable {s s' : Server} {p key reply : Bytes}

/-- A `decr` that returns bound the key to the pointer one byte below the one it found. -/
theorem Sane.of_decr (h : Sane hash s) (hp : IsRequest p (.decr key))
    (hok : serve hash s p = .ok (s', reply)) :
    ∃ k : Key, k.1 = key ∧ ∃ o, RedisDb.decrPtrOf (s.1.get k) = .ok o.ptr ∧
      RedisDb.Bound hash s.1 k o s'.1 := by
  rcases hp with _ | _ | _ | ⟨hts, ha, hname, hkey⟩
  obtain ⟨d, hd, k, hk, o, hptr, hdb⟩ := (h.handled hts hok).of_decr ha hname
  obtain rfl := Option.some.inj (hkey.symm.trans hd)
  exact ⟨k, hk, o, hptr, hdb⟩

/-- After a `decr` the value does not read as the integer it has to leave. -/
theorem found_ne_of_decr {k : Key} {o : Robj} {n : ℕ} (hto : DecrTo s k n)
    (hptr : RedisDb.decrPtrOf (s.1.get k) = .ok o.ptr) : found (some o) ≠ .ok (natText n) := by
  intro hread
  rcases hto with ⟨hnone, -⟩ | ⟨o1, t, z, hsome, ht, hden, hn⟩
  · -- a new key is bound to `NULL`, which cannot be read
    rw [hnone] at hptr
    have hnull : o.ptr = .null := (Except.ok.inj hptr).symm
    rw [found, hnull] at hread
    cases hread
  · rw [hsome] at hptr
    rcases cstrAt_decrPtr ht hptr hread with hnil | ⟨b, hcons⟩
    · exact natText_ne_nil n hnil
    · -- one byte more than the old text, but the new text is no longer than the old
      have hle := hden.length_le hn
      rw [hcons, List.length_cons] at hle
      omega

end Requests

/-! ## The law fails -/

/-- No key of no keyspace that a run of requests reaches satisfies the decrement law. -/
theorem not_decrLaw (hash : Bytes → UInt64) (outbuf : Sds) (past outs : List Bytes) (s : Server)
    (k : Key) (pdecr pget pincr : Bytes) (ho : Outbuf MAX_LINE outbuf)
    (hpast : run (serve hash) (createDb, outbuf) past = .ok (s, outs))
    (hdecr : IsRequest pdecr (.decr k.1)) (hget : IsRequest pget (.get k.1))
    (hincr : IsRequest pincr (.incr k.1)) : ¬ DecrLaw hash s k pdecr pget pincr := by
  rintro ⟨n, s', hto, hrun⟩
  -- `decr`, `get`, `incr` and `get` again
  obtain ⟨s1, r1, outs1, hstep1, hrun1, heq1⟩ := run_cons_eq_ok hrun
  obtain ⟨s2, r2, outs2, hstep2, hrun2, heq2⟩ := run_cons_eq_ok hrun1
  obtain ⟨s3, r3, outs3, hstep3, hrun3, heq3⟩ := run_cons_eq_ok hrun2
  obtain ⟨s4, r4, outs4, hstep4, -, heq4⟩ := run_cons_eq_ok hrun3
  subst heq4 heq3 heq2
  simp only [List.cons.injEq] at heq1
  obtain ⟨-, h2, -, h4, -⟩ := heq1
  have hs := ((sane_createDb ho).run hpast).1
  have hs1 := (hs.step hstep1).1
  have hs2 := (hs1.step hstep2).1
  obtain ⟨hs3, hframe⟩ := hs2.step hstep3
  obtain ⟨kd, hkd, o, hptr, hdb⟩ := hs.of_decr hdecr hstep1
  obtain ⟨kg, hkg, hsame, t, ht, hreply⟩ := hs1.of_get hget hstep2
  obtain rfl : kd = k := Subtype.ext hkd
  have htext : t = natText n := List.append_cancel_right (hreply.symm.trans h2.symm)
  by_cases hzero : (0 : UInt8) ∈ kd.1
  · -- `get` looks up another key than `incr` writes, and replies the same before and after
    obtain ⟨kg', hkg', -, t', ht', hreply'⟩ := hs3.of_get hget hstep4
    obtain rfl : kg' = kg := Subtype.ext (hkg'.trans hkg.symm)
    have hne : kd.1 ≠ kg'.1 := fun heq => zero_not_mem_cstr kd.1 (by rwa [← hkg', ← heq])
    have hnot : ¬ Writes pincr kg'.1 := by
      rintro ⟨ts, a, hts, -, -, hkey⟩
      rcases hincr with _ | _ | ⟨hts', -, -, hkey'⟩
      rw [hts.unique hts', hkey'] at hkey
      exact hne (Option.some.inj hkey)
    rw [hframe kg' hnot, hsame.get, ht] at ht'
    have htext' : t' = natText (n + 1) := List.append_cancel_right (hreply'.symm.trans h4.symm)
    have heq : natText n = natText (n + 1) := by
      rw [← htext, ← htext', Except.ok.inj ht']
    exact Nat.succ_ne_self n (natText_injective heq).symm
  · -- `get` reads the pointer that `decr` stored
    obtain rfl : kg = kd := Subtype.ext (hkg.trans (cstr_of_zero_not_mem hzero))
    rw [hdb.get, Function.update_self, htext] at ht
    exact found_ne_of_decr hto hptr ht

/-- The law fails for a key set to 5: `not_decrLaw` at a keyspace of one key. -/
theorem not_decrLaw_five :
    ∃ s outs, run (serve fun _ => 0) (createDb, sdsnewlen (List.replicate MAX_LINE 0) MAX_LINE)
        [Request.wire (.set [97] [53])] = .ok (s, outs) ∧
      ¬ DecrLaw (fun _ => 0) s ⟨[97], by decide⟩ (Request.wire (.decr [97]))
        (Request.wire (.get [97])) (Request.wire (.incr [97])) := by
  have ho : Outbuf MAX_LINE (sdsnewlen (List.replicate MAX_LINE 0) MAX_LINE) :=
    outbuf_sdsnewlen (by simp) (by decide)
  have hset : IsRequest (Request.wire (.set [97] [53])) (.set [97] [53]) :=
    isRequest_wire (by decide +kernel)
  have hstart : Serving (fun _ => 0) (createDb, sdsnewlen (List.replicate MAX_LINE 0) MAX_LINE)
      fun _ => none := serving_createDb ho
  obtain ⟨s, hok, -⟩ := hstart.set hset (by decide) (k := ⟨[97], by decide⟩) rfl
  have hrun := run_cons_ok hok []
  exact ⟨s, _, hrun, not_decrLaw _ _ _ _ s ⟨[97], by decide⟩ _ _ _ ho hrun
    (isRequest_wire (by decide +kernel)) (isRequest_wire (by decide +kernel)) (isRequest_wire (by decide +kernel))⟩

/-- A key set to 5 and decremented reads as the flags byte of its sds header and the old text, and a
new key as `NULL`. -/
theorem get_of_decr_five :
    (run (serveRequest fun _ => 0) (createDb, sdsnewlen (List.replicate MAX_LINE 0) MAX_LINE)
        [.set [97] [53], .decr [97], .get [97]]).map Prod.snd
        = .ok [OK ++ [lf], OK ++ [lf], [1, 53, 10]] ∧ [1, 53, 10] ≠ natText 4 ++ [lf] ∧
      (run (serveRequest fun _ => 0) (createDb, sdsnewlen (List.replicate MAX_LINE 0) MAX_LINE)
        [.decr [97], .get [97]]).map Prod.snd = .error .badPointer := by
  exact ⟨by decide +kernel, by decide, by decide +kernel⟩

end RedisCounter
