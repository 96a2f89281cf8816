import RedisCounter.Dict.Runs

/-!
# A rehash comes to its end

Every call that reads or writes a key moves a running rehash ahead by a bucket, and `dictRehash` by as
many as it is told. While nothing pauses it, a rehash is therefore over after as many buckets as its
first table has, whatever the calls are and in whichever order they come. A rehash that starts in the
same call that ends one is another rehash: it runs between tables of different sizes, the first of
which is the second of the one before.
-/

namespace RedisCounter

open List Run

variable {K V : Type} {T : DictType K}

namespace Dict

variable {d d1 d2 d' : Dict K V} {n : ℕ}

/-! ## What a call does to the rehash -/

/-- The rehash of `d` goes on and is `n` buckets further at least, or none runs, or another one. -/
inductive Worked (n : ℕ) (d d' : Dict K V) : Prop
  | on {i i' : ℕ} (hi : d.rehashidx = some i) (hi' : d'.rehashidx = some i') (hle : i + n ≤ i')
      (size0 : d'.ht0.size = d.ht0.size) (size1 : d'.ht1.size = d.ht1.size)
  | ended (hi' : d'.rehashidx = none)
  | another (sizes : d'.ht0.size ≠ d'.ht1.size)
      (start : d.rehashidx.isSome → d'.ht0.size = d.ht1.size)

theorem Ahead.worked (h : Ahead n d d') : Worked n d d' := by
  rcases hi' : d'.rehashidx with _ | i'
  · exact .ended hi'
  · obtain ⟨i, hi, hle, hsize0, hsize1⟩ := h.going i' hi'
    exact .on hi hi' hle hsize0 hsize1

/-- Entries may be edited in place. -/
theorem Worked.edit (h : Worked n d d1) (hsame : SameShape d1 d2) : Worked n d d2 := by
  cases h with
  | on hi hi' hle size0 size1 =>
    exact .on hi (hsame.rehashidx.trans hi') hle (hsame.size0.trans size0) (hsame.size1.trans size1)
  | ended hi' => exact .ended (hsame.rehashidx.trans hi')
  | another sizes start =>
    refine .another ?_ fun hs => hsame.size0.trans (start hs)
    rwa [hsame.size0, hsame.size1]

/-- A table that has just been moved may be resized at once. -/
theorem Ahead.worked_of_dictExpand (h : Ahead n d d1) {size : ℕ} (hexp : dictExpand d1 size = some d2) :
    Worked n d d2 := by
  unfold dictExpand at hexp
  dsimp only at hexp
  split_ifs at hexp with hguard hsame hnil
  · cases hexp
    exact .ended (rehashidx_eq_none (not_or.1 hguard).1)
  · cases hexp
    exact .another (fun heq => hsame heq.symm) (h.ended (rehashidx_eq_none (not_or.1 hguard).1))

theorem Shaped.worked (h : Shaped T n d d') : Worked n d d' := by
  cases h with
  | kept sound ahead same => exact ahead.worked.edit same
  | expanded sound ahead hsize expand same => exact (ahead.worked_of_dictExpand expand).edit same
  | cleared same => exact .ended same.rehashidx

end Dict

theorem Dict.Sound.dictStep_worked {d d' : Dict K V} (h : d.Sound T) {c : DictCall K V}
    (hallow : DictAllowed d c) {n : ℕ} (hn : n ≤ c.buckets) (hgo : n = 0 ∨ d.Unpaused)
    {r : DictReply K V} (hstep : dictStep T d c = .ok (d', r)) : d.Worked n d' :=
  (h.dictCall_shaped hallow hn hgo (dictCall_of_dictStep hstep)).worked

/-! ## Whole runs -/

/-- A rehash never runs between tables of one size. -/
structure RehashInv (T : DictType K) (d : Dict K V) : Prop where
  ready : d.Ready T
  sizes : d.rehashidx.isSome → d.ht0.size ≠ d.ht1.size

theorem RehashInv.worked {d d' : Dict K V} {n : ℕ} (h : RehashInv T d) (hd' : d'.Ready T)
    (hw : d.Worked n d') : RehashInv T d' := by
  refine ⟨hd', fun hs => ?_⟩
  cases hw with
  | on hi hi' hle size0 size1 =>
    rw [size0, size1]
    exact h.sizes (by simp [hi])
  | ended hi' =>
    rw [hi'] at hs
    cases hs
  | another sizes start => exact sizes

section Bound

variable [DecidableEq K]

theorem Dict.Made.rehashInv {d : Dict K V} (h : d.Made T) : RehashInv T d := by
  obtain ⟨calls, replies, hcalls, hrun⟩ := h
  refine inv_of_along (RehashInv T) (fun d c d' r h hallow hstep => ?_) hcalls
    ⟨Dict.ready_dictCreate, fun hs => ?_⟩ hrun
  · have hw := h.ready.sound.dictStep_worked hallow (Nat.zero_le _) (.inl rfl) hstep
    exact h.worked (h.ready.of_dictStep hallow hstep) hw
  · cases hs

/-- The rehash that `d` is in is the one that `s` is in, and nothing pauses it. -/
def Dict.GoesOn (d s : Dict K V) : Prop :=
  s.rehashidx.isSome ∧ s.ht0.size = d.ht0.size ∧ s.Unpaused

instance (d s : Dict K V) : Decidable (d.GoesOn s) :=
  inferInstanceAs (Decidable (_ ∧ _ ∧ _ ∧ _))

/-- The index has come as far as the calls tell. -/
structure Reached (T : DictType K) (d0 : Dict K V) (i0 : ℕ) (past : List (DictCall K V))
    (s : Dict K V) : Prop where
  inv : RehashInv T s
  index : d0.GoesOn s → ∃ i, s.rehashidx = some i ∧ i0 + (past.map DictCall.buckets).sum ≤ i

theorem Reached.step {d0 s : Dict K V} {i0 : ℕ} {past : List (DictCall K V)}
    (h : Reached T d0 i0 past s) (hgo : d0.GoesOn s) {c : DictCall K V} (hallow : DictAllowed s c) :
    ∃ s' r, dictStep T s c = .ok (s', r) ∧ Reached T d0 i0 (past ++ [c]) s' := by
  obtain ⟨s', r, hstep, hs'⟩ := h.inv.ready.dictStep_spec hallow
  have hw := h.inv.ready.sound.dictStep_worked hallow le_rfl (.inr hgo.2.2) hstep
  refine ⟨s', r, hstep, h.inv.worked hs' hw, fun hgo' => ?_⟩
  cases hw with
  | @on i i' hi hi' hle size0 size1 =>
    obtain ⟨j, hj, hij⟩ := h.index hgo
    rw [hi] at hj
    cases hj
    refine ⟨i', hi', ?_⟩
    rw [map_append, sum_append, map_singleton, sum_singleton]
    omega
  | ended hi' =>
    rw [Dict.GoesOn, hi'] at hgo'
    cases hgo'.1
  | another sizes start =>
    -- its first table is the second of the rehash before, which has another size
    refine absurd ?_ (h.inv.sizes hgo.1)
    rw [hgo.2.1, ← hgo'.2.1, start hgo.1]

/-- As long as a rehash goes on and nothing pauses it, the calls made, whichever admissible ones they are,
do not amount to more buckets than were still to be moved. -/
theorem dictRehash_bounded (T : DictType K) (d : Dict K V) (hd : d.Made T)
    (calls : List (DictCall K V)) (hcalls : Along (dictStep T) DictAllowed d calls)
    (hgo : Throughout (dictStep T) d.GoesOn d calls) :
    ∃ i, d.rehashidx = some i ∧ i + (calls.map DictCall.buckets).sum ≤ d.ht0.size := by
  obtain ⟨i, hi⟩ := Option.isSome_iff_exists.1 hgo.head.1
  have h0 : Reached T d i [] d := ⟨hd.rehashInv, fun _ => ⟨i, hi, le_rfl⟩⟩
  obtain ⟨s, os, -, hs, h⟩ := ok_run_throughout (Reached T d i)
    (fun past s c hgo hallow h => h.step hgo hallow) hcalls hgo [] h0
  obtain ⟨j, hj, hij⟩ := h.index hs
  refine ⟨i, hi, ?_⟩
  have hle := h.inv.ready.sound.rehashidx_le hj
  rw [hs.2.1] at hle
  rw [nil_append] at hij
  exact hij.trans hle

end Bound

theorem dictRehash_bounded_mixed :
    ∃ i, fiveKeys.rehashidx = some i ∧
      i + (([.fetch 7, .rehash 1, .delete 3] : List (DictCall ℕ ℕ)).map DictCall.buckets).sum ≤ 4 :=
  dictRehash_bounded natDictType fiveKeys made_fiveKeys [.fetch 7, .rehash 1, .delete 3]
    (by decide +kernel) (by decide +kernel)

end RedisCounter
