import Mathlib.Algebra.BigOperators.Group.Finset.Basic
import Mathlib.Data.Nat.ModEq
import RedisCounter.Lib.Run
import RedisCounter.Memory

/-!
# The allocator that counts

`zmalloc.c` wraps the four functions of the C library and keeps `used_memory`. The size of a block is
read from the word in front of it, which is the library's own: the wrapper asks for `PREFIX_SIZE`
bytes more and stores nothing in them. `zrealloc` and `zfree` update the counter, and `zmalloc` and
`zcalloc` do not, so that it is short of every block that they hand out.

The library is a parameter. Its state is its heap; an allocation may fail, and the wrapper then
aborts.
-/

namespace RedisCounter

open Run

/-- `NULL`; pointers are addresses. -/
def NULL : ℕ := 0

/-- The functions of the C library, and what memory holds. -/
structure Libc (σ : Type) where
  malloc : σ → UInt64 → ℕ × σ
  calloc : σ → UInt64 → UInt64 → ℕ × σ
  realloc : σ → ℕ → UInt64 → ℕ × σ
  free : σ → ℕ → σ
  /-- `*((size_t*)p)`. -/
  load : σ → ℕ → UInt64
  /-- The blocks that were handed out and not given back. -/
  live : σ → Finset ℕ

/-- `zmalloc_default_oom`: the process aborts, and reports the size. -/
structure Abort where
  size : UInt64
deriving DecidableEq

/-- The heap, and `used_memory`. -/
structure Heap (σ : Type) where
  libc : σ
  usedMemory : UInt64

/-- `if (size&(sizeof(long)-1)) size += sizeof(long)-(size&(sizeof(long)-1))`. -/
def padLong (size : UInt64) : UInt64 :=
  if size &&& 7 ≠ 0 then size + (8 - (size &&& 7)) else size

section Functions

variable {σ : Type} (c : Libc σ)

/-- `zmalloc_size`. -/
def zmallocSize (s : σ) (ptr : ℕ) : UInt64 :=
  padLong (c.load s (ptr - PREFIX_SIZE)) + .ofNat PREFIX_SIZE

/-- `update_zmalloc_stat_alloc`. The macro pads a copy of its argument and then adds the argument. -/
def updateZmallocStatAlloc (h : Heap σ) (n : UInt64) : Heap σ :=
  { h with usedMemory := h.usedMemory + n }

/-- `update_zmalloc_stat_free`, which subtracts in the same way. -/
def updateZmallocStatFree (h : Heap σ) (n : UInt64) : Heap σ :=
  { h with usedMemory := h.usedMemory - n }

/-- `zmalloc`. -/
def zmalloc (h : Heap σ) (size : UInt64) : Except Abort (Heap σ × ℕ) :=
  let (ptr, libc) := c.malloc h.libc (size + .ofNat PREFIX_SIZE)
  if ptr = NULL then throw ⟨size⟩ else pure ({ h with libc }, ptr)

/-- `zcalloc`. -/
def zcalloc (h : Heap σ) (size : UInt64) : Except Abort (Heap σ × ℕ) :=
  let (ptr, libc) := c.calloc h.libc 1 (size + .ofNat PREFIX_SIZE)
  if ptr = NULL then throw ⟨size⟩ else pure ({ h with libc }, ptr)

/-- `zrealloc`. -/
def zrealloc (h : Heap σ) (ptr : ℕ) (size : UInt64) : Except Abort (Heap σ × ℕ) :=
  if ptr = NULL then zmalloc c h size
  else
    let oldsize := zmallocSize c h.libc ptr
    let (newptr, libc) := c.realloc h.libc ptr size
    if newptr = NULL then throw ⟨size⟩
    else
      let h := updateZmallocStatFree { h with libc } oldsize
      pure (updateZmallocStatAlloc h (zmallocSize c libc newptr), newptr)

/-- `zfree`. -/
def zfree (h : Heap σ) (ptr : ℕ) : Heap σ :=
  if ptr = NULL then h
  else
    let h := updateZmallocStatFree h (zmallocSize c h.libc ptr)
    { h with libc := c.free h.libc ptr }

end Functions

/-! ## Runs of calls -/

/-- A call. -/
inductive Call
  | zmalloc (size : UInt64)
  | zcalloc (size : UInt64)
  | zrealloc (ptr : ℕ) (size : UInt64)
  | zfree (ptr : ℕ)

/-- The call, with the pointer it returns; `zfree` returns none. -/
def callStep {σ : Type} (c : Libc σ) (h : Heap σ) : Call → Except Abort (Heap σ × ℕ)
  | .zmalloc size => zmalloc c h size
  | .zcalloc size => zcalloc c h size
  | .zrealloc ptr size => zrealloc c h ptr size
  | .zfree ptr => pure (zfree c h ptr, NULL)

/-- The pointer that the call is given, if any, is `NULL` or a block that is live. -/
def Call.Valid {σ : Type} (c : Libc σ) (h : Heap σ) : Call → Prop
  | .zrealloc ptr _ => ptr = NULL ∨ ptr ∈ c.live h.libc
  | .zfree ptr => ptr = NULL ∨ ptr ∈ c.live h.libc
  | _ => True

instance {σ : Type} (c : Libc σ) (h : Heap σ) : ∀ call : Call, Decidable (call.Valid c h)
  | .zmalloc _ => .isTrue trivial
  | .zcalloc _ => .isTrue trivial
  | .zrealloc ptr _ => inferInstanceAs (Decidable (ptr = NULL ∨ ptr ∈ c.live h.libc))
  | .zfree ptr => inferInstanceAs (Decidable (ptr = NULL ∨ ptr ∈ c.live h.libc))

/-- The call hands out a block that was not live. -/
def Call.Allocates : Call → Prop
  | .zmalloc _ => True
  | .zcalloc _ => True
  | .zrealloc ptr _ => ptr = NULL
  | .zfree _ => False

instance : ∀ call : Call, Decidable call.Allocates
  | .zmalloc _ => .isTrue trivial
  | .zcalloc _ => .isTrue trivial
  | .zrealloc ptr _ => inferInstanceAs (Decidable (ptr = NULL))
  | .zfree _ => .isFalse id

/-- The sum of the sizes of the live blocks. -/
def liveSize {σ : Type} (c : Libc σ) (s : σ) : ℕ := ∑ p ∈ c.live s, (zmallocSize c s p).toNat

/-- `used_memory` is the sum of the sizes of the live blocks. -/
def Balanced {σ : Type} (c : Libc σ) (h : Heap σ) : Prop :=
  h.usedMemory.toNat = liveSize c h.libc

instance {σ : Type} (c : Libc σ) (h : Heap σ) : Decidable (Balanced c h) :=
  inferInstanceAs (Decidable (_ = liveSize c h.libc))

/-! ## The library -/

/-- What the C library documents: a block that is handed out was not live, `realloc` exchanges one
block for another, `free` takes one back; and the word in front of a live block is a size, which is
at most `PTRDIFF_MAX`, the largest there is. -/
structure Libc.Correct {σ : Type} (c : Libc σ) : Prop where
  malloc : ∀ s n p s', c.malloc s n = (p, s') → p ≠ NULL →
    p ∉ c.live s ∧ c.live s' = insert p (c.live s)
  calloc : ∀ s k n p s', c.calloc s k n = (p, s') → p ≠ NULL →
    p ∉ c.live s ∧ c.live s' = insert p (c.live s)
  realloc : ∀ s p n q s', p ∈ c.live s → c.realloc s p n = (q, s') → q ≠ NULL →
    q ∉ (c.live s).erase p ∧ c.live s' = insert q ((c.live s).erase p)
  free : ∀ s p, p ∈ c.live s → c.live (c.free s p) = (c.live s).erase p
  header : ∀ s p, p ∈ c.live s → (c.load s (p - PREFIX_SIZE)).toNat < 2 ^ 63

/-- A size is rounded up to a multiple of `sizeof(long)`. -/
theorem toNat_padLong {size : UInt64} (h : size.toNat < 2 ^ 63) :
    (padLong size).toNat = (size.toNat + 7) / 8 * 8 := by
  have hlow : (size &&& 7).toNat = size.toNat % 8 := by
    rw [UInt64.toNat_and]
    exact Nat.and_two_pow_sub_one_eq_mod size.toNat 3
  have hzero : size &&& 7 ≠ 0 ↔ size.toNat % 8 ≠ 0 := by
    rw [← hlow]
    exact not_congr UInt64.toNat_inj.symm
  unfold padLong
  by_cases hlt : size.toNat % 8 = 0
  · rw [if_neg fun hne => hzero.1 hne hlt]
    omega
  · have hle : size &&& 7 ≤ 8 := by
      rw [UInt64.le_iff_toNat_le, hlow]
      show size.toNat % 8 ≤ 8
      omega
    rw [if_pos (hzero.2 hlt), UInt64.toNat_add, UInt64.toNat_sub_of_le _ _ hle, hlow]
    show (size.toNat + (8 - size.toNat % 8)) % 2 ^ 64 = _
    omega

section Correct

variable {σ : Type} {c : Libc σ} {h h' : Heap σ} {call : Call} {p : ℕ}

/-- The size of a live block counts the prefix, and is not 0. -/
theorem Libc.Correct.zmallocSize_pos (hc : c.Correct) {s : σ} (hp : p ∈ c.live s) :
    0 < (zmallocSize c s p).toNat := by
  have hheader := hc.header s p hp
  have hpad := toNat_padLong hheader
  unfold zmallocSize
  rw [UInt64.toNat_add, hpad]
  show 0 < (((c.load s (p - PREFIX_SIZE)).toNat + 7) / 8 * 8 + 8) % 2 ^ 64
  omega

/-- What a call that allocates has done: there is one block more, and the counter is as it was. -/
structure Allocated (c : Libc σ) (h h' : Heap σ) (p : ℕ) : Prop where
  fresh : p ∉ c.live h.libc
  live : c.live h'.libc = insert p (c.live h.libc)
  usedMemory : h'.usedMemory = h.usedMemory

/-- The end of `zmalloc` and `zcalloc`, from what the library has returned. -/
theorem allocated_of_ok {size : UInt64} {r : ℕ × σ}
    (hspec : r.1 ≠ NULL → r.1 ∉ c.live h.libc ∧ c.live r.2 = insert r.1 (c.live h.libc))
    (hok : (if r.1 = NULL then throw ⟨size⟩ else pure ({ h with libc := r.2 }, r.1))
      = (.ok (h', p) : Except Abort (Heap σ × ℕ))) : Allocated c h h' p := by
  split_ifs at hok with hnull
  cases hok
  exact ⟨(hspec hnull).1, (hspec hnull).2, rfl⟩

theorem Libc.Correct.allocates (hc : c.Correct) (hcall : call.Allocates)
    (hok : callStep c h call = .ok (h', p)) : Allocated c h h' p := by
  cases call with
  | zmalloc size => exact allocated_of_ok (hc.malloc _ _ _ _ rfl) hok
  | zcalloc size => exact allocated_of_ok (hc.calloc _ _ _ _ _ rfl) hok
  | zrealloc ptr size =>
    have hnull : ptr = NULL := hcall
    simp only [callStep, zrealloc, if_pos hnull] at hok
    exact allocated_of_ok (hc.malloc _ _ _ _ rfl) hok
  | zfree ptr => exact hcall.elim

/-- With no block live, the calls that allocate none have nothing to work on. -/
theorem callStep_of_live_eq_empty (hempty : c.live h.libc = ∅) (hvalid : call.Valid c h)
    (hcall : ¬ call.Allocates) : callStep c h call = .ok (h, NULL) := by
  have hnone : ∀ ptr, ptr = NULL ∨ ptr ∈ c.live h.libc → ptr = NULL := by
    intro ptr hptr
    apply hptr.resolve_right
    rw [hempty]
    exact Finset.notMem_empty ptr
  cases call with
  | zmalloc size => exact absurd trivial hcall
  | zcalloc size => exact absurd trivial hcall
  | zrealloc ptr size => exact absurd (hnone ptr hvalid) hcall
  | zfree ptr =>
    simp only [callStep, zfree, if_pos (hnone ptr hvalid)]
    rfl

theorem balanced_of_live_eq_empty (hempty : c.live h.libc = ∅) (hused : h.usedMemory = 0) :
    Balanced c h := by
  unfold Balanced liveSize
  rw [hempty, hused, Finset.sum_empty]
  rfl

/-- The first block is not counted. -/
theorem Allocated.not_balanced (ha : Allocated c h h' p) (hc : c.Correct)
    (hempty : c.live h.libc = ∅) (hused : h.usedMemory = 0) : ¬ Balanced c h' := by
  have hlive : c.live h'.libc = {p} := by
    rw [ha.live, hempty]
    rfl
  have hpos : 0 < (zmallocSize c h'.libc p).toNat := by
    apply hc.zmallocSize_pos
    rw [hlive]
    exact Finset.mem_singleton_self p
  unfold Balanced liveSize
  rw [ha.usedMemory, hused, hlive, Finset.sum_singleton]
  exact hpos.ne

end Correct

/-! ## A library

A heap that is handed out from below and never reused. A chunk has the word with its size in front of
the block, with the flag that the chunk before it is in use, and is a multiple of 16 bytes. -/

/-- The blocks that are live, with the words in front of them; `top` is where the next chunk starts. -/
structure Arena where
  top : ℕ
  blocks : List (ℕ × UInt64)
  lt_top : ∀ b ∈ blocks, b.1 < top + 16
  header_lt : ∀ b ∈ blocks, b.2.toNat < 2 ^ 63

namespace Arena

def empty : Arena := ⟨4096, [], fun _ h => absurd h List.not_mem_nil, fun _ h => absurd h List.not_mem_nil⟩

def live (a : Arena) : Finset ℕ := (a.blocks.map Prod.fst).toFinset

def load (a : Arena) (addr : ℕ) : UInt64 := (a.blocks.lookup (addr + PREFIX_SIZE)).getD 0

def malloc (a : Arena) (n : UInt64) : ℕ × Arena :=
  let size := max 32 ((n.toNat + 23) / 16 * 16)
  if hsize : size + 1 < 2 ^ 63 then
    (a.top + 16, {
      top := a.top + size
      blocks := (a.top + 16, .ofNat (size + 1)) :: a.blocks
      lt_top := by
        refine List.forall_mem_cons.2 ⟨by dsimp only; omega, fun b hb => ?_⟩
        exact (a.lt_top b hb).trans_le (by omega)
      header_lt := by
        refine List.forall_mem_cons.2 ⟨?_, a.header_lt⟩
        dsimp only
        rw [UInt64.toNat_ofNat']
        omega })
  else (NULL, a)

def free (a : Arena) (ptr : ℕ) : Arena where
  top := a.top
  blocks := a.blocks.filter fun b => b.1 ≠ ptr
  lt_top b hb := a.lt_top b (List.mem_of_mem_filter hb)
  header_lt b hb := a.header_lt b (List.mem_of_mem_filter hb)

def realloc (a : Arena) (ptr : ℕ) (n : UInt64) : ℕ × Arena :=
  let (newptr, a') := a.malloc n
  if newptr = NULL then (NULL, a) else (newptr, a'.free ptr)

/-- The library over this heap. -/
def libc : Libc Arena where
  malloc := malloc
  calloc a count n := if count.toNat * n.toNat < 2 ^ 64 then a.malloc (count * n) else (NULL, a)
  realloc := realloc
  free := free
  load := load
  live := live

theorem malloc_spec {a a' : Arena} {n : UInt64} {p : ℕ} (h : a.malloc n = (p, a')) (hp : p ≠ NULL) :
    p ∉ a.live ∧ a'.live = insert p a.live := by
  unfold malloc at h
  dsimp only at h
  split_ifs at h with hsize
  · cases h
    constructor
    · intro hmem
      obtain ⟨b, hb, heq⟩ := List.mem_map.1 (List.mem_toFinset.1 hmem)
      exact (a.lt_top b hb).ne heq
    · simp only [live, List.map_cons, List.toFinset_cons]
  · exact absurd (congrArg Prod.fst h).symm hp

theorem live_free (a : Arena) (p : ℕ) : (a.free p).live = a.live.erase p := by
  ext q
  simp only [live, free, List.mem_toFinset, Finset.mem_erase, List.mem_map, List.mem_filter,
    decide_eq_true_eq]
  constructor
  · rintro ⟨b, ⟨hb, hne⟩, rfl⟩
    exact ⟨hne, b, hb, rfl⟩
  · rintro ⟨hne, b, hb, rfl⟩
    exact ⟨b, ⟨hb, hne⟩, rfl⟩

theorem load_lt (a : Arena) (addr : ℕ) : (a.load addr).toNat < 2 ^ 63 := by
  unfold load
  rcases hlookup : a.blocks.lookup (addr + PREFIX_SIZE) with _ | w
  · decide
  · obtain ⟨_, _, heq, -⟩ := List.lookup_eq_some_iff.1 hlookup
    apply a.header_lt (addr + PREFIX_SIZE, w)
    rw [heq]
    exact List.mem_append_right _ (List.mem_cons_self ..)

theorem correct_libc : libc.Correct where
  malloc s n p s' h hp := malloc_spec h hp
  calloc s k n p s' h hp := by
    simp only [libc] at h
    split_ifs at h with hover
    · exact malloc_spec h hp
    · exact absurd (congrArg Prod.fst h).symm hp
  realloc s p n q s' hlive h hq := by
    rcases hmalloc : s.malloc n with ⟨newptr, a⟩
    simp only [libc, realloc, hmalloc] at h
    split_ifs at h with hnull
    · exact absurd (congrArg Prod.fst h).symm hq
    · cases h
      obtain ⟨hfresh, hins⟩ := malloc_spec hmalloc hq
      refine ⟨fun hmem => hfresh (Finset.mem_of_mem_erase hmem), ?_⟩
      show (a.free p).live = _
      rw [live_free, hins, Finset.erase_insert_of_ne]
      · rfl
      · rintro rfl
        exact hfresh hlive
  free s p _ := live_free s p
  header s p _ := s.load_lt (p - PREFIX_SIZE)

end Arena

/-! ## What the counter counts -/

/-- In a run that starts with no block live, `used_memory` is the sum of the sizes of the live blocks
in every state exactly when no call of the run allocates a block. -/
theorem balanced_throughout_iff {σ : Type} (c : Libc σ) (hc : c.Correct) (s : σ)
    (hempty : c.live s = ∅) (calls : List Call) (h' : Heap σ) (outs : List ℕ)
    (hvalid : Along (callStep c) (fun h call => call.Valid c h) ⟨s, 0⟩ calls)
    (hrun : run (callStep c) ⟨s, 0⟩ calls = .ok (h', outs)) :
    Throughout (callStep c) (Balanced c) ⟨s, 0⟩ calls ↔ ∀ call ∈ calls, ¬ call.Allocates := by
  have hstart : Balanced c ⟨s, 0⟩ := balanced_of_live_eq_empty hempty rfl
  induction calls generalizing outs with
  | nil => exact iff_of_true hstart fun call hmem => absurd hmem List.not_mem_nil
  | cons call calls ih =>
    obtain ⟨h1, p, outs', hok, hrest, -⟩ := run_cons_eq_ok hrun
    rw [List.forall_mem_cons]
    by_cases hcall : call.Allocates
    · -- the state after the first block is handed out is not balanced
      apply iff_of_false
      · intro hall
        exact (hc.allocates hcall hok).not_balanced hc hempty rfl (hall.2 h1 p hok).head
      · intro hnone
        exact hnone.1 hcall
    · have hsame := callStep_of_live_eq_empty hempty hvalid.1 hcall
      obtain ⟨rfl, rfl⟩ : h1 = ⟨s, 0⟩ ∧ p = NULL := by
        rw [hsame] at hok
        cases hok
        exact ⟨rfl, rfl⟩
      have hih := ih outs' (hvalid.2 _ _ hok) hrest
      constructor
      · intro hall
        exact ⟨hcall, hih.1 (hall.2 _ _ hok)⟩
      · intro hnone
        refine ⟨hstart, fun h2 q hok' => ?_⟩
        rw [hsame] at hok'
        cases hok'
        exact hih.2 hnone.2

/-- A block is handed out, and the counter is as it was. -/
theorem not_balanced_throughout_thirteen :
    ¬ Throughout (callStep Arena.libc) (Balanced Arena.libc) ⟨.empty, 0⟩
      [.zmalloc 13, .zfree 4112] := by
  have hvalid : Along (callStep Arena.libc) (fun h call => call.Valid Arena.libc h) ⟨.empty, 0⟩
      [.zmalloc 13, .zfree 4112] := by
    decide +kernel
  obtain ⟨h', outs, hrun, -⟩ : ∃ h' outs, run (callStep Arena.libc) ⟨.empty, 0⟩
      [.zmalloc 13, .zfree 4112] = .ok (h', outs) ∧ True := by
    apply exists_of_ends
    decide +kernel
  intro hall
  exact (balanced_throughout_iff _ Arena.correct_libc _ rfl _ h' outs hvalid hrun).1 hall
    (.zmalloc 13) (List.mem_cons_self ..) trivial

/-- A block of 13 bytes has size 48. When it is freed, no block is live and `used_memory` has wrapped
below 0. -/
theorem wrapped_thirteen :
    Arena.libc.Correct ∧
    Along (callStep Arena.libc) (fun h call => call.Valid Arena.libc h) ⟨.empty, 0⟩
      [.zmalloc 13, .zfree 4112] ∧
    (∃ h outs, run (callStep Arena.libc) ⟨.empty, 0⟩ [.zmalloc 13] = .ok (h, outs) ∧
      zmallocSize Arena.libc h.libc 4112 = 48 ∧ h.usedMemory = 0 ∧ ¬ Balanced Arena.libc h) ∧
    ∃ h outs, run (callStep Arena.libc) ⟨.empty, 0⟩ [.zmalloc 13, .zfree 4112] = .ok (h, outs) ∧
      Arena.libc.live h.libc = ∅ ∧ h.usedMemory = 18446744073709551568 := by
  refine ⟨Arena.correct_libc, by decide +kernel, ?_, ?_⟩
  · apply exists_of_ends
    decide +kernel
  · apply exists_of_ends
    decide +kernel

/-! ## What the counter is short of

The library may change the word in front of a block whenever it likes. If it leaves the words of the
blocks that a call is not about alone, the missing updates are all that goes wrong. -/

/-- A call changes no word in front of a live block, except of the block that it is given. -/
structure Libc.Stable {σ : Type} (c : Libc σ) : Prop where
  malloc : ∀ s n p, p ∈ c.live s →
    c.load (c.malloc s n).2 (p - PREFIX_SIZE) = c.load s (p - PREFIX_SIZE)
  calloc : ∀ s k n p, p ∈ c.live s →
    c.load (c.calloc s k n).2 (p - PREFIX_SIZE) = c.load s (p - PREFIX_SIZE)
  realloc : ∀ s q n p, p ∈ (c.live s).erase q →
    c.load (c.realloc s q n).2 (p - PREFIX_SIZE) = c.load s (p - PREFIX_SIZE)
  free : ∀ s q p, p ∈ (c.live s).erase q →
    c.load (c.free s q) (p - PREFIX_SIZE) = c.load s (p - PREFIX_SIZE)

/-- The heap, with a history: the sizes of the blocks that were handed out, added up. -/
structure Ledger (σ : Type) where
  heap : Heap σ
  handedOut : ℕ

/-- One call. -/
def ledgerStep {σ : Type} (c : Libc σ) (l : Ledger σ) (call : Call) :
    Except Abort (Ledger σ × ℕ) := do
  let (heap, p) ← callStep c l.heap call
  let size := if call.Allocates then (zmallocSize c heap.libc p).toNat else 0
  pure (⟨heap, l.handedOut + size⟩, p)

/-- Up to a multiple of `2 ^ 64`, the counter is short of the live blocks by what was handed out. -/
def Short {σ : Type} (c : Libc σ) (l : Ledger σ) : Prop :=
  l.heap.usedMemory.toNat + l.handedOut ≡ liveSize c l.heap.libc [MOD 2 ^ 64]

section Stable

variable {σ : Type} {c : Libc σ} {s s' : σ} {h h' : Heap σ} {l l' : Ledger σ} {call : Call} {p q : ℕ}

/-- One block beside others that are as they were. -/
theorem liveSize_insert {rest : Finset ℕ} (hlive : c.live s' = insert q rest) (hq : q ∉ rest)
    (hsame : ∀ r ∈ rest, c.load s' (r - PREFIX_SIZE) = c.load s (r - PREFIX_SIZE)) :
    liveSize c s' = (zmallocSize c s' q).toNat + ∑ r ∈ rest, (zmallocSize c s r).toNat := by
  unfold liveSize
  rw [hlive, Finset.sum_insert hq]
  congr 1
  apply Finset.sum_congr rfl
  intro r hr
  rw [zmallocSize, zmallocSize, hsame r hr]

theorem Allocated.liveSize (ha : Allocated c h h' p)
    (hsame : ∀ r ∈ c.live h.libc, c.load h'.libc (r - PREFIX_SIZE) = c.load h.libc (r - PREFIX_SIZE)) :
    liveSize c h'.libc = (zmallocSize c h'.libc p).toNat + liveSize c h.libc :=
  liveSize_insert ha.live ha.fresh hsame

/-- A block that is freed. -/
theorem liveSize_erase (hp : p ∈ c.live s) (hlive : c.live s' = (c.live s).erase p)
    (hsame : ∀ r ∈ (c.live s).erase p, c.load s' (r - PREFIX_SIZE) = c.load s (r - PREFIX_SIZE)) :
    liveSize c s' + (zmallocSize c s p).toNat = liveSize c s := by
  have hrest : liveSize c s' = ∑ r ∈ (c.live s).erase p, (zmallocSize c s r).toNat := by
    unfold liveSize
    rw [hlive]
    apply Finset.sum_congr rfl
    intro r hr
    rw [zmallocSize, zmallocSize, hsame r hr]
  rw [hrest]
  exact Finset.sum_erase_add _ _ hp

/-- A block that is exchanged for another. -/
theorem liveSize_exchange (hp : p ∈ c.live s) (hq : q ∉ (c.live s).erase p)
    (hlive : c.live s' = insert q ((c.live s).erase p))
    (hsame : ∀ r ∈ (c.live s).erase p, c.load s' (r - PREFIX_SIZE) = c.load s (r - PREFIX_SIZE)) :
    liveSize c s' + (zmallocSize c s p).toNat = liveSize c s + (zmallocSize c s' q).toNat := by
  have hrest : ∑ r ∈ (c.live s).erase p, (zmallocSize c s r).toNat + (zmallocSize c s p).toNat
      = liveSize c s := Finset.sum_erase_add _ _ hp
  rw [liveSize_insert hlive hq hsame, ← hrest]
  omega

theorem toNat_add_modEq (x y : UInt64) : (x + y).toNat ≡ x.toNat + y.toNat [MOD 2 ^ 64] := by
  rw [UInt64.toNat_add]
  exact Nat.mod_modEq _ _

theorem toNat_sub_add_modEq (x y : UInt64) : (x - y).toNat + y.toNat ≡ x.toNat [MOD 2 ^ 64] := by
  have h := toNat_add_modEq (x - y) y
  rw [UInt64.sub_add_cancel] at h
  exact h.symm

theorem Libc.Stable.allocates (hst : c.Stable) (hcall : call.Allocates)
    (hok : callStep c h call = .ok (h', p)) :
    ∀ r ∈ c.live h.libc, c.load h'.libc (r - PREFIX_SIZE) = c.load h.libc (r - PREFIX_SIZE) := by
  intro r hr
  cases call with
  | zmalloc size =>
    simp only [callStep, zmalloc] at hok
    split_ifs at hok
    cases hok
    exact hst.malloc _ _ r hr
  | zcalloc size =>
    simp only [callStep, zcalloc] at hok
    split_ifs at hok
    cases hok
    exact hst.calloc _ _ _ r hr
  | zrealloc ptr size =>
    have hnull : ptr = NULL := hcall
    simp only [callStep, zrealloc, zmalloc, if_pos hnull] at hok
    split_ifs at hok
    cases hok
    exact hst.malloc _ _ r hr
  | zfree ptr => exact hcall.elim

/-- `zrealloc` and `zfree` count what they do. -/
theorem usedMemory_of_not_allocates (hc : c.Correct) (hst : c.Stable) (hvalid : call.Valid c h)
    (hcall : ¬ call.Allocates) (hok : callStep c h call = .ok (h', p)) :
    h'.usedMemory.toNat + liveSize c h.libc ≡ h.usedMemory.toNat + liveSize c h'.libc
      [MOD 2 ^ 64] := by
  cases call with
  | zmalloc size => exact absurd trivial hcall
  | zcalloc size => exact absurd trivial hcall
  | zrealloc ptr size =>
    have hnull : ptr ≠ NULL := hcall
    have hlive : ptr ∈ c.live h.libc := hvalid.resolve_left hnull
    rcases hrealloc : c.realloc h.libc ptr size with ⟨newptr, libc⟩
    simp only [callStep, zrealloc, if_neg hnull, hrealloc] at hok
    split_ifs at hok with hfail
    cases hok
    obtain ⟨hfresh, hlive'⟩ := hc.realloc _ _ _ _ _ hlive hrealloc hfail
    have hsame := hst.realloc h.libc ptr size
    rw [hrealloc] at hsame
    have hsum := liveSize_exchange hlive hfresh hlive' hsame
    have hsub := toNat_sub_add_modEq h.usedMemory (zmallocSize c h.libc ptr)
    have hadd := toNat_add_modEq (h.usedMemory - zmallocSize c h.libc ptr)
      (zmallocSize c libc p)
    simp only [updateZmallocStatFree, updateZmallocStatAlloc]
    unfold Nat.ModEq at hsub hadd ⊢
    omega
  | zfree ptr =>
    cases hok
    by_cases hnull : ptr = NULL
    · simp only [zfree, if_pos hnull]
      rfl
    · have hlive : ptr ∈ c.live h.libc := hvalid.resolve_left hnull
      have hsum := liveSize_erase hlive (hc.free _ _ hlive) (hst.free _ _)
      have hsub := toNat_sub_add_modEq h.usedMemory (zmallocSize c h.libc ptr)
      simp only [zfree, if_neg hnull, updateZmallocStatFree]
      unfold Nat.ModEq at hsub ⊢
      omega

theorem Short.step (hc : c.Correct) (hst : c.Stable) (hshort : Short c l)
    (hvalid : call.Valid c l.heap) (hok : ledgerStep c l call = .ok (l', p)) : Short c l' := by
  obtain ⟨⟨heap, ptr⟩, hcallStep, hok⟩ := bind_eq_ok hok
  cases hok
  unfold Short at hshort ⊢
  by_cases hcall : call.Allocates
  · have ha := hc.allocates hcall hcallStep
    rw [if_pos hcall, ha.usedMemory, ha.liveSize (hst.allocates hcall hcallStep)]
    unfold Nat.ModEq at hshort ⊢
    dsimp only
    omega
  · have hcount := usedMemory_of_not_allocates hc hst hvalid hcall hcallStep
    rw [if_neg hcall]
    unfold Nat.ModEq at hshort hcount ⊢
    dsimp only
    omega

end Stable

namespace Arena

/-- Every block has room for the word in front of it. -/
def High (a : Arena) : Prop := ∀ b ∈ a.blocks, PREFIX_SIZE ≤ b.1

variable {a : Arena} {p q : ℕ}

theorem High.malloc (h : a.High) (n : UInt64) : (a.malloc n).2.High := by
  unfold Arena.malloc
  dsimp only
  split_ifs
  · exact List.forall_mem_cons.2 ⟨Nat.le_add_left 8 (a.top + 8), h⟩
  · exact h

theorem High.free (h : a.High) (p : ℕ) : (a.free p).High :=
  fun b hb => h b (List.mem_of_mem_filter hb)

theorem High.realloc (h : a.High) (p : ℕ) (n : UInt64) : (a.realloc p n).2.High := by
  unfold Arena.realloc
  dsimp only
  split_ifs
  · exact h
  · exact (h.malloc n).free p

theorem High.calloc (h : a.High) (count n : UInt64) : (libc.calloc a count n).2.High := by
  simp only [libc]
  split_ifs
  · exact h.malloc _
  · exact h

end Arena

end RedisCounter
