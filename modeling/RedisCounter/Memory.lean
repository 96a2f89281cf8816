import Mathlib.Data.Int.Notation
import Mathlib.Data.List.TakeWhile
import Mathlib.Data.Nat.Notation
import Mathlib.Tactic.Common

/-!
# Bytes, C strings and the ways a run can go wrong

The code is C: strings are runs of bytes ended by a NUL, and an operation can leave the defined
part of the language or exit the process. A stretch of memory is modelled by the list of its bytes,
lowest address first; `readByte` past the end of the list reads the NUL that ends it. Everything
that can go wrong is a `Fault`, and an operation that can go wrong returns `Except Fault _`.
-/

namespace RedisCounter

/-- A stretch of memory, lowest address first. -/
abbrev Bytes := List UInt8

/-- The double quote, the single quote, the backslash, the carriage return and the newline. -/
@[simp] abbrev dquote : UInt8 := 34
@[simp] abbrev squote : UInt8 := 39
@[simp] abbrev bslash : UInt8 := 92
@[simp] abbrev cr : UInt8 := 13
@[simp] abbrev lf : UInt8 := 10

/-- The bytes of a string literal, without its NUL. -/
def ascii (cs : List Char) : Bytes := cs.map fun c => UInt8.ofNat c.toNat

/-- The ways a call can fail to return normally. -/
inductive Fault
  /-- `assert(d->ht[0].size > d->rehashidx)` in `dictRehash` fails: the process exits. -/
  | assertRehash
  /-- `serverAssertWithInfo(NULL, key, retval == DICT_OK)` in `dbAdd` fails: the process exits. -/
  | assertAdd
  /-- `serverAssertWithInfo(NULL, key, de != NULL)` in `dbOverwrite` fails: the process exits. -/
  | assertOverwrite
  /-- A bucket array is indexed outside its bounds. -/
  | tableBounds
  /-- A variable or field is read that no statement has assigned. -/
  | unassigned
  /-- A key is too long for the `int` its length is compared as. -/
  | keyLength
  /-- A string is read through `NULL` or through a pointer outside its block. -/
  | badPointer
  /-- A string operation moved `outbuf`, and its caller goes on with the old pointer. -/
  | outbufMoved
  /-- The kernel or the loop writes past the end of `inbuf`. -/
  | inbufOverrun
  /-- `epoll_wait` writes past the end of `events`. -/
  | eventsOverrun
  /-- A string is written past the end of the block it is in. -/
  | blockOverrun
  /-- The bytes of a bucket array do not fit a `size_t`: it gets less than its `size` says. -/
  | tableBytes
  /-- An `int` counts past its range. -/
  | intOverflow
deriving DecidableEq, Repr

/-! ## Blocks -/

/-- `sizeof(size_t)`: what `zmalloc` asks `malloc` for beyond the bytes it is asked for. -/
def PREFIX_SIZE : ℕ := 8

/-- The bytes that can be used of what `malloc(n)` returns, `malloc_usable_size` of the GNU C library on
a 64-bit machine: chunks are multiples of 16 bytes, 32 at least, and 8 of them are the chunk's own. -/
def mallocUsableSize (n : ℕ) : ℕ := max 32 ((n + 8 + 15) / 16 * 16) - 8

/-! ## C strings -/

/-- The byte at offset `i` of a string; its end reads as the terminating NUL. -/
def readByte (p : Bytes) (i : ℕ) : UInt8 := p.getD i 0

/-- The bytes `strlen` counts: everything before the first NUL. -/
def cstr (p : Bytes) : Bytes := p.takeWhile (· != 0)

/-- `strlen`. -/
def strlen (p : Bytes) : ℕ := (cstr p).length

/-- `memcmp` of the first `n` bytes, by its sign. -/
def memcmp : ℕ → Bytes → Bytes → ℤ
  | 0, _, _ => 0
  | n + 1, a, b =>
    let x := readByte a 0
    let y := readByte b 0
    if x = y then memcmp n a.tail b.tail else if x < y then -1 else 1

/-- `memcpy` of `t` to offset `i`. -/
def memcpyAt (buf : Bytes) (i : ℕ) (t : Bytes) : Bytes :=
  buf.take i ++ t ++ buf.drop (i + t.length)

/-- `memcmp` returns 0 exactly when the bytes it compares are equal. -/
theorem memcmp_eq_zero_iff {n : ℕ} {a b : Bytes} (ha : n ≤ a.length) (hb : n ≤ b.length) :
    memcmp n a b = 0 ↔ a.take n = b.take n := by
  induction n generalizing a b with
  | zero => simp [memcmp]
  | succ n ih =>
    obtain ⟨x, a, rfl⟩ := List.exists_cons_of_length_pos (by omega : 0 < a.length)
    obtain ⟨y, b, rfl⟩ := List.exists_cons_of_length_pos (by omega : 0 < b.length)
    have ih := @ih a b (by simpa using ha) (by simpa using hb)
    simp only [memcmp, readByte, List.getD_cons_zero, List.tail_cons, List.take_succ_cons]
    by_cases hxy : x = y
    · simp [hxy, ih]
    · by_cases hlt : x < y <;> simp [hxy, hlt]

/-- Nothing behind a NUL is read. -/
theorem cstr_append_zero (t r : Bytes) : cstr (t ++ 0 :: r) = cstr t := by
  induction t with
  | nil => simp [cstr]
  | cons c t ih =>
    by_cases hc : c = 0
    · simp [cstr, hc]
    · simpa [cstr, hc] using ih

/-- The bytes before the first NUL hold no NUL. -/
theorem zero_not_mem_cstr (p : Bytes) : (0 : UInt8) ∉ cstr p := fun h => by
  simpa using List.mem_takeWhile_imp h

/-- A string without NUL is its own C string. -/
theorem cstr_of_zero_not_mem {t : Bytes} (h : (0 : UInt8) ∉ t) : cstr t = t := by
  apply List.takeWhile_eq_self_iff.2
  intro c hc
  simpa using ne_of_mem_of_not_mem hc h

/-- Bytes without NUL in front of a string. -/
theorem cstr_append {t : Bytes} (h : (0 : UInt8) ∉ t) (r : Bytes) : cstr (t ++ r) = t ++ cstr r := by
  apply List.takeWhile_append_of_pos
  intro c hc
  simpa using ne_of_mem_of_not_mem hc h

/-- A NUL among the first `n` bytes ends the C string before them. -/
theorem length_cstr_lt {p : Bytes} {n : ℕ} (h : (0 : UInt8) ∈ p.take n) : (cstr p).length < n := by
  by_contra hle
  have hlen : (p.take n).length ≤ (cstr p).length := (List.length_take_le n p).trans (by omega)
  have hstart : p.take n <+: cstr p :=
    List.prefix_of_prefix_length_le (List.take_prefix n p) (List.takeWhile_prefix _) hlen
  exact zero_not_mem_cstr p (hstart.subset h)

/-- `isspace` in the C locale: tab, newline, vertical tab, form feed, return and blank. -/
def isspace (c : UInt8) : Bool := (9 ≤ c && c ≤ 13) || c == 32

/-- A statement about every byte, by the 256 of them. -/
theorem forall_byte {P : UInt8 → Prop} (h : ∀ n < 256, P (UInt8.ofNat n)) (c : UInt8) : P c := by
  rw [← UInt8.ofNat_toNat (x := c)]
  exact h c.toNat c.toNat_lt

end RedisCounter
