import Mathlib.Data.Nat.Digits.Defs
import RedisCounter.Memory

/-!
# The hash function

`siphash.c` is compiled in one of two ways: where the CPU is little endian and reads words at any
address, a word of the input is one load; elsewhere it is put together from its bytes, and the hash is
taken apart into bytes and loaded again. `SipBuild` says which, and what the CPU's own load does.
`siphash` and `siphash_nocase` differ in the word they load and the byte they read at the end, and are
one definition with these two as parameters.
-/

namespace RedisCounter

/-- `UNALIGNED_LE_CPU` is defined, or it is not and the CPU is of one of the two kinds. -/
inductive SipBuild
  | unaligned
  | portable (bigEndian : Bool)
deriving DecidableEq, Repr

/-! ## The code -/

def siptlw (c : UInt8) : UInt8 := if 65 ≤ c ∧ c ≤ 90 then c + (97 - 65) else c

/-- `*((uint64_t*)(p))` -/
def loadNative (bigEndian : Bool) (p : Bytes) : UInt64 :=
  let bytes := (List.range 8).map (readByte p)
  UInt64.ofNat (Nat.ofDigits 256 ((if bigEndian then bytes.reverse else bytes).map UInt8.toNat))

/-- `U8TO64_LE` from single bytes, and `U8TO64_LE_NOCASE` for `f = siptlw`. -/
def u8to64 (f : UInt8 → UInt8) (p : Bytes) : UInt64 :=
  (f (readByte p 0)).toUInt64 ||| (f (readByte p 1)).toUInt64 <<< 8 |||
  (f (readByte p 2)).toUInt64 <<< 16 ||| (f (readByte p 3)).toUInt64 <<< 24 |||
  (f (readByte p 4)).toUInt64 <<< 32 ||| (f (readByte p 5)).toUInt64 <<< 40 |||
  (f (readByte p 6)).toUInt64 <<< 48 ||| (f (readByte p 7)).toUInt64 <<< 56

/-- `U8TO64_LE` -/
def u8to64LE : SipBuild → Bytes → UInt64
  | .unaligned => loadNative false
  | .portable _ => u8to64 id

/-- `U32TO8_LE` -/
def u32to8LE (v : UInt32) : Bytes :=
  [v.toUInt8, (v >>> 8).toUInt8, (v >>> 16).toUInt8, (v >>> 24).toUInt8]

/-- `U64TO8_LE` -/
def u64to8LE (v : UInt64) : Bytes := u32to8LE v.toUInt32 ++ u32to8LE (v >>> 32).toUInt32

/-- What is returned: `b`, or `hash` after its bytes have been written. -/
def sipReturn : SipBuild → UInt64 → UInt64
  | .unaligned, b => b
  | .portable bigEndian, b => loadNative bigEndian (u64to8LE b)

structure SipState where
  v0 : UInt64
  v1 : UInt64
  v2 : UInt64
  v3 : UInt64
deriving DecidableEq, Repr

/-- `ROTL` -/
def rotl (x b : UInt64) : UInt64 := x <<< b ||| x >>> (64 - b)

/-- `SIPROUND` -/
def sipround (s : SipState) : SipState :=
  let v0 := s.v0 + s.v1
  let v1 := rotl s.v1 13
  let v1 := v1 ^^^ v0
  let v0 := rotl v0 32
  let v2 := s.v2 + s.v3
  let v3 := rotl s.v3 16
  let v3 := v3 ^^^ v2
  let v0 := v0 + v3
  let v3 := rotl v3 21
  let v3 := v3 ^^^ v0
  let v2 := v2 + v1
  let v1 := rotl v1 17
  let v1 := v1 ^^^ v2
  let v2 := rotl v2 32
  ⟨v0, v1, v2, v3⟩

/-- `for (; in != end; in += 8)` with that many words up to `end`: `in` and the state afterwards. -/
def sipLoop (load : Bytes → UInt64) : ℕ → Bytes → SipState → Bytes × SipState
  | 0, p, s => (p, s)
  | n + 1, p, s =>
    let m := load p
    let s := sipround { s with v3 := s.v3 ^^^ m }
    sipLoop load n (p.drop 8) { s with v0 := s.v0 ^^^ m }

/-- `switch (left)`: each case falls through to the next lower one. -/
def sipTail (f : UInt8 → UInt8) (p : Bytes) : ℕ → UInt64 → UInt64
  | 0, b => b
  | j + 1, b => sipTail f p j (b ||| (f (readByte p j)).toUInt64 <<< UInt64.ofNat (8 * j))

/-- Either function: with its load of a word of the input and its reading of a byte. -/
def siphashWith (build : SipBuild) (load : Bytes → UInt64) (f : UInt8 → UInt8) (p : Bytes) (inlen : ℕ)
    (k : Bytes) : UInt64 :=
  let k0 := u8to64LE build k
  let k1 := u8to64LE build (k.drop 8)
  let left := inlen % 8
  let b := UInt64.ofNat inlen <<< 56
  let s : SipState :=
    { v3 := 0x7465646279746573 ^^^ k1
      v2 := 0x6c7967656e657261 ^^^ k0
      v1 := 0x646f72616e646f6d ^^^ k1
      v0 := 0x736f6d6570736575 ^^^ k0 }
  let (p, s) := sipLoop load (inlen / 8) p s
  let b := sipTail f p left b
  let s := sipround { s with v3 := s.v3 ^^^ b }
  let s := { s with v0 := s.v0 ^^^ b, v2 := s.v2 ^^^ 0xff }
  let s := sipround (sipround s)
  sipReturn build (s.v0 ^^^ s.v1 ^^^ s.v2 ^^^ s.v3)

def siphash (build : SipBuild) : Bytes → ℕ → Bytes → UInt64 := siphashWith build (u8to64LE build) id

def siphashNocase (build : SipBuild) : Bytes → ℕ → Bytes → UInt64 :=
  siphashWith build (u8to64 siptlw) siptlw

/-! ## Words and bytes -/

/-- Shifts and ors of what does not overlap add up. -/
theorem or_shiftLeft {a k : ℕ} (h : a < 2 ^ k) (b : ℕ) : a ||| b <<< k = a + b * 2 ^ k := by
  rw [Nat.or_comm, ← Nat.shiftLeft_add_eq_or_of_lt h, Nat.shiftLeft_eq, Nat.add_comm]

theorem toNat_shiftByte (c : UInt8) {k : UInt64} (hk : k.toNat ≤ 56) :
    (c.toUInt64 <<< k).toNat = c.toNat <<< k.toNat := by
  have hlt : c.toNat <<< k.toNat < 2 ^ 64 := by
    rw [Nat.shiftLeft_eq]
    calc c.toNat * 2 ^ k.toNat < 2 ^ 8 * 2 ^ 56 :=
          Nat.mul_lt_mul_of_lt_of_le c.toNat_lt (Nat.pow_le_pow_right (by decide) hk) (by decide)
      _ = 2 ^ 64 := by decide
  rw [UInt64.toNat_shiftLeft, UInt8.toNat_toUInt64, Nat.mod_eq_of_lt (by omega : k.toNat < 64),
    Nat.mod_eq_of_lt hlt]

theorem or_bytes (b0 b1 b2 b3 b4 b5 b6 b7 : UInt8) :
    (b0.toUInt64 ||| b1.toUInt64 <<< 8 ||| b2.toUInt64 <<< 16 ||| b3.toUInt64 <<< 24 |||
      b4.toUInt64 <<< 32 ||| b5.toUInt64 <<< 40 ||| b6.toUInt64 <<< 48 ||| b7.toUInt64 <<< 56).toNat
      = Nat.ofDigits 256 ([b0, b1, b2, b3, b4, b5, b6, b7].map UInt8.toNat) := by
  have h0 := b0.toNat_lt
  have h1 := b1.toNat_lt
  have h2 := b2.toNat_lt
  have h3 := b3.toNat_lt
  have h4 := b4.toNat_lt
  have h5 := b5.toNat_lt
  have h6 := b6.toNat_lt
  simp only [UInt64.toNat_or, UInt8.toNat_toUInt64]
  rw [toNat_shiftByte b1 (k := 8) (by decide), toNat_shiftByte b2 (k := 16) (by decide),
    toNat_shiftByte b3 (k := 24) (by decide), toNat_shiftByte b4 (k := 32) (by decide),
    toNat_shiftByte b5 (k := 40) (by decide), toNat_shiftByte b6 (k := 48) (by decide),
    toNat_shiftByte b7 (k := 56) (by decide)]
  simp only [UInt64.reduceToNat]
  rw [or_shiftLeft (k := 8) (by omega), or_shiftLeft (k := 16) (by omega),
    or_shiftLeft (k := 24) (by omega), or_shiftLeft (k := 32) (by omega),
    or_shiftLeft (k := 40) (by omega), or_shiftLeft (k := 48) (by omega),
    or_shiftLeft (k := 56) (by omega)]
  simp only [List.map_cons, List.map_nil, Nat.ofDigits_cons, Nat.ofDigits_nil]
  omega

/-- The word put together from bytes is the one a little-endian CPU loads. -/
theorem u8to64_id (p : Bytes) : u8to64 id p = loadNative false p := by
  have hlist : (List.range 8).map (readByte p) = [readByte p 0, readByte p 1, readByte p 2, readByte p 3,
      readByte p 4, readByte p 5, readByte p 6, readByte p 7] := rfl
  have hor := or_bytes (readByte p 0) (readByte p 1) (readByte p 2) (readByte p 3) (readByte p 4)
    (readByte p 5) (readByte p 6) (readByte p 7)
  rw [loadNative, hlist, if_neg Bool.false_ne_true, ← hor, UInt64.ofNat_toNat]
  rfl

/-- A word that is written byte by byte and loaded again. -/
theorem loadNative_u64to8LE (v : UInt64) : loadNative false (u64to8LE v) = v := by
  have hv := v.toNat_lt
  have hbytes : ((List.range 8).map (readByte (u64to8LE v))).map UInt8.toNat
      = [v.toNat % 256, v.toNat / 2 ^ 8 % 256, v.toNat / 2 ^ 16 % 256, v.toNat / 2 ^ 24 % 256,
        v.toNat / 2 ^ 32 % 256, v.toNat / 2 ^ 40 % 256, v.toNat / 2 ^ 48 % 256,
        v.toNat / 2 ^ 56 % 256] := by
    change [v.toUInt32.toUInt8.toNat, (v.toUInt32 >>> 8).toUInt8.toNat, (v.toUInt32 >>> 16).toUInt8.toNat,
      (v.toUInt32 >>> 24).toUInt8.toNat, (v >>> 32).toUInt32.toUInt8.toNat,
      ((v >>> 32).toUInt32 >>> 8).toUInt8.toNat, ((v >>> 32).toUInt32 >>> 16).toUInt8.toNat,
      ((v >>> 32).toUInt32 >>> 24).toUInt8.toNat] = _
    simp only [UInt32.toNat_toUInt8, UInt64.toNat_toUInt32, UInt32.toNat_shiftRight,
      UInt64.toNat_shiftRight, UInt32.reduceToNat, UInt64.reduceToNat, Nat.shiftRight_eq_div_pow,
      Nat.reduceMod, List.cons.injEq, and_true]
    refine ⟨?_, ?_, ?_, ?_, ?_, ?_, ?_, ?_⟩ <;> omega
  apply UInt64.toNat_inj.1
  rw [loadNative, if_neg Bool.false_ne_true, hbytes, UInt64.toNat_ofNat']
  simp only [Nat.ofDigits_cons, Nat.ofDigits_nil]
  omega

/-- Both builds read the same word. -/
theorem u8to64LE_eq (build : SipBuild) : u8to64LE build = u8to64 id := by
  cases build with
  | unaligned => exact (funext u8to64_id).symm
  | portable bigEndian => rfl

/-! ## What is read -/

/-- The first `n` bytes, read with `f` here and with `g` there, are the same. -/
def SameReads (n : ℕ) (f : UInt8 → UInt8) (p : Bytes) (g : UInt8 → UInt8) (q : Bytes) : Prop :=
  ∀ i < n, f (readByte p i) = g (readByte q i)

variable {n : ℕ} {f g : UInt8 → UInt8} {p q : Bytes}

theorem readByte_drop (p : Bytes) (k i : ℕ) : readByte (p.drop k) i = readByte p (k + i) := by
  rw [readByte, readByte, List.getD_eq_getElem?_getD, List.getD_eq_getElem?_getD, List.getElem?_drop]

theorem SameReads.mono {k : ℕ} (h : SameReads n f p g q) (hle : k ≤ n) : SameReads k f p g q :=
  fun i hi => h i (by omega)

theorem SameReads.drop {k : ℕ} (h : SameReads (k + n) f p g q) :
    SameReads n f (p.drop k) g (q.drop k) := by
  intro i hi
  rw [readByte_drop, readByte_drop]
  exact h (k + i) (by omega)

theorem SameReads.u8to64_eq (h : SameReads 8 f p g q) : u8to64 f p = u8to64 g q := by
  simp only [u8to64, h 0 (by decide), h 1 (by decide), h 2 (by decide), h 3 (by decide),
    h 4 (by decide), h 5 (by decide), h 6 (by decide), h 7 (by decide)]

/-- The loop reads whole words, and stops in front of the rest. -/
theorem SameReads.sipLoop_eq {b : ℕ} (h : SameReads (8 * b + n) f p g q) (s : SipState) :
    ∃ p' q' s', sipLoop (u8to64 f) b p s = (p', s') ∧ sipLoop (u8to64 g) b q s = (q', s') ∧
      SameReads n f p' g q' := by
  induction b generalizing p q s with
  | zero => exact ⟨p, q, s, rfl, rfl, h.mono (by omega)⟩
  | succ b ih =>
    have hrest : SameReads (8 * b + n) f (p.drop 8) g (q.drop 8) :=
      SameReads.drop (h.mono (by omega))
    rw [sipLoop, sipLoop, (h.mono (by omega)).u8to64_eq]
    exact ih hrest _

theorem SameReads.sipTail_eq (h : SameReads n f p g q) (b : UInt64) :
    sipTail f p n b = sipTail g q n b := by
  induction n generalizing b with
  | zero => rfl
  | succ n ih =>
    rw [sipTail, sipTail, h n (Nat.lt_succ_self n)]
    exact ih (h.mono (Nat.le_succ n)) _

/-- The hash depends on `inlen` bytes of the input and on 16 bytes of the key. -/
theorem siphashWith_congr (build : SipBuild) {inlen : ℕ} {k k' : Bytes} (hp : SameReads inlen f p g q)
    (hk : SameReads 16 id k id k') :
    siphashWith build (u8to64 f) f p inlen k = siphashWith build (u8to64 g) g q inlen k' := by
  have hk0 : u8to64LE build k = u8to64LE build k' := by
    rw [u8to64LE_eq]
    exact (hk.mono (by decide)).u8to64_eq
  have hk1 : u8to64LE build (k.drop 8) = u8to64LE build (k'.drop 8) := by
    rw [u8to64LE_eq]
    exact (SameReads.drop hk).u8to64_eq
  have hwords : SameReads (8 * (inlen / 8) + inlen % 8) f p g q := hp.mono (by omega)
  rw [siphashWith, siphashWith, hk0, hk1]
  obtain ⟨p', q', s', hpeq, hqeq, htail⟩ := hwords.sipLoop_eq
    ⟨0x736f6d6570736575 ^^^ u8to64LE build k', 0x646f72616e646f6d ^^^ u8to64LE build (k'.drop 8),
      0x6c7967656e657261 ^^^ u8to64LE build k', 0x7465646279746573 ^^^ u8to64LE build (k'.drop 8)⟩
  simp only [hpeq, hqeq, htail.sipTail_eq]

/-! ## The hash functions -/

/-- Nothing behind the `inlen` bytes of the input and the 16 bytes of the key is read. -/
theorem siphash_take (build : SipBuild) (p : Bytes) (inlen : ℕ) (k : Bytes) :
    siphash build p inlen k = siphash build (p.take inlen) inlen (k.take 16) := by
  have htake : ∀ (p : Bytes) (n : ℕ), SameReads n id p id (p.take n) := by
    intro p n i hi
    rw [id, id, readByte, readByte, List.getD_eq_getElem?_getD, List.getD_eq_getElem?_getD,
      List.getElem?_take_of_lt hi]
  rw [siphash, u8to64LE_eq]
  exact siphashWith_congr build (htake p inlen) (htake k 16)

/-- On a little-endian CPU the two builds compute the same hashes. -/
theorem siphash_portable (p : Bytes) (inlen : ℕ) (k : Bytes) :
    siphash (.portable false) p inlen k = siphash .unaligned p inlen k ∧
      siphashNocase (.portable false) p inlen k = siphashNocase .unaligned p inlen k := by
  have hreturn : ∀ load f, siphashWith (.portable false) load f p inlen k
      = siphashWith .unaligned load f p inlen k := by
    intro load f
    rw [siphashWith, siphashWith, u8to64LE_eq, u8to64LE_eq]
    exact loadNative_u64to8LE _
  refine ⟨?_, hreturn _ _⟩
  rw [siphash, siphash, u8to64LE_eq, u8to64LE_eq]
  exact hreturn _ _

/-- Hashing without regard to case is hashing the text with its letters `A` to `Z` in lower case. -/
theorem siphashNocase_eq (build : SipBuild) (p : Bytes) (inlen : ℕ) (k : Bytes) :
    siphashNocase build p inlen k
      = siphash build (p.map fun c => if 65 ≤ c ∧ c ≤ 90 then c + 32 else c) inlen k := by
  have hlower : ∀ c, siptlw c = if 65 ≤ c ∧ c ≤ 90 then c + 32 else c := by
    apply forall_byte
    decide +kernel
  have hreads : SameReads inlen siptlw p id
      (p.map fun c => if 65 ≤ c ∧ c ≤ 90 then c + 32 else c) := by
    intro i _
    rw [readByte, readByte, List.getD_eq_getElem?_getD, List.getD_eq_getElem?_getD, List.getElem?_map,
      hlower]
    cases p[i]? with
    | none => rfl
    | some c => rfl
  rw [siphash, u8to64LE_eq]
  exact siphashWith_congr build hreads fun _ _ => rfl

end RedisCounter
