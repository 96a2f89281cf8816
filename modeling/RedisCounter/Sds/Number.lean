import Mathlib.Data.List.Basic
import RedisCounter.Lib.Decimal
import RedisCounter.Sds.Basic

/-!
# Counters as text

`sdsll2str` and `sdsull2str` write the digits lowest first and then reverse them in place; `atol`
is the C library's, base-10 `strtol`: blanks, a sign, digits, saturating at the ends of `long`.
`long` and `long long` have 64 bits and wrap.
-/

namespace RedisCounter

open Decimal

def LONG_MAX : ℤ := 2 ^ 63 - 1
def LONG_MIN : ℤ := -2 ^ 63

/-- A 64-bit signed result. -/
def wrapLong (z : ℤ) : ℤ := z.bmod (2 ^ 64)

/-- The `do … while(v)` loop; a 64-bit value ends it within 20 passes. -/
def sdsDigits : ℕ → ℕ → Bytes
  | 0, _ => []
  | fuel + 1, v => UInt8.ofNat (48 + v % 10) :: if v / 10 = 0 then [] else sdsDigits fuel (v / 10)

/-- The loop that swaps the bytes at `s` and `p` and moves both inwards. -/
def sdsReverse : ℕ → ℕ → ℕ → Bytes → Bytes
  | 0, _, _, buf => buf
  | fuel + 1, s, p, buf =>
    if s < p then
      let aux := readByte buf s
      sdsReverse fuel (s + 1) (p - 1) ((buf.set s (readByte buf p)).set p aux)
    else buf

/-- The bytes at `s` after the digits `ds` and their NUL are written to it and reversed, with the
length. -/
def sdsWriteReversed (s ds : Bytes) : Bytes × ℕ :=
  (sdsReverse ds.length 0 (ds.length - 1) (memcpyAt s 0 (ds ++ [0])), ds.length)

/-- `sdsll2str(s, value)`: the bytes at `s`, and the length returned. The code negates in a signed
type, which wraps, and stores into an unsigned one. -/
def sdsll2str (s : Bytes) (value : ℤ) : Bytes × ℕ :=
  let v := ((if value < 0 then -value else value) % 2 ^ 64).toNat
  sdsWriteReversed s (sdsDigits 20 v ++ if value < 0 then [45] else [])

/-- `sdsull2str(s, v)`. -/
def sdsull2str (s : Bytes) (v : ℕ) : Bytes × ℕ := sdsWriteReversed s (sdsDigits 20 v)

/-- `atol`. -/
def atol (p : Bytes) : ℤ :=
  match p.dropWhile isspace with
  | 45 :: q => max LONG_MIN (-(natVal (q.takeWhile isDigit)))
  | 43 :: q => min LONG_MAX (natVal (q.takeWhile isDigit))
  | q => min LONG_MAX (natVal (q.takeWhile isDigit))

/-! ## The digits -/

theorem sdsDigits_eq (fuel v : ℕ) : sdsDigits fuel v = revText fuel v := by
  induction fuel generalizing v with
  | zero => rfl
  | succ fuel ih =>
    rw [sdsDigits, revText, ih]
    rfl

theorem reverse_sdsDigits {v : ℕ} (hv : v < 2 ^ 64) : (sdsDigits 20 v).reverse = natText v := by
  rw [sdsDigits_eq]
  exact reverse_revText (hv.trans (by decide)) (by omega)

/-! ## Reversing in place -/

theorem reverse_of_length_le_one {m : Bytes} (h : m.length ≤ 1) : m.reverse = m := by
  rcases m with _ | ⟨x, m⟩
  · rfl
  · rw [List.length_cons] at h
    obtain rfl : m = [] := List.length_eq_zero_iff.1 (by omega)
    rfl

/-- The pointers close in on the middle part and leave it reversed. -/
theorem sdsReverse_append (fuel : ℕ) (a m b : Bytes) (h : m.length ≤ 2 * fuel + 1) :
    sdsReverse fuel a.length (a.length + m.length - 1) (a ++ m ++ b) = a ++ m.reverse ++ b := by
  induction fuel generalizing a m b with
  | zero => rw [sdsReverse, reverse_of_length_le_one h]
  | succ fuel ih =>
    rw [sdsReverse]
    split_ifs with hlt
    · -- at least two bytes are left: they are `x` and `y` with the rest between them
      obtain ⟨x, m, rfl⟩ := List.exists_cons_of_length_pos (l := m) (by omega)
      have hne : m ≠ [] := by
        rintro rfl
        simp at hlt
      obtain ⟨m, y, rfl⟩ := (List.eq_nil_or_concat' m).resolve_left hne
      have hp : a.length + (x :: (m ++ [y])).length - 1 = a.length + (m.length + 1) := by
        simp
      have hx : readByte (a ++ (x :: (m ++ [y])) ++ b) a.length = x := by
        simp [readByte]
      have hy : readByte (a ++ (x :: (m ++ [y])) ++ b) (a.length + (m.length + 1)) = y := by
        simp [readByte, List.getD_eq_getElem?_getD]
      have hset : ((a ++ (x :: (m ++ [y])) ++ b).set a.length y).set (a.length + (m.length + 1)) x
          = (a ++ [y]) ++ m ++ (x :: b) := by
        simp
      have hlen := ih (a ++ [y]) m (x :: b) (by simp at h; omega)
      rw [hp, hx, hy]
      dsimp only
      rw [hset]
      have hidx : sdsReverse fuel (a.length + 1) (a.length + (m.length + 1) - 1)
          = sdsReverse fuel (a ++ [y]).length ((a ++ [y]).length + m.length - 1) := by
        rw [List.length_append, List.length_singleton]
        congr 1
        omega
      rw [hidx, hlen]
      simp
    · rw [reverse_of_length_le_one (m := m) (by omega)]

/-- The digits end up highest first, with the NUL behind them. -/
theorem sdsWriteReversed_spec (s ds : Bytes) :
    sdsWriteReversed s ds = (ds.reverse ++ 0 :: s.drop (ds.length + 1), ds.length) := by
  have hrev := sdsReverse_append ds.length [] ds (0 :: s.drop (ds.length + 1)) (by omega)
  rw [sdsWriteReversed]
  simpa [memcpyAt] using hrev

/-- `sdsull2str` writes the decimal text. -/
theorem sdsull2str_spec (s : Bytes) {v : ℕ} (hv : v < 2 ^ 64) :
    sdsull2str s v = (natText v ++ 0 :: s.drop ((natText v).length + 1), (natText v).length) := by
  have hlen : (sdsDigits 20 v).length = (natText v).length := by
    rw [← reverse_sdsDigits hv, List.length_reverse]
  rw [sdsull2str, sdsWriteReversed_spec, reverse_sdsDigits hv, hlen]

/-- `sdsll2str` writes the decimal text of every 64-bit value, the least one included. -/
theorem sdsll2str_spec (s : Bytes) {value : ℤ} (hmin : LONG_MIN ≤ value) (hmax : value ≤ LONG_MAX) :
    sdsll2str s value
      = (intText value ++ 0 :: s.drop ((intText value).length + 1), (intText value).length) := by
  unfold LONG_MIN at hmin
  unfold LONG_MAX at hmax
  -- the least value negates to 2 ^ 63, which the unsigned type holds
  have hv : ((if value < 0 then -value else value) % 2 ^ 64).toNat = value.natAbs := by
    split_ifs <;> omega
  have habs : value.natAbs < 2 ^ 64 := by omega
  have hrev : (sdsDigits 20 value.natAbs ++ if value < 0 then [45] else []).reverse
      = intText value := by
    rw [List.reverse_append, reverse_sdsDigits habs, intText]
    split_ifs <;> rfl
  have hlen : (sdsDigits 20 value.natAbs ++ if value < 0 then [45] else []).length
      = (intText value).length := by
    rw [← hrev, List.length_reverse]
  rw [sdsll2str, hv, sdsWriteReversed_spec, hrev, hlen]

/-! ## The text of a counter -/

theorem zero_not_mem_intText (z : ℤ) : (0 : UInt8) ∉ intText z := not_mem_intText (by decide) rfl z

theorem cstr_intText_append (z : ℤ) (r : Bytes) : cstr (intText z ++ 0 :: r) = intText z := by
  rw [cstr_append_zero, cstr_of_zero_not_mem (zero_not_mem_intText z)]

/-- A counter has 19 digits at most, and perhaps a sign. -/
theorem length_intText_le {z : ℤ} (hmin : LONG_MIN ≤ z) (hmax : z ≤ LONG_MAX) :
    (intText z).length ≤ 20 := by
  unfold LONG_MIN at hmin
  unfold LONG_MAX at hmax
  exact length_intText_le_succ (k := 19) (by decide) (by omega)

theorem LONG_MIN_le_wrapLong (z : ℤ) : LONG_MIN ≤ wrapLong z := by
  have := Int.le_bmod (x := z) (m := 2 ^ 64) (by decide)
  unfold LONG_MIN wrapLong
  omega

theorem wrapLong_le_LONG_MAX (z : ℤ) : wrapLong z ≤ LONG_MAX := by
  have := Int.bmod_lt (x := z) (m := 2 ^ 64) (by decide)
  unfold LONG_MAX wrapLong
  omega

/-! ## Reading counters -/

theorem isspace_of_isDigit {c : UInt8} (h : isDigit c = true) : isspace c = false := by
  rw [isDigit_iff] at h
  simp [isspace, UInt8.le_iff_toNat_le, ← UInt8.toNat_inj]
  omega

/-- `atol` of a text without a sign. -/
theorem atol_unsigned {p q : Bytes} {c : UInt8} (hp : p.dropWhile isspace = c :: q) (hminus : c ≠ 45)
    (hplus : c ≠ 43) : atol p = min LONG_MAX (natVal ((c :: q).takeWhile isDigit)) := by
  unfold atol
  rw [hp]
  split
  · rename_i heq
    exact absurd (List.cons.inj heq).1 hminus
  · rename_i heq
    exact absurd (List.cons.inj heq).1 hplus
  · rfl

/-- `atol` of a run of digits: its value, or the greatest `long` if that is less. -/
theorem atol_digits {ds : Bytes} (hne : ds ≠ []) (hdigits : ∀ c ∈ ds, isDigit c = true) :
    atol ds = min LONG_MAX (natVal ds) := by
  obtain ⟨c, t, ht⟩ := List.exists_cons_of_ne_nil hne
  have hc : isDigit c = true := hdigits c (by simp [ht])
  have hdrop : ds.dropWhile isspace = ds := by
    rw [ht, List.dropWhile_cons_of_neg (by simp [isspace_of_isDigit hc])]
  have htake : ds.takeWhile isDigit = ds := List.takeWhile_eq_self_iff.2 hdigits
  -- a digit is no sign
  have hminus : c ≠ 45 := by
    rintro rfl
    exact absurd hc (by decide)
  have hplus : c ≠ 43 := by
    rintro rfl
    exact absurd hc (by decide)
  rw [ht] at hdrop htake ⊢
  rw [atol_unsigned hdrop hminus hplus, htake]

/-- `atol` of a minus sign and a run of digits. -/
theorem atol_neg_digits {ds : Bytes} (hdigits : ∀ c ∈ ds, isDigit c = true) :
    atol (45 :: ds) = max LONG_MIN (-(natVal ds)) := by
  have htake : ds.takeWhile isDigit = ds := List.takeWhile_eq_self_iff.2 hdigits
  show max LONG_MIN (-(natVal (ds.takeWhile isDigit) : ℤ)) = max LONG_MIN (-(natVal ds))
  rw [htake]

/-- `atol` reads back the text of every `long`. -/
theorem atol_intText {z : ℤ} (hmin : LONG_MIN ≤ z) (hmax : z ≤ LONG_MAX) : atol (intText z) = z := by
  have hdigits : ∀ c ∈ natText z.natAbs, isDigit c = true := fun c hc => isDigit_of_mem_natText hc
  unfold intText
  split_ifs with hz
  · rw [atol_neg_digits hdigits, natVal_natText]
    omega
  · rw [atol_digits (natText_ne_nil _) hdigits, natVal_natText]
    omega

/-- What stands behind the NUL of a text does not matter to `atol`. -/
theorem atol_append_zero (t r : Bytes) : atol (t ++ 0 :: r) = atol t := by
  have hdrop : (t ++ 0 :: r).dropWhile isspace = t.dropWhile isspace ++ 0 :: r := by
    rw [List.dropWhile_append]
    split_ifs with hnil
    · rw [List.isEmpty_iff.1 hnil]
      rfl
    · rfl
  -- the digits end in front of the NUL
  have htake : ∀ q : Bytes, (q ++ 0 :: r).takeWhile isDigit = q.takeWhile isDigit := by
    intro q
    have hnul : (0 :: r).takeWhile isDigit = [] := rfl
    rw [List.takeWhile_append, hnul, List.append_nil]
    split_ifs with hall
    · exact ((List.takeWhile_prefix _).eq_of_length hall).symm
    · rfl
  rcases ht : t.dropWhile isspace with _ | ⟨c, q⟩
  · rw [ht] at hdrop
    rw [atol, atol, hdrop, ht]
    rfl
  rw [ht, List.cons_append] at hdrop
  by_cases hminus : c = 45
  · subst hminus
    simp only [atol, hdrop, ht, htake]
  by_cases hplus : c = 43
  · subst hplus
    simp only [atol, hdrop, ht, htake]
  · rw [atol_unsigned hdrop hminus hplus, atol_unsigned ht hminus hplus, ← List.cons_append, htake]

end RedisCounter
