import Mathlib.Algebra.Order.Group.Int
import Mathlib.Data.Int.Notation
import Mathlib.Data.List.Induction
import Mathlib.Data.Nat.Notation
import Mathlib.Tactic.Common
import Mathlib.Tactic.Ring

/-!
# Decimal texts

The canonical decimal text of a natural number and of an integer, as bytes, and the value of a run
of digits. The text of `n` reads back as `n`, consists of digits, and is no longer than any other
run of digits with that value.
-/

namespace Decimal

/-- The byte of one digit. -/
def digit (d : ℕ) : UInt8 := UInt8.ofNat (48 + d)

def isDigit (c : UInt8) : Bool := 48 ≤ c && c ≤ 57

def digitVal (c : UInt8) : ℕ := c.toNat - 48

/-- The digits of `n`, lowest first, at most `fuel` of them. -/
def revText : ℕ → ℕ → List UInt8
  | 0, _ => []
  | fuel + 1, n => digit (n % 10) :: if n / 10 = 0 then [] else revText fuel (n / 10)

/-- The decimal text of a natural number. -/
def natText (n : ℕ) : List UInt8 := (revText (n + 1) n).reverse

/-- The decimal text of an integer. -/
def intText (z : ℤ) : List UInt8 := if z < 0 then 45 :: natText z.natAbs else natText z.natAbs

/-- The number a run of digits stands for. -/
def natVal (ds : List UInt8) : ℕ := ds.foldl (fun n c => n * 10 + digitVal c) 0

/-- Digits, at least one, and no zero in front of others. -/
structure Numeral (ds : List UInt8) : Prop where
  ne_nil : ds ≠ []
  isDigit : ∀ c ∈ ds, isDigit c = true
  no_leading_zero : ∀ t, ds = 48 :: t → t = []

/-- The canonical text of an integer: a minus sign for negative numbers only, and a numeral. -/
def Canonical (z : ℤ) (t : List UInt8) : Prop :=
  ∃ ds, t = (if z < 0 then 45 :: ds else ds) ∧ Numeral ds ∧ natVal ds = z.natAbs

theorem toNat_digit {d : ℕ} (hd : d < 10) : (digit d).toNat = 48 + d := by
  rw [digit, UInt8.toNat_ofNat', Nat.mod_eq_of_lt (by omega)]

@[simp] theorem digitVal_digit {d : ℕ} (hd : d < 10) : digitVal (digit d) = d := by
  rw [digitVal, toNat_digit hd]
  omega

theorem isDigit_iff {c : UInt8} : isDigit c = true ↔ 48 ≤ c.toNat ∧ c.toNat ≤ 57 := by
  simp [isDigit, UInt8.le_iff_toNat_le]

theorem isDigit_digit {d : ℕ} (hd : d < 10) : isDigit (digit d) = true := by
  rw [isDigit_iff, toNat_digit hd]
  omega

/-! ## Enough fuel -/

theorem pos_of_lt_ten_pow {n k : ℕ} (h : n < 10 ^ k) (hn : n ≠ 0) : 0 < k := by
  rcases Nat.eq_zero_or_pos k with rfl | hk
  · exact absurd (Nat.lt_one_iff.1 h) hn
  · exact hk

/-- The fuel does not matter once it covers the digits. -/
theorem revText_eq {n fuel fuel' : ℕ} (h : n < 10 ^ fuel) (h' : n < 10 ^ fuel') (hpos : 0 < fuel)
    (hpos' : 0 < fuel') : revText fuel n = revText fuel' n := by
  induction fuel generalizing n fuel' with
  | zero => omega
  | succ fuel ih =>
    obtain ⟨k, rfl⟩ := Nat.exists_eq_succ_of_ne_zero hpos'.ne'
    rw [revText, revText]
    split_ifs with hn
    · rfl
    · have hdiv : n / 10 < 10 ^ fuel := by
        rw [pow_succ] at h
        omega
      have hdiv' : n / 10 < 10 ^ k := by
        rw [Nat.succ_eq_add_one, pow_succ] at h'
        omega
      -- a digit is left, so neither fuel is used up
      rw [ih hdiv hdiv' (pos_of_lt_ten_pow hdiv hn) (pos_of_lt_ten_pow hdiv' hn)]

theorem lt_ten_pow_succ (n : ℕ) : n < 10 ^ (n + 1) :=
  (Nat.lt_pow_self (by omega)).trans (Nat.pow_lt_pow_right (by omega) (Nat.lt_succ_self n))

/-- Any sufficient number of steps produces the text. -/
theorem reverse_revText {n fuel : ℕ} (h : n < 10 ^ fuel) (hpos : 0 < fuel) :
    (revText fuel n).reverse = natText n := by
  rw [natText, revText_eq h (lt_ten_pow_succ n) hpos (Nat.succ_pos n)]

/-! ## Reading a text back -/

theorem natVal_append_singleton (ds : List UInt8) (c : UInt8) :
    natVal (ds ++ [c]) = natVal ds * 10 + digitVal c := by
  rw [natVal, List.foldl_append]
  rfl

theorem natVal_reverse_revText {n fuel : ℕ} (h : n < 10 ^ fuel) :
    natVal (revText fuel n).reverse = n := by
  induction fuel generalizing n with
  | zero =>
    simp at h
    simp [revText, natVal, h]
  | succ fuel ih =>
    have hlt : n % 10 < 10 := Nat.mod_lt _ (by omega)
    rw [revText, List.reverse_cons, natVal_append_singleton, digitVal_digit hlt]
    split_ifs with hn
    · simp [natVal]
      omega
    · rw [ih (by rw [pow_succ] at h; omega)]
      omega

@[simp] theorem natVal_natText (n : ℕ) : natVal (natText n) = n :=
  natVal_reverse_revText (lt_ten_pow_succ n)

theorem natText_injective : Function.Injective natText := fun m n h => by
  rw [← natVal_natText m, h, natVal_natText]

theorem isDigit_of_mem_revText {fuel n : ℕ} {c : UInt8} (hc : c ∈ revText fuel n) :
    isDigit c = true := by
  induction fuel generalizing n with
  | zero => simp [revText] at hc
  | succ fuel ih =>
    rw [revText, List.mem_cons] at hc
    rcases hc with rfl | hc
    · exact isDigit_digit (Nat.mod_lt _ (by omega))
    · split_ifs at hc with hn
      · simp at hc
      · exact ih hc

theorem isDigit_of_mem_natText {n : ℕ} {c : UInt8} (hc : c ∈ natText n) : isDigit c = true :=
  isDigit_of_mem_revText (List.mem_reverse.1 hc)

/-- The bytes of an integer: digits, and the minus sign. -/
theorem eq_or_isDigit_of_mem_intText {z : ℤ} {c : UInt8} (hc : c ∈ intText z) :
    c = 45 ∨ isDigit c = true := by
  unfold intText at hc
  split_ifs at hc
  · exact (List.mem_cons.1 hc).imp_right isDigit_of_mem_natText
  · exact .inr (isDigit_of_mem_natText hc)

theorem not_mem_intText {c : UInt8} (hm : c ≠ 45) (hd : isDigit c = false) (z : ℤ) : c ∉ intText z := by
  intro hmem
  rcases eq_or_isDigit_of_mem_intText hmem with heq | hdigit
  · exact hm heq
  · rw [hd] at hdigit
    cases hdigit

theorem natText_ne_nil (n : ℕ) : natText n ≠ [] := by
  simp [natText, revText]

theorem intText_ne_nil (z : ℤ) : intText z ≠ [] := by
  unfold intText
  split_ifs
  · exact List.cons_ne_nil _ _
  · exact natText_ne_nil _

/-! ## Lengths -/

theorem length_revText_le {n fuel k : ℕ} (hk : 0 < k) (h : n < 10 ^ k) :
    (revText fuel n).length ≤ k := by
  induction fuel generalizing n k with
  | zero => simp [revText]
  | succ fuel ih =>
    rw [revText, List.length_cons]
    split_ifs with hn
    · exact hk
    · obtain ⟨k, rfl⟩ := Nat.exists_eq_succ_of_ne_zero hk.ne'
      rw [Nat.succ_eq_add_one, pow_succ] at h
      have hdiv : n / 10 < 10 ^ k := by omega
      have := ih (pos_of_lt_ten_pow hdiv hn) hdiv
      omega

theorem length_natText_le {n k : ℕ} (hk : 0 < k) (h : n < 10 ^ k) : (natText n).length ≤ k := by
  rw [natText, List.length_reverse]
  exact length_revText_le hk h

/-- A sign and the digits. -/
theorem length_intText_le_succ {z : ℤ} {k : ℕ} (hk : 0 < k) (h : z.natAbs < 10 ^ k) :
    (intText z).length ≤ k + 1 := by
  have hnat := length_natText_le hk h
  unfold intText
  split_ifs
  · rw [List.length_cons]
    omega
  · omega

theorem natVal_lt (ds : List UInt8) (h : ∀ c ∈ ds, isDigit c = true) :
    natVal ds < 10 ^ ds.length := by
  induction ds using List.reverseRecOn with
  | nil => simp [natVal]
  | append_singleton ds c ih =>
    have hds := ih fun x hx => h x (List.mem_append_left _ hx)
    have hc := isDigit_iff.1 (h c (by simp))
    rw [natVal_append_singleton, List.length_append, List.length_singleton, pow_succ, digitVal]
    omega

/-- No run of digits with this value is shorter than the text. -/
theorem length_natText_natVal_le {ds : List UInt8} (h : ∀ c ∈ ds, isDigit c = true) (hne : ds ≠ []) :
    (natText (natVal ds)).length ≤ ds.length :=
  length_natText_le (List.length_pos_iff.2 hne) (natVal_lt ds h)

/-- A zero in front would leave a shorter run of digits with the same value. -/
theorem numeral_natText (n : ℕ) : Numeral (natText n) := by
  refine ⟨natText_ne_nil n, fun c hc => isDigit_of_mem_natText hc, ?_⟩
  intro t ht
  by_contra hne
  have hdigits : ∀ c ∈ t, isDigit c = true := by
    intro c hc
    apply isDigit_of_mem_natText (n := n)
    rw [ht]
    exact List.mem_cons_of_mem 48 hc
  have hval : natVal t = n := by
    have hzero : natVal (48 :: t) = natVal t := rfl
    rw [← hzero, ← ht, natVal_natText]
  have hle := length_natText_natVal_le hdigits hne
  rw [hval, ht, List.length_cons] at hle
  omega

theorem canonical_intText (z : ℤ) : Canonical z (intText z) :=
  ⟨natText z.natAbs, rfl, numeral_natText _, natVal_natText _⟩

theorem length_natText_mono {m n : ℕ} (h : m ≤ n) : (natText m).length ≤ (natText n).length := by
  have hlt := natVal_lt (natText n) fun c hc => isDigit_of_mem_natText hc
  rw [natVal_natText] at hlt
  exact length_natText_le (List.length_pos_iff.2 (natText_ne_nil n)) (h.trans_lt hlt)

end Decimal
