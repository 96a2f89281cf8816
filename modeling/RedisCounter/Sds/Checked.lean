import RedisCounter.Sds.SplitArgs

/-!
# The tokenizer, with its reads checked

The scan looks up to three bytes ahead and moves by up to four. Here every byte is read through `peek`
and every move made through `advance`, which refuse to go past the first NUL, and the comparisons are
made in the order of the source, each only when those before it hold. Running out of fuel is no error
of the line either. Nothing of the kind happens: the checked loops return what the loops return.
-/

namespace RedisCounter

/-! ## Reading and moving -/

/-- `*(p+i)`, if no NUL stands in front of it. -/
def peek (p : Bytes) (i : ℕ) : Option UInt8 := if i ≤ strlen p then some (readByte p i) else none

/-- `p += k`, as far as the NUL. -/
def advance (p : Bytes) (k : ℕ) : Option Bytes := if k ≤ strlen p then some (p.drop k) else none

/-- A comparison of `*(p+i)`. -/
def test (p : Bytes) (i : ℕ) (f : UInt8 → Bool) : Option Bool := (peek p i).map f

/-- `a && b`: the right side is not looked at when the left is false. -/
def andThen (a b : Option Bool) : Option Bool := a.bind fun x => if x then b else some false

/-! ## The scanner -/

/-- The test behind a closing quote. -/
def checkedClose (p : Bytes) : Option TokenStep := do
  if ← andThen (test p 1 (· != 0)) (test p 1 (!isspace ·)) then some .err
  else some (.done (← advance p 1))

/-- One turn of `while(!done)`, as `tokenStep`. -/
def checkedStep : QuoteMode → Bytes → Option TokenStep
  | .inq, p => do
    if ← andThen (test p 0 (· == bslash)) (andThen (test p 1 (· == 120))
        (andThen (test p 2 isHexDigit) (test p 3 isHexDigit))) then
      some (.emit (hexDigitToInt (← peek p 2) * 16 + hexDigitToInt (← peek p 3)) (← advance p 4))
    else if ← andThen (test p 0 (· == bslash)) (test p 1 (· != 0)) then
      some (.emit (unescape (← peek p 1)) (← advance p 2))
    else if ← test p 0 (· == dquote) then checkedClose p
    else if ← test p 0 (· == 0) then some .err
    else some (.emit (← peek p 0) (← advance p 1))
  | .insq, p => do
    if ← andThen (test p 0 (· == bslash)) (test p 1 (· == squote)) then
      some (.emit squote (← advance p 2))
    else if ← test p 0 (· == squote) then checkedClose p
    else if ← test p 0 (· == 0) then some .err
    else some (.emit (← peek p 0) (← advance p 1))
  | .plain, p => do
    let c ← peek p 0
    if c = 0 then some (.done p)
    else if c = 32 ∨ c = lf ∨ c = cr ∨ c = 9 then some (.done (← advance p 1))
    else if c = dquote then some (.enter .inq (← advance p 1))
    else if c = squote then some (.enter .insq (← advance p 1))
    else some (.emit c (← advance p 1))

/-- The loop over one token. -/
def checkedToken : ℕ → QuoteMode → Sds → Bytes → Option (Option (Sds × Bytes))
  | 0, _, _, _ => none
  | fuel + 1, m, current, p => do
    match ← checkedStep m p with
    | .emit c p' => checkedToken fuel m (sdscatlen current [c]) p'
    | .enter m' p' => checkedToken fuel m' current p'
    | .done p' => some (some (current, p'))
    | .err => some none

/-- `while(*p && isspace(*p)) p++`. -/
def checkedBlanks : ℕ → Bytes → Option Bytes
  | 0, _ => none
  | fuel + 1, p => do
    if ← andThen (test p 0 (· != 0)) (test p 0 isspace) then checkedBlanks fuel (← advance p 1)
    else some p

/-- The loop over the tokens of a line; the inner `none` is `NULL`. -/
def checkedSplit : ℕ → Bytes → Option (Option (List Sds))
  | 0, _ => none
  | fuel + 1, p => do
    let p ← checkedBlanks (p.length + 1) p
    if (← peek p 0) = 0 then some (some [])
    else
      match ← checkedToken (p.length + 1) .plain sdsempty p with
      | none => some none
      | some (current, p') => (checkedSplit fuel p').map (Option.map (current :: ·))

/-! ## No check fails -/

section Checks

variable {p : Bytes}

theorem readByte_strlen (p : Bytes) : readByte p (strlen p) = 0 := by
  induction p with
  | nil => rfl
  | cons c p ih =>
    by_cases hc : c = 0
    · simp [strlen, cstr, hc, readByte]
    · have hlen : strlen (c :: p) = strlen p + 1 := by
        simp [strlen, cstr, hc]
      rw [hlen]
      exact ih

/-- Behind a byte that is not the NUL another can be read. -/
theorem succ_le_strlen {i : ℕ} (hi : i ≤ strlen p) (h : readByte p i ≠ 0) : i + 1 ≤ strlen p := by
  have hne : i ≠ strlen p := by
    rintro rfl
    exact h (readByte_strlen p)
  omega

theorem peek_eq {i : ℕ} (h : i ≤ strlen p) : peek p i = some (readByte p i) := if_pos h

theorem advance_eq {k : ℕ} (h : k ≤ strlen p) : advance p k = some (p.drop k) := if_pos h

theorem test_eq {i : ℕ} (h : i ≤ strlen p) (f : UInt8 → Bool) :
    test p i f = some (f (readByte p i)) := by
  rw [test, peek_eq h, Option.map_some]

/-- The right side has to be readable where the left holds. -/
theorem andThen_eq {a b : Option Bool} {x y : Bool} (ha : a = some x)
    (hb : x = true → b = some y) : andThen a b = some (x && y) := by
  rw [andThen, ha, Option.bind_some]
  cases x with
  | false => rfl
  | true => rw [if_pos rfl, hb rfl, Bool.true_and]

/-- At a closing quote. -/
theorem checkedClose_eq (h : readByte p 0 ≠ 0) : checkedClose p = some (closeQuote p) := by
  have h1 := succ_le_strlen (Nat.zero_le _) h
  have hcond := andThen_eq (test_eq h1 (· != 0)) fun _ => test_eq h1 (!isspace ·)
  rw [checkedClose, hcond, advance_eq h1, closeQuote]
  simp only [Option.bind_eq_bind, Option.bind_some, Bool.and_eq_true, bne_iff_ne,
    Bool.not_eq_true', ne_eq]
  split_ifs <;> rfl

/-- A comparison of the byte at `p` with one that is not the NUL, and of the byte behind it. -/
theorem andThen_test_eq {c : UInt8} (hc : c ≠ 0) {f : UInt8 → Bool} :
    andThen (test p 0 (· == c)) (test p 1 f) = some (readByte p 0 == c && f (readByte p 1)) := by
  apply andThen_eq (test_eq (Nat.zero_le _) _)
  intro h0
  have hne : readByte p 0 ≠ 0 := by
    rw [beq_iff_eq.1 h0]
    exact hc
  exact test_eq (succ_le_strlen (Nat.zero_le _) hne) f

theorem ne_zero_of_isHexDigit {c : UInt8} (h : isHexDigit c = true) : c ≠ 0 := by
  rintro rfl
  exact absurd h (by decide)

/-- `\xHH`: each digit is looked at when the bytes in front of it are those of the escape. -/
theorem hexTest_eq :
    andThen (test p 0 (· == bslash)) (andThen (test p 1 (· == 120))
        (andThen (test p 2 isHexDigit) (test p 3 isHexDigit)))
      = some (readByte p 0 == bslash && (readByte p 1 == 120 &&
        (isHexDigit (readByte p 2) && isHexDigit (readByte p 3)))) := by
  apply andThen_eq (test_eq (Nat.zero_le _) _)
  intro h0
  have h1 : 1 ≤ strlen p := by
    apply succ_le_strlen (Nat.zero_le _)
    rw [beq_iff_eq.1 h0]
    decide
  apply andThen_eq (test_eq h1 _)
  intro hx
  have h2 : 2 ≤ strlen p := by
    apply succ_le_strlen h1
    rw [beq_iff_eq.1 hx]
    decide
  apply andThen_eq (test_eq h2 _)
  intro hd
  exact test_eq (succ_le_strlen h2 (ne_zero_of_isHexDigit hd)) _

theorem two_le_strlen (h0 : readByte p 0 ≠ 0) (h1 : readByte p 1 ≠ 0) : 2 ≤ strlen p :=
  succ_le_strlen (succ_le_strlen (Nat.zero_le _) h0) h1

/-- A turn reads and moves no further than the first NUL. -/
theorem checkedStep_eq (m : QuoteMode) (p : Bytes) : checkedStep m p = some (tokenStep m p) := by
  have hone : readByte p 0 ≠ 0 → advance p 1 = some (p.drop 1) := fun h =>
    advance_eq (succ_le_strlen (Nat.zero_le _) h)
  have hz := peek_eq (p := p) (Nat.zero_le _)
  cases m with
  | plain =>
    simp only [checkedStep, tokenStep, hz, Option.bind_eq_bind, Option.bind_some]
    split_ifs with h0 hb hd hs
    · rfl
    · rw [hone h0, Option.bind_some]
    · rw [hone h0, Option.bind_some]
    · rw [hone h0, Option.bind_some]
    · rw [hone h0, Option.bind_some]
  | insq =>
    have hesc : andThen (test p 0 (· == bslash)) (test p 1 (· == squote))
        = some (readByte p 0 == bslash && readByte p 1 == squote) := andThen_test_eq (by decide)
    simp only [checkedStep, tokenStep, hesc]
    simp only [test_eq (Nat.zero_le (strlen p)), hz, Option.bind_eq_bind, Option.bind_some,
      Bool.and_eq_true, beq_iff_eq]
    split_ifs with he hq h0
    · have h2 : 2 ≤ strlen p := two_le_strlen (ne_of_eq_of_ne he.1 (by decide))
        (ne_of_eq_of_ne he.2 (by decide))
      rw [advance_eq h2, Option.bind_some]
    · exact checkedClose_eq (ne_of_eq_of_ne hq (by decide))
    · rfl
    · rw [hone h0, Option.bind_some]
  | inq =>
    have hesc : andThen (test p 0 (· == bslash)) (test p 1 (· != 0))
        = some (readByte p 0 == bslash && readByte p 1 != 0) := andThen_test_eq (by decide)
    simp only [checkedStep, tokenStep, hexTest_eq, hesc]
    simp only [test_eq (Nat.zero_le (strlen p)), hz, Option.bind_eq_bind, Option.bind_some,
      Bool.and_eq_true, beq_iff_eq, bne_iff_ne]
    split_ifs with hx he hq h0
    · have h2 : 2 ≤ strlen p := two_le_strlen (ne_of_eq_of_ne hx.1 (by decide))
        (ne_of_eq_of_ne hx.2.1 (by decide))
      have h3 := succ_le_strlen h2 (ne_zero_of_isHexDigit hx.2.2.1)
      have h4 := succ_le_strlen h3 (ne_zero_of_isHexDigit hx.2.2.2)
      simp only [peek_eq h2, peek_eq h3, advance_eq h4, Option.bind_some]
    · have h2 : 2 ≤ strlen p := two_le_strlen (ne_of_eq_of_ne he.1 (by decide)) he.2
      simp only [peek_eq ((Nat.le_succ 1).trans h2), advance_eq h2, Option.bind_some]
    · exact checkedClose_eq (ne_of_eq_of_ne hq (by decide))
    · rfl
    · rw [hone h0, Option.bind_some]

end Checks

/-! ## The loops -/

theorem checkedToken_eq {fuel : ℕ} {p : Bytes} (hf : p.length < fuel) (m : QuoteMode) (s : Sds) :
    checkedToken fuel m s p = some (tokenLoop fuel m s p) := by
  induction fuel generalizing m p s with
  | zero => omega
  | succ fuel ih =>
    rw [checkedToken, tokenLoop, checkedStep_eq, Option.bind_eq_bind, Option.bind_some]
    cases hs : tokenStep m p with
    | emit c p' =>
      have hlt := tokenStep_emit_lt hs
      exact ih (by omega) m (sdscatlen s [c])
    | enter m' p' =>
      have hlt := tokenStep_enter_lt hs
      exact ih (by omega) m' s
    | done p' => rfl
    | err => rfl

theorem checkedBlanks_eq {fuel : ℕ} {p : Bytes} (hf : p.length < fuel) :
    checkedBlanks fuel p = some (p.dropWhile isspace) := by
  induction fuel generalizing p with
  | zero => omega
  | succ fuel ih =>
    have hcond : andThen (test p 0 (· != 0)) (test p 0 isspace)
        = some (readByte p 0 != 0 && isspace (readByte p 0)) :=
      andThen_eq (test_eq (Nat.zero_le _) _) fun _ => test_eq (Nat.zero_le _) _
    rw [checkedBlanks, hcond, Option.bind_eq_bind, Option.bind_some]
    cases p with
    | nil => rfl
    | cons c p =>
      by_cases hc : isspace c = true
      · have hne : c ≠ 0 := by
          rintro rfl
          exact absurd hc (by decide)
        have hadv : advance (c :: p) 1 = some p := advance_eq (succ_le_strlen (Nat.zero_le _) hne)
        rw [if_pos (by simp [readByte, hne, hc]), hadv, Option.bind_eq_bind, Option.bind_some,
          ih (Nat.lt_of_succ_lt_succ hf), List.dropWhile_cons_of_pos hc]
      · rw [if_neg (by simp [readByte, hc]), List.dropWhile_cons_of_neg hc]

theorem checkedSplit_eq {fuel : ℕ} {p : Bytes} (hf : p.length < fuel) :
    checkedSplit fuel p = some (splitLoop fuel p) := by
  induction fuel generalizing p with
  | zero => omega
  | succ fuel ih =>
    have hskip : (p.dropWhile isspace).length ≤ p.length := (List.dropWhile_suffix _).length_le
    rw [checkedSplit, splitLoop, checkedBlanks_eq (Nat.lt_succ_self _)]
    simp only [Option.bind_eq_bind, Option.bind_some, peek_eq (Nat.zero_le _),
      checkedToken_eq (Nat.lt_succ_self _)]
    split_ifs with hb
    · rfl
    · rcases hl : tokenLoop ((p.dropWhile isspace).length + 1) .plain sdsempty
          (p.dropWhile isspace) with _ | ⟨current, r⟩
      · rfl
      · -- the token uses up a byte, so the fuel lasts
        obtain ⟨d, hd, -⟩ := (tokenLoop_eq_some_iff (Nat.lt_succ_self _) _ _ _).1 hl
        have hlt := hd.length_le.2 hb
        show (checkedSplit fuel r).map (Option.map (current :: ·)) = _
        rw [ih (by omega)]
        rfl

/-- With enough fuel the checked loops end, every read and every move stays in front of or at the first
NUL, and the result is that of `sdssplitargs`. -/
theorem checkedSplit_line (line : Bytes) :
    checkedSplit (line.length + 1) line = some (sdssplitargs line) :=
  checkedSplit_eq (Nat.lt_succ_self _)

end RedisCounter
