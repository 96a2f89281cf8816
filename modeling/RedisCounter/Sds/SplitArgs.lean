import RedisCounter.Sds.Basic

/-!
# The request tokenizer

`sdssplitargs` cuts a line into blank-separated tokens. Inside a token it is in one of three modes
(`inq`, `insq`, or neither); `tokenStep` is one turn of its `while(!done)` loop, `tokenLoop` the loop
with the token built so far, and `splitLoop` the outer loop over tokens. Both loops carry fuel, and
both have more of it than they can use.

The relations `Reads` and `Tokens` describe the same turns without the accumulator and the fuel;
`sdssplitargs_eq_some_iff` says the two agree, and everything later is proved about the relations.
-/

namespace RedisCounter

/-- `is_hex_digit`. -/
def isHexDigit (c : UInt8) : Bool :=
  (48 ≤ c && c ≤ 57) || (97 ≤ c && c ≤ 102) || (65 ≤ c && c ≤ 70)

/-- `hex_digit_to_int`. -/
def hexDigitToInt (c : UInt8) : UInt8 :=
  if 48 ≤ c && c ≤ 57 then c - 48
  else if 97 ≤ c && c ≤ 102 then c - 87
  else if 65 ≤ c && c ≤ 70 then c - 55
  else 0

/-- What a backslash and this byte stand for between double quotes. -/
def unescape (c : UInt8) : UInt8 :=
  if c = 110 then 10        -- n
  else if c = 114 then 13   -- r
  else if c = 116 then 9    -- t
  else if c = 98 then 8     -- b
  else if c = 97 then 7     -- a
  else c

/-- The flags `inq` and `insq`: at most one of them is set. -/
inductive QuoteMode
  | plain | inq | insq
deriving DecidableEq, Repr

/-- What one turn of the token loop does. -/
inductive TokenStep
  /-- Append a byte to the token and go on at `p`. -/
  | emit (c : UInt8) (p : Bytes)
  /-- Set a quote flag and go on at `p`. -/
  | enter (m : QuoteMode) (p : Bytes)
  /-- `done = 1`, leaving the scan at `p`. -/
  | done (p : Bytes)
  /-- `goto err`. -/
  | err
deriving DecidableEq, Repr

/-- A closing quote must be followed by a blank or by the end of the line. -/
def closeQuote (p : Bytes) : TokenStep :=
  if readByte p 1 ≠ 0 ∧ isspace (readByte p 1) = false then .err else .done (p.drop 1)

/-- One turn of `while(!done)` at `p`. -/
def tokenStep : QuoteMode → Bytes → TokenStep
  | .inq, p =>
    if readByte p 0 = bslash ∧ readByte p 1 = 120 ∧ isHexDigit (readByte p 2) ∧
        isHexDigit (readByte p 3) then
      .emit (hexDigitToInt (readByte p 2) * 16 + hexDigitToInt (readByte p 3)) (p.drop 4)
    else if readByte p 0 = bslash ∧ readByte p 1 ≠ 0 then
      .emit (unescape (readByte p 1)) (p.drop 2)
    else if readByte p 0 = dquote then closeQuote p
    else if readByte p 0 = 0 then .err
    else .emit (readByte p 0) (p.drop 1)
  | .insq, p =>
    if readByte p 0 = bslash ∧ readByte p 1 = squote then .emit squote (p.drop 2)
    else if readByte p 0 = squote then closeQuote p
    else if readByte p 0 = 0 then .err
    else .emit (readByte p 0) (p.drop 1)
  | .plain, p =>
    if readByte p 0 = 0 then .done p
    else if readByte p 0 = 32 ∨ readByte p 0 = lf ∨ readByte p 0 = cr ∨ readByte p 0 = 9 then
      .done (p.drop 1)
    else if readByte p 0 = dquote then .enter .inq (p.drop 1)
    else if readByte p 0 = squote then .enter .insq (p.drop 1)
    else .emit (readByte p 0) (p.drop 1)

/-- The loop over one token; `none` is `goto err`. -/
def tokenLoop : ℕ → QuoteMode → Sds → Bytes → Option (Sds × Bytes)
  | 0, _, _, _ => none
  | fuel + 1, m, current, p =>
    match tokenStep m p with
    | .emit c p' => tokenLoop fuel m (sdscatlen current [c]) p'
    | .enter m' p' => tokenLoop fuel m' current p'
    | .done p' => some (current, p')
    | .err => none

/-- The loop over the tokens of a line. -/
def splitLoop : ℕ → Bytes → Option (List Sds)
  | 0, _ => none
  | fuel + 1, p =>
    let p := p.dropWhile isspace
    if readByte p 0 = 0 then some []
    else
      match tokenLoop (p.length + 1) .plain sdsempty p with
      | none => none
      | some (current, p') => (splitLoop fuel p').map (current :: ·)

/-- `sdssplitargs(line, &argc)`: the vector of tokens, whose length is `argc`; `none` is the `NULL`
it returns, with `argc` 0, for unbalanced quotes. -/
def sdssplitargs (line : Bytes) : Option (List Sds) := splitLoop (line.length + 1) line

/-! ## The turns of the loop as relations -/

/-- `Reads m p d r`: from `p` in mode `m` the token loop appends the bytes `d` and ends at `r`. -/
inductive Reads : QuoteMode → Bytes → Bytes → Bytes → Prop
  | done {m p r} : tokenStep m p = .done r → Reads m p [] r
  | emit {m p c p' d r} : tokenStep m p = .emit c p' → Reads m p' d r → Reads m p (c :: d) r
  | enter {m p m' p' d r} : tokenStep m p = .enter m' p' → Reads m' p' d r → Reads m p d r

/-- `Tokens p ts`: the line `p` splits into the tokens `ts`. -/
inductive Tokens : Bytes → List Bytes → Prop
  | nil {p} : readByte (p.dropWhile isspace) 0 = 0 → Tokens p []
  | cons {p d r ts} : readByte (p.dropWhile isspace) 0 ≠ 0 →
      Reads .plain (p.dropWhile isspace) d r → Tokens r ts → Tokens p (d :: ts)

/-- The sds a token's bytes are appended into, one by one. -/
def sdsOf (d : Bytes) : Sds := d.foldl (fun s c => sdscatlen s [c]) sdsempty

theorem foldl_sdscatlen_spec {s : Sds} (h : s.Wf) (d : Bytes) :
    (d.foldl (fun s c => sdscatlen s [c]) s).Wf ∧
      (d.foldl (fun s c => sdscatlen s [c]) s).content = s.content ++ d := by
  induction d generalizing s with
  | nil => simp [h]
  | cons c d ih =>
    obtain ⟨hwf, hcontent⟩ := ih (h.wf_sdscatlen [c])
    refine ⟨hwf, ?_⟩
    rw [List.foldl_cons, hcontent, h.content_sdscatlen]
    simp

theorem wf_sdsOf (d : Bytes) : (sdsOf d).Wf := (foldl_sdscatlen_spec wf_sdsempty d).1

@[simp] theorem content_sdsOf (d : Bytes) : (sdsOf d).content = d := by
  rw [sdsOf, (foldl_sdscatlen_spec wf_sdsempty d).2, content_sdsempty, List.nil_append]

/-! ## Every turn moves the scan forward -/

theorem readByte_ne_zero_length {p : Bytes} {i : ℕ} (h : readByte p i ≠ 0) : i < p.length := by
  by_contra hle
  have hnone : p[i]? = none := List.getElem?_eq_none (by omega)
  exact h (by simp [readByte, hnone])

/-- Advancing over a byte that is there. -/
theorem length_drop_lt {p : Bytes} (h : readByte p 0 ≠ 0) {k : ℕ} (hk : 0 < k) :
    (p.drop k).length < p.length := by
  have := readByte_ne_zero_length h
  rw [List.length_drop]
  omega

/-- At the NUL the loop stops: in plain mode the token ends there, between quotes it is an error. -/
theorem tokenStep_of_readByte_eq_zero (m : QuoteMode) {p : Bytes} (h : readByte p 0 = 0) :
    tokenStep m p = if m = .plain then .done p else .err := by
  cases m <;> simp [tokenStep, h]

/-- Before the NUL every turn advances. -/
theorem tokenStep_advances (m : QuoteMode) {p : Bytes} (h : readByte p 0 ≠ 0) :
    tokenStep m p = .err ∨ ∃ k, 0 < k ∧
      (tokenStep m p = .done (p.drop k) ∨ (∃ c, tokenStep m p = .emit c (p.drop k)) ∨
        (m = .plain ∧ ∃ m', tokenStep m p = .enter m' (p.drop k))) := by
  cases m <;> simp only [tokenStep, closeQuote, h, if_false] <;> split_ifs <;>
    first
      | exact .inl rfl
      | exact .inr ⟨1, by decide, .inl rfl⟩
      | exact .inr ⟨_, by decide, .inr (.inl ⟨_, rfl⟩)⟩
      | exact .inr ⟨1, by decide, .inr (.inr ⟨trivial, _, rfl⟩)⟩

/-- A turn that goes on uses up a byte. -/
theorem tokenStep_next_lt {m : QuoteMode} {p p' : Bytes}
    (h : (∃ c, tokenStep m p = .emit c p') ∨ ∃ m', tokenStep m p = .enter m' p') :
    p'.length < p.length := by
  by_cases hb : readByte p 0 = 0
  · rw [tokenStep_of_readByte_eq_zero m hb] at h
    split_ifs at h <;> simp at h
  · rcases tokenStep_advances m hb with hs | ⟨k, hk, hs | ⟨c', hs⟩ | ⟨-, m', hs⟩⟩
    · simp [hs] at h
    · simp [hs] at h
    · obtain rfl : p.drop k = p' := by simpa [hs] using h
      exact length_drop_lt hb hk
    · obtain rfl : p.drop k = p' := by simpa [hs] using h
      exact length_drop_lt hb hk

theorem tokenStep_emit_lt {m : QuoteMode} {p p' : Bytes} {c : UInt8}
    (h : tokenStep m p = .emit c p') : p'.length < p.length := tokenStep_next_lt (.inl ⟨c, h⟩)

theorem tokenStep_enter_lt {m m' : QuoteMode} {p p' : Bytes}
    (h : tokenStep m p = .enter m' p') : p'.length < p.length := tokenStep_next_lt (.inr ⟨m', h⟩)

theorem tokenStep_done_le {m : QuoteMode} {p r : Bytes} (h : tokenStep m p = .done r) :
    r.length ≤ p.length ∧ (readByte p 0 ≠ 0 → r.length < p.length) := by
  by_cases hb : readByte p 0 = 0
  · rw [tokenStep_of_readByte_eq_zero m hb] at h
    split_ifs at h
    obtain rfl := TokenStep.done.inj h
    exact ⟨le_rfl, fun hne => absurd hb hne⟩
  · rcases tokenStep_advances m hb with hs | ⟨k, hk, hs | ⟨c', hs⟩ | ⟨-, m', hs⟩⟩
    · cases hs.symm.trans h
    · obtain rfl := TokenStep.done.inj (hs.symm.trans h)
      have hlt := length_drop_lt hb hk
      exact ⟨hlt.le, fun _ => hlt⟩
    · cases hs.symm.trans h
    · cases hs.symm.trans h

/-! ## What one turn makes of the token -/

theorem reads_done_iff {m : QuoteMode} {p p' d r : Bytes} (hs : tokenStep m p = .done p') :
    Reads m p d r ↔ d = [] ∧ r = p' := by
  constructor
  · intro h
    cases h with
    | done h => exact ⟨rfl, TokenStep.done.inj (h.symm.trans hs)⟩
    | emit h => cases h.symm.trans hs
    | enter h => cases h.symm.trans hs
  · rintro ⟨rfl, rfl⟩
    exact .done hs

theorem reads_emit_iff {m : QuoteMode} {p p' d r : Bytes} {c : UInt8}
    (hs : tokenStep m p = .emit c p') : Reads m p d r ↔ ∃ d', d = c :: d' ∧ Reads m p' d' r := by
  constructor
  · intro h
    cases h with
    | done h => cases h.symm.trans hs
    | enter h => cases h.symm.trans hs
    | emit h hd =>
      obtain ⟨rfl, rfl⟩ := TokenStep.emit.inj (h.symm.trans hs)
      exact ⟨_, rfl, hd⟩
  · rintro ⟨d', rfl, hd⟩
    exact .emit hs hd

/-- A byte appended in front of what is appended later. -/
theorem reads_emit_append {m : QuoteMode} {p p' z d r : Bytes} {c : UInt8}
    (hs : tokenStep m p = .emit c p')
    (h : ∀ d', Reads m p' d' r ↔ ∃ d'', d' = d ++ d'' ∧ Reads m z d'' r) (d' : Bytes) :
    Reads m p d' r ↔ ∃ d'', d' = c :: d ++ d'' ∧ Reads m z d'' r := by
  rw [reads_emit_iff hs]
  constructor
  · rintro ⟨d1, rfl, hd⟩
    obtain ⟨d'', rfl, hz⟩ := (h d1).1 hd
    exact ⟨d'', rfl, hz⟩
  · rintro ⟨d'', rfl, hz⟩
    exact ⟨d ++ d'', rfl, (h _).2 ⟨d'', rfl, hz⟩⟩

theorem reads_enter_iff {m m' : QuoteMode} {p p' d r : Bytes} (hs : tokenStep m p = .enter m' p') :
    Reads m p d r ↔ Reads m' p' d r := by
  constructor
  · intro h
    cases h with
    | done h => cases h.symm.trans hs
    | emit h => cases h.symm.trans hs
    | enter h hd =>
      obtain ⟨rfl, rfl⟩ := TokenStep.enter.inj (h.symm.trans hs)
      exact hd
  · exact .enter hs

theorem not_reads_err {m : QuoteMode} {p d r : Bytes} (hs : tokenStep m p = .err) :
    ¬ Reads m p d r := by
  intro h
  cases h with
  | done h => cases h.symm.trans hs
  | emit h => cases h.symm.trans hs
  | enter h => cases h.symm.trans hs

/-- A token uses up at least one byte, unless it starts at the NUL. -/
theorem Reads.length_le {m : QuoteMode} {p d r : Bytes} (h : Reads m p d r) :
    r.length ≤ p.length ∧ (readByte p 0 ≠ 0 → r.length < p.length) := by
  induction h with
  | done hs => exact tokenStep_done_le hs
  | emit hs _ ih =>
    have := tokenStep_emit_lt hs
    exact ⟨by omega, fun _ => by omega⟩
  | enter hs _ ih =>
    have := tokenStep_enter_lt hs
    exact ⟨by omega, fun _ => by omega⟩

/-- A token has no more bytes than the scan moved over. -/
theorem Reads.length_add_le {m : QuoteMode} {p d r : Bytes} (h : Reads m p d r) :
    d.length + r.length ≤ p.length := by
  induction h with
  | done hs =>
    rw [List.length_nil, Nat.zero_add]
    exact (tokenStep_done_le hs).1
  | emit hs _ ih =>
    have := tokenStep_emit_lt hs
    rw [List.length_cons]
    omega
  | enter hs _ ih =>
    have := tokenStep_enter_lt hs
    omega

/-- A token that something follows gives up a byte more than it has: the blank or the quote that ends
it. -/
theorem Reads.length_add_lt {m : QuoteMode} {p d r : Bytes} (h : Reads m p d r)
    (hr : readByte r 0 ≠ 0) : d.length + r.length < p.length := by
  induction h with
  | @done m p r hs =>
    have hp : readByte p 0 ≠ 0 := by
      intro h0
      rw [tokenStep_of_readByte_eq_zero m h0] at hs
      split_ifs at hs
      exact hr (TokenStep.done.inj hs ▸ h0)
    rw [List.length_nil, Nat.zero_add]
    exact (tokenStep_done_le hs).2 hp
  | emit hs _ ih =>
    have := tokenStep_emit_lt hs
    have := ih hr
    rw [List.length_cons]
    omega
  | enter hs _ ih =>
    have := tokenStep_enter_lt hs
    have := ih hr
    omega

/-- A line from its first token on has no NUL before it. -/
theorem readByte_ne_zero_of_dropWhile {p : Bytes} (h : readByte (p.dropWhile isspace) 0 ≠ 0) :
    readByte p 0 ≠ 0 := by
  intro h0
  apply h
  cases p with
  | nil => exact h0
  | cons c p =>
    obtain rfl : c = 0 := h0
    rfl

/-- Each token in front of another takes at least one byte of the line. -/
theorem Tokens.length_add_le {p : Bytes} {ts : List Bytes} (h : Tokens p ts) :
    ∀ {i : ℕ} {t : Bytes}, ts[i]? = some t → t.length + i ≤ p.length := by
  induction h with
  | nil =>
    intro i t ht
    cases ht
  | @cons p d r ts _ hr hts ih =>
    have hskip : (p.dropWhile isspace).length ≤ p.length := (List.dropWhile_suffix _).length_le
    intro i t ht
    cases i with
    | zero =>
      obtain rfl : d = t := Option.some.inj ht
      have := hr.length_add_le
      omega
    | succ i =>
      have hrest := ih ht
      have hne : readByte r 0 ≠ 0 := by
        cases hts with
        | nil => cases ht
        | cons h0 => exact readByte_ne_zero_of_dropWhile h0
      have := hr.length_add_lt hne
      omega

/-- The tokens of a line are no longer than the line. -/
theorem Tokens.length_le {p : Bytes} {ts : List Bytes} (h : Tokens p ts) :
    ∀ t ∈ ts, t.length ≤ p.length := by
  intro t ht
  obtain ⟨i, hi⟩ := List.mem_iff_getElem?.1 ht
  have := h.length_add_le hi
  omega

/-! ## The loops compute the relations -/

/-- With fuel for every byte, the token loop is `Reads`. -/
theorem tokenLoop_eq_some_iff {fuel : ℕ} {m : QuoteMode} {p : Bytes} (hf : p.length < fuel)
    (s s' : Sds) (r : Bytes) :
    tokenLoop fuel m s p = some (s', r) ↔
      ∃ d, Reads m p d r ∧ s' = d.foldl (fun s c => sdscatlen s [c]) s := by
  induction fuel generalizing m p s with
  | zero => omega
  | succ fuel ih =>
    rw [tokenLoop]
    -- every turn that goes on uses up a byte, so the fuel lasts
    cases hs : tokenStep m p with
    | emit c p' =>
      have hlt := tokenStep_emit_lt hs
      rw [ih (by omega)]
      simp only [reads_emit_iff hs]
      constructor
      · rintro ⟨d, hd, rfl⟩
        exact ⟨c :: d, ⟨d, rfl, hd⟩, rfl⟩
      · rintro ⟨-, ⟨d, rfl, hd⟩, rfl⟩
        exact ⟨d, hd, rfl⟩
    | enter m' p' =>
      have hlt := tokenStep_enter_lt hs
      rw [ih (by omega)]
      simp only [reads_enter_iff hs]
    | done p' =>
      simp only [reads_done_iff hs, Option.some.injEq, Prod.mk.injEq]
      constructor
      · rintro ⟨rfl, rfl⟩
        exact ⟨[], ⟨rfl, rfl⟩, rfl⟩
      · rintro ⟨d, ⟨rfl, rfl⟩, rfl⟩
        exact ⟨rfl, rfl⟩
    | err =>
      simp only [reduceCtorEq, false_iff]
      rintro ⟨d, hd, -⟩
      exact not_reads_err hs hd

/-- With fuel for every token, the outer loop is `Tokens`. -/
theorem splitLoop_eq_some_iff {fuel : ℕ} {p : Bytes} (hf : p.length < fuel) (toks : List Sds) :
    splitLoop fuel p = some toks ↔ ∃ ts, Tokens p ts ∧ toks = ts.map sdsOf := by
  induction fuel generalizing p toks with
  | zero => omega
  | succ fuel ih =>
    have hskip : (p.dropWhile isspace).length ≤ p.length := (List.dropWhile_suffix _).length_le
    rw [splitLoop]
    split_ifs with hb
    · constructor
      · intro h
        exact ⟨[], .nil hb, by simpa using h.symm⟩
      · rintro ⟨ts, hts, rfl⟩
        cases hts with
        | nil => rfl
        | cons hb' => exact absurd hb hb'
    · constructor
      · intro h
        cases hl : tokenLoop ((p.dropWhile isspace).length + 1) .plain sdsempty
            (p.dropWhile isspace) with
        | none => simp [hl] at h
        | some x =>
          obtain ⟨current, r⟩ := x
          obtain ⟨d, hd, rfl⟩ := (tokenLoop_eq_some_iff (by omega) _ _ _).1 hl
          -- the token uses up a byte, so the fuel lasts
          have hlt := hd.length_le.2 hb
          simp only [hl, Option.map_eq_some_iff] at h
          obtain ⟨rest, hrest, rfl⟩ := h
          obtain ⟨ts, hts, rfl⟩ := (ih (by omega) _).1 hrest
          exact ⟨d :: ts, .cons hb hd hts, rfl⟩
      · rintro ⟨ts, hts, rfl⟩
        cases hts with
        | nil h0 => exact absurd h0 hb
        | @cons _ d r ts _ hd hts =>
          have hlt := hd.length_le.2 hb
          have hl := (tokenLoop_eq_some_iff (Nat.lt_succ_self _) sdsempty (sdsOf d) r).2
            ⟨d, hd, rfl⟩
          simp [hl, (ih (by omega) _).2 ⟨ts, hts, rfl⟩]

/-- `sdssplitargs` returns exactly the tokens of the line, each built by appending its bytes. -/
theorem sdssplitargs_eq_some_iff (p : Bytes) (toks : List Sds) :
    sdssplitargs p = some toks ↔ ∃ ts, Tokens p ts ∧ toks = ts.map sdsOf :=
  splitLoop_eq_some_iff (Nat.lt_succ_self _) toks

/-- The bytes of the tokens determine the tokens. -/
theorem tokens_of_sdssplitargs {p : Bytes} {ts : List Bytes}
    (h : sdssplitargs p = some (ts.map sdsOf)) : Tokens p ts := by
  obtain ⟨ts', hts', heq⟩ := (sdssplitargs_eq_some_iff p _).1 h
  have hcontent := congrArg (List.map Sds.content) heq
  have hts : ts = ts' := by simpa [Function.comp_def] using hcontent
  rw [hts]
  exact hts'

/-- A line has one list of tokens. -/
theorem Tokens.unique {p : Bytes} {ts ts' : List Bytes} (h : Tokens p ts) (h' : Tokens p ts') :
    ts = ts' := by
  have hsome := (sdssplitargs_eq_some_iff p (ts.map sdsOf)).2 ⟨ts, h, rfl⟩
  rw [(sdssplitargs_eq_some_iff p (ts'.map sdsOf)).2 ⟨ts', h', rfl⟩] at hsome
  have hcontent := congrArg (List.map Sds.content) (Option.some.inj hsome)
  simpa [Function.comp_def] using hcontent.symm

end RedisCounter
