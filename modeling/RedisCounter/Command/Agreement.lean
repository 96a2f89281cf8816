import RedisCounter.Command.Effects

/-!
# What the server reads of an encoded line

The encoder delimits the arguments by their lengths, and the server reads them back as tokens, so
the two agree exactly on plain arguments. That plain arguments come back is `tokens_encode`; this
module shows that nothing else does. An argument with a blank or a NUL comes back shorter, and an
empty one not at all. With a quote in an argument the tokenizer goes on, between quotes, at the `$`
of the next argument's length, and what it then appends never catches up with the argument: the
first `$` in what it reads stands at or before its place there, so the argument would have a `$`
before its first one.
-/

namespace RedisCounter

open Decimal

/-! ## Reading between quotes -/

/-- A byte that is there. -/
theorem exists_cons_of_readByte {p : Bytes} {i : ℕ} (h : readByte p i ≠ 0) :
    p.drop i = readByte p i :: p.drop (i + 1) := by
  have hlt := readByte_ne_zero_length h
  have hget : readByte p i = p[i] := by simp [readByte, hlt]
  rw [List.drop_eq_getElem_cons hlt, hget]

theorem isHexDigit_ne {c : UInt8} (h : isHexDigit c = true) : c ≠ 0 ∧ c ≠ 36 := by
  constructor <;> rintro rfl <;> exact absurd h (by decide)

theorem eq_dollar_of_unescape {c : UInt8} (h : c = 36) : unescape c = 36 := by
  rw [h]
  decide

theorem unescape_ne_zero {c : UInt8} (h : c ≠ 0) : unescape c ≠ 0 := by
  unfold unescape
  split_ifs <;> first | decide | exact h

/-- One byte appended between quotes uses up some bytes `k` and one byte more. There is no `$` among
the first, a `$` at the end is appended as it is, and a NUL takes a whole escape. -/
theorem quoted_emit {m : QuoteMode} {p p' : Bytes} {c : UInt8} (hm : m ≠ .plain)
    (h : tokenStep m p = .emit c p') :
    ∃ k b, p = k ++ b :: p' ∧ (36 : UInt8) ∉ k ∧ (b = 36 → c = 36) ∧ (c = 0 → 3 ≤ k.length) := by
  have hbslash : ∀ x : UInt8, x = bslash → x ≠ 0 := by
    rintro x rfl
    decide
  have hself : readByte p 0 ≠ 0 → ∃ k b, p = k ++ b :: p.drop 1 ∧ (36 : UInt8) ∉ k ∧
      (b = 36 → readByte p 0 = 36) ∧ (readByte p 0 = 0 → 3 ≤ k.length) := by
    intro hz
    refine ⟨[], readByte p 0, ?_, by simp, id, fun h0 => absurd h0 hz⟩
    rw [List.nil_append, ← exists_cons_of_readByte hz, List.drop_zero]
  cases m with
  | plain => exact absurd rfl hm
  | inq =>
    simp only [tokenStep, closeQuote] at h
    split_ifs at h with hx he hq hz0 hz
    · -- `\xHH`: four bytes for one
      obtain ⟨rfl, rfl⟩ := TokenStep.emit.inj h
      obtain ⟨h0, h1, h2, h3⟩ := hx
      have hp0 := exists_cons_of_readByte (hbslash _ h0)
      have hp1 := exists_cons_of_readByte (p := p) (i := 1) (by rw [h1]; decide)
      have hp2 := exists_cons_of_readByte (isHexDigit_ne h2).1
      have hp3 := exists_cons_of_readByte (isHexDigit_ne h3).1
      refine ⟨[readByte p 0, readByte p 1, readByte p 2], readByte p 3, ?_, ?_, ?_, fun _ => le_rfl⟩
      · rw [List.cons_append, List.cons_append, List.cons_append, List.nil_append, ← hp3, ← hp2,
          ← hp1, ← hp0, List.drop_zero]
      · have hne := (isHexDigit_ne h2).2
        simp only [List.mem_cons, List.not_mem_nil, or_false, not_or]
        exact ⟨by rw [h0]; decide, by rw [h1]; decide, hne.symm⟩
      · exact fun hb => absurd hb (isHexDigit_ne h3).2
    · -- a backslash and a byte that is there
      obtain ⟨rfl, rfl⟩ := TokenStep.emit.inj h
      have hp0 := exists_cons_of_readByte (hbslash _ he.1)
      have hp1 := exists_cons_of_readByte he.2
      refine ⟨[readByte p 0], readByte p 1, ?_, ?_, eq_dollar_of_unescape, ?_⟩
      · rw [List.cons_append, List.nil_append, ← hp1, ← hp0, List.drop_zero]
      · rw [he.1]
        decide
      · exact fun h0 => absurd h0 (unescape_ne_zero he.2)
    · obtain ⟨rfl, rfl⟩ := TokenStep.emit.inj h
      exact hself hz
  | insq =>
    simp only [tokenStep, closeQuote] at h
    split_ifs at h with he hq hz0 hz
    · -- between single quotes only the quote itself is escaped
      obtain ⟨rfl, rfl⟩ := TokenStep.emit.inj h
      have hp0 := exists_cons_of_readByte (hbslash _ he.1)
      have hp1 := exists_cons_of_readByte (p := p) (i := 1) (by rw [he.2]; decide)
      refine ⟨[readByte p 0], readByte p 1, ?_, ?_, ?_, fun h0 => absurd h0 (by decide)⟩
      · rw [List.cons_append, List.nil_append, ← hp1, ← hp0, List.drop_zero]
      · rw [he.1]
        decide
      · intro hb
        rw [he.2] at hb
        exact absurd hb (by decide)
    · obtain ⟨rfl, rfl⟩ := TokenStep.emit.inj h
      exact hself hz

/-- Between quotes the token ends at a quote only. -/
theorem quoted_done {m : QuoteMode} {p r : Bytes} (hm : m ≠ .plain) (h : tokenStep m p = .done r) :
    ∃ q p', p = q :: p' ∧ (q = dquote ∨ q = squote) := by
  have hcons : ∀ q : UInt8, q ≠ 0 → readByte p 0 = q → p = q :: p.drop 1 := by
    intro q hq hp
    rw [← hp, ← exists_cons_of_readByte (by rwa [hp]), List.drop_zero]
  cases m with
  | plain => exact absurd rfl hm
  | inq =>
    simp only [tokenStep] at h
    split_ifs at h with hx he hq hz
    exact ⟨dquote, _, hcons _ (by decide) hq, .inl rfl⟩
  | insq =>
    simp only [tokenStep] at h
    split_ifs at h with he hq hz
    exact ⟨squote, _, hcons _ (by decide) hq, .inr rfl⟩

theorem quoted_enter {m m' : QuoteMode} {p p' : Bytes} (h : tokenStep m p = .enter m' p') :
    m = .plain := by
  by_cases h0 : readByte p 0 = 0
  · rw [tokenStep_of_readByte_eq_zero m h0] at h
    split_ifs at h
  · rcases tokenStep_advances m h0 with he | ⟨k, -, hd | ⟨c, he⟩ | ⟨hm, -⟩⟩
    · simp [he] at h
    · simp [hd] at h
    · simp [he] at h
    · exact hm

/-- Bytes up to the first `$` against some bytes without `$` and one more: they go on after them, or
the `$` is that one more. -/
theorem append_cons_eq_append {k p v z : Bytes} {b : UInt8} (h : k ++ b :: p = v ++ z)
    (hk : (36 : UInt8) ∉ k) (hz : z = [] ∨ ∃ z', z = 36 :: z') :
    (∃ v', v = k ++ b :: v' ∧ p = v' ++ z) ∨ b = 36 ∧ v = k := by
  have hhead : ∀ x t, x :: t = z → x = 36 := by
    rintro x t rfl
    rcases hz with hz | ⟨z', hz⟩
    · cases hz
    · exact (List.cons.inj hz).1
  rcases List.append_eq_append_iff.1 h with ⟨v', rfl, hrest⟩ | ⟨k', rfl, hrest⟩
  · cases v' with
    | nil => exact .inr ⟨hhead _ _ hrest, List.append_nil k⟩
    | cons x v' =>
      obtain ⟨rfl, rfl⟩ := List.cons.inj hrest
      exact .inl ⟨v', rfl, rfl⟩
  · cases k' with
    | nil => exact .inr ⟨hhead _ _ hrest.symm, (List.append_nil v).symm⟩
    | cons x k' =>
      rw [hhead _ _ hrest.symm] at hk
      exact absurd hk (by simp)

/-- The first `$` of what is read between quotes: either the quotes end before it, or it is appended
at or before its place, and further before it when a NUL is appended first. -/
theorem Reads.dollar {m : QuoteMode} {p d r : Bytes} (h : Reads m p d r) (hm : m ≠ .plain)
    {v z : Bytes} (hp : p = v ++ z) (hv : (36 : UInt8) ∉ v) (hz : z = [] ∨ ∃ z', z = 36 :: z') :
    (∃ v1 q v2, v = v1 ++ q :: v2 ∧ (q = dquote ∨ q = squote) ∧ d.length ≤ v1.length) ∨
      ∃ i ≤ v.length, d[i]? = some 36 ∧ ((0 : UInt8) ∈ d.take i → i + 3 ≤ v.length) := by
  induction h generalizing v with
  | done hs =>
    left
    obtain ⟨q, p', rfl, hq⟩ := quoted_done hm hs
    cases v with
    | nil =>
      rcases hz with rfl | ⟨z', rfl⟩
      · cases hp
      · obtain ⟨rfl, -⟩ := List.cons.inj hp
        exact absurd hq (by decide)
    | cons x v =>
      obtain ⟨rfl, -⟩ := List.cons.inj hp
      exact ⟨[], q, v, rfl, hq, le_rfl⟩
  | enter hs => exact absurd (quoted_enter hs) hm
  | @emit m p c p' d r hs _ ih =>
    obtain ⟨k, b, rfl, hk, hb, hc⟩ := quoted_emit hm hs
    rcases append_cons_eq_append hp hk hz with ⟨v', rfl, rfl⟩ | ⟨hdollar, -⟩
    · -- the step stays before the `$`, and uses up at least as much as it appends
      have hv' : (36 : UInt8) ∉ v' := fun hmem => hv (by simp [hmem])
      have hlen : (k ++ b :: v').length = k.length + v'.length + 1 := by
        rw [List.length_append, List.length_cons, Nat.add_assoc]
      rcases ih hm rfl hv' with ⟨v1, q, v2, rfl, hq, hle⟩ | ⟨i, hi, hget, hnul⟩
      · left
        refine ⟨k ++ b :: v1, q, v2, by simp, hq, ?_⟩
        simp only [List.length_cons, List.length_append]
        omega
      · right
        refine ⟨i + 1, by omega, hget, fun hmem => ?_⟩
        rw [List.take_succ_cons, List.mem_cons] at hmem
        rcases hmem with h0 | hmem
        · have := hc h0.symm
          omega
        · have := hnul hmem
          omega
    · -- the byte that completes the step is the `$`
      exact .inr ⟨0, Nat.zero_le _, congrArg some (hb hdollar), fun h0 => by simp at h0⟩

/-! ## One argument -/

/-- A quote outside quotes begins a quoted part. -/
theorem Reads.of_quote {c : UInt8} {p t r : Bytes} (hc : c = dquote ∨ c = squote)
    (h : Reads .plain (c :: p) t r) : ∃ m, m ≠ .plain ∧ Reads m p t r := by
  have hstep : ∃ m, m ≠ .plain ∧ tokenStep .plain (c :: p) = .enter m p := by
    rcases hc with rfl | rfl
    · exact ⟨.inq, by decide, rfl⟩
    · exact ⟨.insq, by decide, rfl⟩
  obtain ⟨m, hm, hstep⟩ := hstep
  exact ⟨m, hm, (reads_enter_iff hstep).1 h⟩

/-- A plain argument and CRLF in front of a line are its first token, and nothing else. -/
theorem Plain.of_tokens {a r : Bytes} {ts : List Bytes} (ha : Plain a)
    (h : Tokens (a ++ cr :: lf :: r) ts) : ∃ ts', ts = a :: ts' ∧ Tokens r ts' := by
  have hspace : isspace (readByte (a ++ cr :: lf :: r) 0) = false ∧
      readByte (a ++ cr :: lf :: r) 0 ≠ 0 := by
    obtain ⟨c, t, rfl⟩ := List.exists_cons_of_ne_nil ha.ne_nil
    exact ⟨ha.isspace_readByte, ha.2.1⟩
  have hdrop := dropWhile_of_readByte hspace.1
  cases h with
  | nil h0 =>
    rw [hdrop] at h0
    exact absurd h0 hspace.2
  | cons h0 hr ht =>
    rw [hdrop] at hr
    obtain ⟨d, rfl, hd⟩ := (reads_plain_append_iff ha.1).1 hr
    obtain ⟨rfl, rfl⟩ := hd.of_blank (.inr (.inr (.inl rfl)))
    rw [List.append_nil]
    exact ⟨_, rfl, ht.of_cons_isspace (by decide)⟩

/-- The bytes of a line before its first `$`, when what follows CRLF is the end or a `$`. -/
theorem exists_before_dollar (w : Bytes) {rest : Bytes}
    (hrest : rest = [] ∨ ∃ rest', rest = 36 :: rest') :
    ∃ v z, w ++ cr :: lf :: rest = v ++ z ∧ (36 : UInt8) ∉ v ∧ (z = [] ∨ ∃ z', z = 36 :: z') ∧
      v <+: w ++ [cr, lf] := by
  have hsplit := (List.takeWhile_append_dropWhile (p := (· != 36)) (l := w ++ cr :: lf :: rest)).symm
  have hv : (36 : UInt8) ∉ (w ++ cr :: lf :: rest).takeWhile (· != 36) := fun hmem => by
    simpa using List.mem_takeWhile_imp hmem
  refine ⟨_, _, hsplit, hv, ?_, ?_⟩
  · rcases hz : (w ++ cr :: lf :: rest).dropWhile (· != 36) with _ | ⟨x, z'⟩
    · exact .inl rfl
    · have hx := List.head?_dropWhile_not (· != 36) (w ++ cr :: lf :: rest)
      rw [hz] at hx
      exact .inr ⟨z', by simpa using hx⟩
  · have hassoc : w ++ cr :: lf :: rest = (w ++ [cr, lf]) ++ rest := by simp
    generalize (w ++ cr :: lf :: rest).takeWhile (· != 36) = v at hsplit hv ⊢
    rw [hassoc] at hsplit
    rcases List.append_eq_append_iff.1 hsplit with ⟨x, rfl, hx⟩ | ⟨x, hx, -⟩
    · rcases hrest with rfl | ⟨rest', rfl⟩
      · obtain rfl := (List.append_eq_nil_iff.1 hx.symm).1
        exact ⟨[], by simp⟩
      · cases x with
        | nil => exact ⟨[], by simp⟩
        | cons y x =>
          obtain ⟨rfl, -⟩ := List.cons.inj hx
          exact absurd hv (by simp)
    · exact ⟨x, hx.symm⟩

/-- What is read between quotes from the rest `w` of an argument and the line behind it does not
begin, up to its first NUL, with some bytes that are no `$` and `w`. -/
theorem cstr_ne_of_quoted {m : QuoteMode} {w rest d r : Bytes} (pre : Bytes)
    (h : Reads m (w ++ cr :: lf :: rest) d r) (hm : m ≠ .plain)
    (hrest : rest = [] ∨ ∃ rest', rest = 36 :: rest') (hpre : pre ≠ [])
    (hdollar : (36 : UInt8) ∉ pre) : cstr d ≠ pre ++ w := by
  intro heq
  have hlen : w.length < (cstr d).length := by
    have := List.length_pos_of_ne_nil hpre
    rw [heq, List.length_append]
    omega
  have hle : (cstr d).length ≤ d.length := (List.takeWhile_prefix _).length_le
  obtain ⟨v, z, hp, hv, hz, hvw⟩ := exists_before_dollar w hrest
  have hvlen : v.length ≤ w.length + 2 := by simpa using hvw.length_le
  rcases h.dollar hm hp hv hz with ⟨v1, q, v2, rfl, hq, hclosed⟩ | ⟨i, hi, hget, hnul⟩
  · -- the quotes end inside `w`
    have hlt : v1.length < w.length := by
      by_contra hge
      obtain ⟨t, ht⟩ := hvw
      have hget : (w ++ [cr, lf])[v1.length]? = some q := by
        rw [← ht]
        simp
      rw [List.getElem?_append_right (by omega)] at hget
      have hmem := List.mem_of_getElem? hget
      rcases hq with rfl | rfl <;> exact absurd hmem (by decide)
    omega
  · by_cases hzero : (0 : UInt8) ∈ d.take i
    · have := length_cstr_lt hzero
      have := hnul hzero
      omega
    · -- the `$` is appended before any NUL, so it is in `w` before its first `$`
      have hget' : (pre ++ w)[i]? = some 36 := by
        obtain ⟨hlt, hd⟩ := List.getElem?_eq_some_iff.1 hget
        have hlen' : (d.take i).length = i := List.length_take_of_le hlt.le
        rw [← heq, ← List.take_append_drop i d, List.drop_eq_getElem_cons hlt, hd,
          cstr_append hzero, List.getElem?_append_right hlen'.le, hlen', Nat.sub_self]
        rfl
      rcases Nat.lt_or_ge i pre.length with hlt | hge
      · rw [List.getElem?_append_left hlt] at hget'
        exact hdollar (List.mem_of_getElem? hget')
      · rw [List.getElem?_append_right hge] at hget'
        have hpos := List.length_pos_of_ne_nil hpre
        have hw : (w ++ [cr, lf])[i - pre.length]? = some 36 := by
          rw [List.getElem?_append_left (List.getElem?_eq_some_iff.1 hget').1, hget']
        obtain ⟨t, ht⟩ := hvw
        rw [← ht, List.getElem?_append_left (by omega)] at hw
        exact hv (List.mem_of_getElem? hw)

theorem mem_blanks_or_quotes {c : UInt8} (h : plainByte c = false) :
    c = 0 ∨ (c = 32 ∨ c = lf ∨ c = cr ∨ c = 9) ∨ c = dquote ∨ c = squote := by
  by_contra hc
  simp only [not_or] at hc
  obtain ⟨h0, ⟨h32, h10, h13, h9⟩, h34, h39⟩ := hc
  have hplain := plainByte_iff.2 ⟨h0, h32, h9, h10, h13, h34, h39⟩
  rw [h] at hplain
  cases hplain

/-- Plain bytes that do not begin with a blank of any kind. -/
theorem plain_of_isspace {c : UInt8} {u : Bytes} (h : ∀ x ∈ c :: u, plainByte x = true)
    (hc : isspace c = false) : Plain (c :: u) := by
  have hne : ∀ x : UInt8, isspace x = true → c ≠ x := by
    rintro x hx rfl
    rw [hc] at hx
    cases hx
  exact ⟨h, (plainByte_iff.1 (h c (List.mem_cons_self ..))).1, hne 11 (by decide), hne 12 (by decide)⟩

/-- The line behind an argument: its end, or the length of the next argument. -/
theorem flatMap_encodeArg_cases (args : List Bytes) :
    args.flatMap encodeArg = [] ∨ ∃ ds rest, args.flatMap encodeArg = 36 :: ds ++ cr :: lf :: rest ∧
      ∀ x ∈ ds, isDigit x = true := by
  cases args with
  | nil => exact .inl rfl
  | cons a args =>
    refine .inr ⟨fmtBytes (.uint a.length), a ++ [cr, lf] ++ args.flatMap encodeArg, ?_,
      fun x hx => isDigit_of_mem_uint hx⟩
    rw [List.flatMap_cons, encodeArg]
    simp

/-- Behind an argument of blanks the next token is the length of the argument after it. -/
theorem cstr_ne_of_blanks {a t r : Bytes} {args : List Bytes} (ha : ∀ c ∈ a, isspace c = true)
    (h0 : readByte ((args.flatMap encodeArg).dropWhile isspace) 0 ≠ 0)
    (h : Reads .plain ((args.flatMap encodeArg).dropWhile isspace) t r) : cstr t ≠ a := by
  rintro rfl
  rcases flatMap_encodeArg_cases args with hnil | ⟨ds, rest, hcons, hds⟩
  · rw [hnil] at h0
    exact h0 rfl
  · have hnum : Plain (36 :: ds) := plain_number (.inl rfl) hds
    rw [hcons, dropWhile_of_readByte rfl] at h
    obtain ⟨d, rfl, hd⟩ := (reads_plain_append_iff hnum.1).1 h
    obtain ⟨rfl, -⟩ := hd.of_blank (.inr (.inr (.inl rfl)))
    rw [List.append_nil, cstr_of_zero_not_mem hnum.zero_not_mem] at ha
    exact absurd (ha 36 (List.mem_cons_self ..)) (by decide)

/-- An argument as the tokenizer meets it: blanks of any kind, a run of plain bytes that does not
begin with one, and a rest that begins with a byte the run stops at. -/
theorem exists_run (a : Bytes) : ∃ sp u w, a = sp ++ (u ++ w) ∧ (∀ c ∈ sp, isspace c = true) ∧
    (∀ c ∈ u, plainByte c = true) ∧ (∀ c ∈ (u ++ w).head?, isspace c = false) ∧
    ∀ c ∈ w.head?, plainByte c = false := by
  have hb := (List.takeWhile_append_dropWhile (p := isspace) (l := a)).symm
  have hrun := (List.takeWhile_append_dropWhile (p := plainByte) (l := a.dropWhile isspace)).symm
  refine ⟨a.takeWhile isspace, (a.dropWhile isspace).takeWhile plainByte,
    (a.dropWhile isspace).dropWhile plainByte, ?_, fun c hc => List.mem_takeWhile_imp hc,
    fun c hc => List.mem_takeWhile_imp hc, fun c hc => ?_, fun c hc => ?_⟩
  · rw [← hrun]
    exact hb
  · rw [← hrun] at hc
    have hhead := List.head?_dropWhile_not isspace a
    rw [Option.mem_def.1 hc] at hhead
    simpa using hhead
  · have hstop := List.head?_dropWhile_not plainByte (a.dropWhile isspace)
    rw [Option.mem_def.1 hc] at hstop
    simpa using hstop

/-- A quote in an argument, with the blanks `sp` and the run `u` before it: the token is not the
argument. -/
theorem cstr_ne_of_quote {sp u w d r : Bytes} {c : UInt8} {args : List Bytes}
    (hsp : ∀ x ∈ sp, isspace x = true) (hu : ∀ x ∈ u.head?, isspace x = false)
    (hc : c = dquote ∨ c = squote)
    (hd : Reads .plain (c :: (w ++ cr :: lf :: args.flatMap encodeArg)) d r) :
    u ++ cstr d ≠ sp ++ (u ++ c :: w) := by
  obtain ⟨m, hm, hd⟩ := hd.of_quote hc
  have hrest : args.flatMap encodeArg = [] ∨ ∃ rest, args.flatMap encodeArg = 36 :: rest := by
    rcases flatMap_encodeArg_cases args with hnil | ⟨ds, rest, hcons, -⟩
    · exact .inl hnil
    · exact .inr ⟨_, hcons⟩
  have hcdollar : (36 : UInt8) ∉ [c] := by
    rcases hc with rfl | rfl <;> decide
  have hspdollar : (36 : UInt8) ∉ sp := fun hmem => absurd (hsp 36 hmem) (by decide)
  intro ht
  cases u with
  | nil =>
    refine cstr_ne_of_quoted (sp ++ [c]) hd hm hrest (by simp) ?_ ?_
    · exact fun hmem => (List.mem_append.1 hmem).elim hspdollar hcdollar
    · rw [List.append_assoc]
      exact ht
  | cons u0 u =>
    cases sp with
    | nil =>
      apply cstr_ne_of_quoted [c] hd hm hrest (by simp) hcdollar
      exact List.append_cancel_left ht
    | cons s0 sp =>
      -- the first byte of the token is no blank, so no blank stands before it
      have hs0 : isspace u0 = true := by
        rw [(List.cons.inj ht).1]
        exact hsp s0 (List.mem_cons_self ..)
      rw [hu u0 rfl] at hs0
      cases hs0

/-- An argument without NUL that comes back, up to a NUL, as the first token of the line is plain. -/
theorem plain_of_tokens {a t : Bytes} {args ts : List Bytes} (hzero : (0 : UInt8) ∉ a)
    (h : Tokens (a ++ cr :: lf :: args.flatMap encodeArg) (t :: ts)) (ht : cstr t = a) : Plain a := by
  obtain ⟨sp, u, w, hsplit, hsp, hu, hhead, hstop⟩ := exists_run a
  rcases h with _ | ⟨h0, hr, -⟩
  have hskip : ∀ q, (sp ++ q).dropWhile isspace = q.dropWhile isspace := fun q =>
    List.dropWhile_append_of_pos hsp
  rw [hsplit, List.append_assoc, hskip] at h0 hr
  cases huw : u ++ w with
  | nil =>
    -- nothing but blanks: the token read is the next argument's length
    rw [huw] at h0 hr
    rw [hsplit, huw, List.append_nil] at ht
    exact absurd ht (cstr_ne_of_blanks hsp h0 hr)
  | cons b0 b =>
    rw [huw] at hhead
    have hb0 : isspace b0 = false := hhead b0 rfl
    rw [huw, List.cons_append, List.dropWhile_cons_of_neg (by simp [hb0]), ← List.cons_append, ← huw,
      List.append_assoc] at hr
    obtain ⟨d, rfl, hd⟩ := (reads_plain_append_iff hu).1 hr
    rw [cstr_append fun hmem => absurd (hu 0 hmem) (by decide)] at ht
    cases w with
    | nil =>
      obtain ⟨rfl, -⟩ := hd.of_blank (.inr (.inr (.inl rfl)))
      obtain rfl : u = b0 :: b := (List.append_nil u).symm.trans huw
      have ha : b0 :: b = a := (List.append_nil _).symm.trans ht
      rw [← ha]
      exact plain_of_isspace hu hb0
    | cons c w =>
      rcases mem_blanks_or_quotes (hstop c rfl) with rfl | hblank | hquote
      · refine absurd ?_ hzero
        rw [hsplit]
        simp
      · -- the token ends before the blank, so it is shorter than the argument
        obtain ⟨rfl, -⟩ := hd.of_blank hblank
        have hlen := congrArg List.length (ht.trans hsplit)
        simp only [cstr, List.takeWhile_nil, List.length_append, List.length_nil, List.length_cons]
          at hlen
        omega
      · refine absurd (ht.trans hsplit) (cstr_ne_of_quote hsp (fun x hx => ?_) hquote hd)
        cases u with
        | nil => cases hx
        | cons u0 u => exact hhead x (by rw [← huw]; exact hx)

/-! ## All arguments -/

/-- The tokens of an encoded argument list: when each argument comes back at its place, up to a NUL,
all are plain. -/
theorem forall_plain_of_tokens {args : List Bytes} (hzero : ∀ a ∈ args, (0 : UInt8) ∉ a)
    {ts : List Bytes} (h : Tokens (args.flatMap encodeArg) ts)
    (hts : ∀ i a, args[i]? = some a → ∃ t, ts[2 * i + 1]? = some t ∧ cstr t = a) :
    ∀ a ∈ args, Plain a := by
  induction args generalizing ts with
  | nil => simp
  | cons a args ih =>
    have hnum : Plain (36 :: fmtBytes (.uint a.length)) :=
      plain_number (.inl rfl) fun x hx => isDigit_of_mem_uint hx
    have heq : (a :: args).flatMap encodeArg
        = 36 :: fmtBytes (.uint a.length) ++ cr :: lf :: (a ++ cr :: lf :: args.flatMap encodeArg) := by
      rw [List.flatMap_cons, encodeArg]
      simp
    rw [heq] at h
    obtain ⟨ts1, rfl, h1⟩ := hnum.of_tokens h
    obtain ⟨t, ht, hta⟩ := hts 0 a rfl
    obtain ⟨t', ts2, rfl⟩ : ∃ t' ts2, ts1 = t' :: ts2 := by
      cases ts1 with
      | nil => cases ht
      | cons t' ts2 => exact ⟨t', ts2, rfl⟩
    obtain rfl : t' = t := Option.some.inj ht
    have ha := plain_of_tokens (hzero a (List.mem_cons_self ..)) h1 hta
    obtain ⟨ts3, hcons, h3⟩ := ha.of_tokens h1
    obtain ⟨-, rfl⟩ := List.cons.inj hcons
    refine List.forall_mem_cons.2 ⟨ha, ih (fun b hb => hzero b (List.mem_cons_of_mem a hb)) h3 ?_⟩
    exact fun i b hb => hts (i + 1) b hb

/-! ## What `commandServer` acts on -/

/-- The parsing loop leaves the arguments in the variables: the first in `action`, the second in
`cKey->ptr`, and the third, if there is one, in `cVal->ptr`. -/
def ActsOn (inbuf : Bytes) (args : List Bytes) : Prop :=
  let slots := parseSlots ((sdssplitargs inbuf).getD [])
  slots.action.map Sds.content = args[0]? ∧ slots.key.content = args[1]? ∧
    (args.length = 3 → slots.val.content = args[2]?)

instance (inbuf : Bytes) (args : List Bytes) : Decidable (ActsOn inbuf args) := by
  unfold ActsOn
  infer_instance

theorem actsOn_iff {inbuf : Bytes} {ts : List Bytes} (hts : Tokens inbuf ts) (args : List Bytes) :
    ActsOn inbuf args ↔ ts[2]?.map cstr = args[0]? ∧ ts[4]? = args[1]? ∧
      (args.length = 3 → ts[6]? = args[2]?) := by
  have hsplit := (sdssplitargs_eq_some_iff inbuf (ts.map sdsOf)).2 ⟨ts, hts, rfl⟩
  have haction : (ts[2]?.map fun d => sdsnew (sdsOf d).buf).map Sds.content = ts[2]?.map cstr := by
    rcases ts[2]? with _ | d
    · rfl
    · exact congrArg some (by rw [content_sdsnew, (wf_sdsOf d).cstr_buf, content_sdsOf])
  simp only [ActsOn, hsplit, Option.getD_some, parseSlots_of_tokens, haction, content_slotPtr]

/-- A line that cannot be split leaves no action. -/
theorem tokens_of_actsOn {inbuf : Bytes} {args : List Bytes} (h : ActsOn inbuf args)
    (hargs : args ≠ []) : ∃ ts, Tokens inbuf ts := by
  rcases hsplit : sdssplitargs inbuf with _ | toks
  · have haction := h.1
    rw [hsplit] at haction
    cases args with
    | nil => exact absurd rfl hargs
    | cons a args => cases haction
  · obtain ⟨ts, hts, -⟩ := (sdssplitargs_eq_some_iff inbuf toks).1 hsplit
    exact ⟨ts, hts⟩

/-- The server acts on the arguments of an encoded line only if they are plain up to their NULs. -/
theorem plain_cstr_of_actsOn {args : List Bytes} (hargc : args.length = 2 ∨ args.length = 3)
    (h : ActsOn (encode (args.map cstr)) args) : ∀ a ∈ args.map cstr, Plain a := by
  have hne : args ≠ [] := by
    rintro rfl
    simp at hargc
  obtain ⟨ts, hts⟩ := tokens_of_actsOn h hne
  obtain ⟨haction, hkey, hval⟩ := (actsOn_iff hts args).1 h
  have hzero : ∀ a ∈ args.map cstr, (0 : UInt8) ∉ a := by
    intro a ha
    obtain ⟨b, -, rfl⟩ := List.mem_map.1 ha
    exact zero_not_mem_cstr b
  have hnum : Plain (42 :: fmtBytes (.int (args.map cstr).length)) :=
    plain_number (.inr rfl) fun x hx => isDigit_of_mem_int hx
  have heq : encode (args.map cstr) = 42 :: fmtBytes (.int (args.map cstr).length) ++ cr :: lf ::
      (args.map cstr).flatMap encodeArg := by
    rw [encode]
    simp
  rw [heq] at hts
  obtain ⟨ts', rfl, hts'⟩ := hnum.of_tokens hts
  apply forall_plain_of_tokens hzero hts'
  intro i a ha
  rw [List.getElem?_map, Option.map_eq_some_iff] at ha
  obtain ⟨b, hb, rfl⟩ := ha
  have hi : i < args.length := (List.getElem?_eq_some_iff.1 hb).1
  rcases i with _ | _ | _ | i
  · rw [hb, Option.map_eq_some_iff] at haction
    obtain ⟨t, ht, rfl⟩ := haction
    exact ⟨t, ht, (cstr_of_zero_not_mem (zero_not_mem_cstr t)).symm⟩
  · exact ⟨b, hkey.trans hb, rfl⟩
  · exact ⟨b, (hval (by omega)).trans hb, rfl⟩
  · omega

@[simp] theorem cstr_cstr (p : Bytes) : cstr (cstr p) = cstr p :=
  cstr_of_zero_not_mem (zero_not_mem_cstr p)

/-- Where the arguments are plain up to their NULs, the server acts on them exactly when they hold no
NUL. -/
theorem actsOn_encode_iff {args : List Bytes} (hargc : args.length = 2 ∨ args.length = 3)
    (hplain : ∀ a ∈ args.map cstr, Plain a) :
    ActsOn (encode (args.map cstr)) args ↔ args.map cstr = args := by
  rw [actsOn_iff (tokens_encode hplain)]
  rcases hargc with hlen | hlen
  · obtain ⟨a1, a2, rfl⟩ := List.length_eq_two.1 hlen
    have haction : ([a1, a2].map cstr)[0]?.map cstr = some (cstr a1) := congrArg some (cstr_cstr a1)
    constructor
    · rintro ⟨h1, h2, -⟩
      have h1 : cstr a1 = a1 := Option.some.inj (haction.symm.trans h1)
      have h2 : cstr a2 = a2 := Option.some.inj h2
      rw [List.map_cons, List.map_cons, h1, h2]
      rfl
    · intro h
      obtain ⟨h1, h2⟩ := List.cons.inj h
      exact ⟨haction.trans (congrArg some h1), congrArg some (List.cons.inj h2).1,
        fun h3 => by simp at h3⟩
  · obtain ⟨a1, a2, a3, rfl⟩ := List.length_eq_three.1 hlen
    have haction : ([a1, a2, a3].map cstr)[0]?.map cstr = some (cstr a1) :=
      congrArg some (cstr_cstr a1)
    constructor
    · rintro ⟨h1, h2, h3⟩
      have h1 : cstr a1 = a1 := Option.some.inj (haction.symm.trans h1)
      have h2 : cstr a2 = a2 := Option.some.inj h2
      have h3 : cstr a3 = a3 := Option.some.inj (h3 rfl)
      rw [List.map_cons, List.map_cons, List.map_cons, h1, h2, h3]
      rfl
    · intro h
      obtain ⟨h1, h⟩ := List.cons.inj h
      obtain ⟨h2, h3⟩ := List.cons.inj h
      exact ⟨haction.trans (congrArg some h1), congrArg some h2,
        fun _ => congrArg some (List.cons.inj h3).1⟩

/-- For every line of two or three arguments: what the server acts on when the client sends the line
is what the line says exactly when all its arguments are plain. -/
theorem actsOn_clientBuf_iff (line : Bytes) (argv : List Sds) (hsplit : sdssplitargs line = some argv)
    (hargc : argv.length = 2 ∨ argv.length = 3) :
    ActsOn (clientBuf (argv.map Sds.buf)).content (argv.map Sds.content) ↔
      ∀ arg ∈ argv, Plain arg.content := by
  obtain ⟨args, -, rfl⟩ := (sdssplitargs_eq_some_iff line argv).1 hsplit
  rw [List.length_map] at hargc
  have hcontent : (args.map sdsOf).map Sds.content = args := by
    simp [Function.comp_def]
  have hbuf : ((args.map sdsOf).map Sds.buf).map cstr = args.map cstr := by
    simp only [List.map_map]
    apply List.map_congr_left
    intro a _
    show cstr (sdsOf a).buf = cstr a
    rw [(wf_sdsOf a).cstr_buf, content_sdsOf]
  rw [(clientBuf_spec _).2, hcontent, hbuf]
  simp only [List.forall_mem_map, content_sdsOf]
  constructor
  · intro h
    have hplain := plain_cstr_of_actsOn hargc h
    rwa [(actsOn_encode_iff hargc hplain).1 h] at hplain
  · intro h
    have hcstr : args.map cstr = args :=
      (List.map_congr_left fun a ha => cstr_of_zero_not_mem (h a ha).zero_not_mem).trans
        (List.map_id args)
    refine (actsOn_encode_iff hargc ?_).2 hcstr
    rwa [hcstr]

/-- The line `set k 12` arrives as it was typed. -/
theorem actsOn_set_line :
    ActsOn (clientBuf ([SET, ascii ['k'], ascii ['1', '2']].map fun a => (sdsOf a).buf)).content
      [SET, ascii ['k'], ascii ['1', '2']] := by
  have hsplit : sdssplitargs (ascii "set k 12\n".toList)
      = some ([SET, ascii ['k'], ascii ['1', '2']].map sdsOf) := by decide +kernel
  have hiff := actsOn_clientBuf_iff _ _ hsplit (.inr rfl)
  have hplain : ∀ arg ∈ [SET, ascii ['k'], ascii ['1', '2']].map sdsOf, Plain arg.content := by
    decide +kernel
  have h := hiff.2 hplain
  rwa [List.map_map, List.map_map, Function.comp_def, Function.comp_def] at h

/-- The line `set k "a b"` does not: the server sets `k` to `a`. -/
theorem not_actsOn_quoted_value :
    sdssplitargs (ascii "set k \"a b\"\n".toList)
        = some ([SET, ascii ['k'], ascii ['a', ' ', 'b']].map sdsOf) ∧
      ¬ ActsOn (clientBuf ([SET, ascii ['k'], ascii ['a', ' ', 'b']].map fun a => (sdsOf a).buf)).content
        [SET, ascii ['k'], ascii ['a', ' ', 'b']] ∧
      ActsOn (clientBuf ([SET, ascii ['k'], ascii ['a', ' ', 'b']].map fun a => (sdsOf a).buf)).content
        [SET, ascii ['k'], ascii ['a']] := by
  exact ⟨by decide +kernel, by decide +kernel, by decide +kernel⟩

end RedisCounter
