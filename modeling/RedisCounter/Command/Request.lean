import RedisCounter.Command.Basic

/-!
# Requests as the client encodes them

What `clientBuf` puts out, and how the server's tokenizer reads it: for plain arguments the tokens
are the count, and a length and the argument itself for each, so the arguments stand at the
positions 2, 4, 6, … that `commandServer` looks at.
-/

namespace RedisCounter

open Decimal

/-! ## The encoding -/

/-- One argument: `$`, its length, and the argument, each ended by CRLF. -/
def encodeArg (arg : Bytes) : Bytes :=
  36 :: fmtBytes (.uint arg.length) ++ [cr, lf] ++ arg ++ [cr, lf]

/-- A request: `*`, the number of arguments, CRLF, and the arguments. -/
def encode (args : List Bytes) : Bytes :=
  42 :: fmtBytes (.int args.length) ++ [cr, lf] ++ args.flatMap encodeArg

theorem flatMap_clientBuf_format (c : UInt8) (f : FmtPiece) :
    (FmtPiece.char c :: f :: FmtPiece.lit [cr, lf]).flatMap fmtBytes
      = c :: fmtBytes f ++ [cr, lf] := by
  rw [List.flatMap_cons, List.flatMap_cons, flatMap_lit]
  simp [fmtBytes]

/-- `clientBuf` appends the encoding of each argument up to its NUL. -/
theorem clientBuf_spec (argv : List Bytes) :
    (clientBuf argv).Wf ∧ (clientBuf argv).content = encode (argv.map cstr) := by
  have hfold : ∀ (cmd : Sds), cmd.Wf →
      (argv.foldl (fun cmd arg =>
        let len := strlen arg
        let cmd := sdscatfmt cmd (FmtPiece.char 36 :: .uint len :: FmtPiece.lit [cr, lf])
        sdscatlen (sdscatlen cmd (arg.take len)) [cr, lf]) cmd).Wf ∧
      (argv.foldl (fun cmd arg =>
        let len := strlen arg
        let cmd := sdscatfmt cmd (FmtPiece.char 36 :: .uint len :: FmtPiece.lit [cr, lf])
        sdscatlen (sdscatlen cmd (arg.take len)) [cr, lf]) cmd).content
        = cmd.content ++ (argv.map cstr).flatMap encodeArg := by
    induction argv with
    | nil => exact fun cmd hcmd => ⟨hcmd, by simp⟩
    | cons arg argv ih =>
      intro cmd hcmd
      obtain ⟨hwf, hcontent⟩ :=
        sdscatfmt_spec hcmd (FmtPiece.char 36 :: .uint (strlen arg) :: FmtPiece.lit [cr, lf])
      have hwf' := hwf.wf_sdscatlen (arg.take (strlen arg))
      obtain ⟨hrest, hrest'⟩ := ih _ (hwf'.wf_sdscatlen [cr, lf])
      have htake : arg.take (strlen arg) = cstr arg :=
        (List.prefix_iff_eq_take.1 (List.takeWhile_prefix _)).symm
      refine ⟨hrest, hrest'.trans ?_⟩
      rw [hwf'.content_sdscatlen, hwf.content_sdscatlen, hcontent, flatMap_clientBuf_format, htake,
        List.map_cons, List.flatMap_cons, encodeArg]
      simp [strlen]
  obtain ⟨hwf, hcontent⟩ :=
    sdscatfmt_spec wf_sdsempty (FmtPiece.char 42 :: .int argv.length :: FmtPiece.lit [cr, lf])
  obtain ⟨hwf', hcontent'⟩ := hfold _ hwf
  refine ⟨hwf', hcontent'.trans ?_⟩
  rw [hcontent, flatMap_clientBuf_format, content_sdsempty, encode]
  simp

/-- A request without NUL reaches the server as it was encoded. -/
theorem content_clientBuf {args : List Bytes} (h : ∀ a ∈ args, (0 : UInt8) ∉ a) :
    (clientBuf args).content = encode args := by
  have hmap : args.map cstr = args :=
    (List.map_congr_left fun a ha => cstr_of_zero_not_mem (h a ha)).trans (List.map_id args)
  rw [(clientBuf_spec args).2, hmap]

/-! ## Plain arguments -/

/-- A byte that is part of a token wherever it stands in it. -/
def plainByte (c : UInt8) : Bool :=
  c != 0 && c != 32 && c != 9 && c != 10 && c != 13 && c != 34 && c != 39

/-- Not empty, without NUL, blank, tab, CR, LF and quotes, and not beginning with `\v` or `\f`. -/
def Plain (arg : Bytes) : Prop :=
  (∀ c ∈ arg, plainByte c = true) ∧ readByte arg 0 ≠ 0 ∧ readByte arg 0 ≠ 11 ∧ readByte arg 0 ≠ 12

instance (arg : Bytes) : Decidable (Plain arg) :=
  decidable_of_iff (arg.all plainByte = true ∧ readByte arg 0 ≠ 0 ∧ readByte arg 0 ≠ 11 ∧
    readByte arg 0 ≠ 12) (by rw [List.all_eq_true, Plain])

theorem plainByte_iff {c : UInt8} : plainByte c = true ↔
    c ≠ 0 ∧ c ≠ 32 ∧ c ≠ 9 ∧ c ≠ 10 ∧ c ≠ 13 ∧ c ≠ 34 ∧ c ≠ 39 := by
  simp [plainByte, and_assoc]

theorem Plain.zero_not_mem {arg : Bytes} (h : Plain arg) : (0 : UInt8) ∉ arg := fun hmem => by
  have := h.1 0 hmem
  simp [plainByte] at this

theorem Plain.ne_nil {arg : Bytes} (h : Plain arg) : arg ≠ [] := by
  rintro rfl
  exact h.2.1 rfl

/-- A plain argument does not begin with a blank of any kind. -/
theorem Plain.isspace_readByte {arg : Bytes} (h : Plain arg) : isspace (readByte arg 0) = false := by
  obtain ⟨c, t, rfl⟩ := List.exists_cons_of_ne_nil h.ne_nil
  have hc := plainByte_iff.1 (h.1 c (List.mem_cons_self ..))
  have h11 : c ≠ 11 := h.2.2.1
  have h12 : c ≠ 12 := h.2.2.2
  show isspace c = false
  simp only [isspace, Bool.or_eq_false_iff, Bool.and_eq_false_iff, decide_eq_false_iff_not,
    beq_eq_false_iff_ne, ne_eq, UInt8.le_iff_toNat_le, ← UInt8.toNat_inj] at hc h11 h12 ⊢
  have h9 : (9 : UInt8).toNat = 9 := rfl
  have h13 : (13 : UInt8).toNat = 13 := rfl
  have h10 : (10 : UInt8).toNat = 10 := rfl
  have h11' : (11 : UInt8).toNat = 11 := rfl
  have h12' : (12 : UInt8).toNat = 12 := rfl
  omega

/-! ## Tokens of an encoding -/

theorem tokenStep_plainByte {c : UInt8} (h : plainByte c = true) (p : Bytes) :
    tokenStep .plain (c :: p) = .emit c p := by
  obtain ⟨h0, h32, h9, h10, h13, h34, h39⟩ := plainByte_iff.1 h
  simp [tokenStep, readByte, h0, h32, h9, h10, h13, h34, h39]

theorem tokenStep_blank {c : UInt8} (hc : c = 32 ∨ c = lf ∨ c = cr ∨ c = 9) (p : Bytes) :
    tokenStep .plain (c :: p) = .done p := by
  rcases hc with rfl | rfl | rfl | rfl <;> rfl

/-- A token begins with the plain bytes it is read from. -/
theorem reads_plain_append_iff {u p r : Bytes} (hu : ∀ c ∈ u, plainByte c = true) {t : Bytes} :
    Reads .plain (u ++ p) t r ↔ ∃ d, t = u ++ d ∧ Reads .plain p d r := by
  induction u generalizing t with
  | nil => simp
  | cons c u ih =>
    have hrest := fun t => ih (fun x hx => hu x (List.mem_cons_of_mem c hx)) (t := t)
    exact reads_emit_append (tokenStep_plainByte (hu c (List.mem_cons_self ..)) (u ++ p)) hrest t

/-- A blank outside quotes ends the token and is used up. -/
theorem Reads.of_blank {c : UInt8} {p t r : Bytes} (hc : c = 32 ∨ c = lf ∨ c = cr ∨ c = 9)
    (h : Reads .plain (c :: p) t r) : t = [] ∧ r = p :=
  (reads_done_iff (tokenStep_blank hc p)).1 h

/-- A run of plain bytes ends at a blank, which is used up. -/
theorem reads_plain {a : Bytes} (h : ∀ c ∈ a, plainByte c = true) {c : UInt8} (r : Bytes)
    (hc : c = 32 ∨ c = lf ∨ c = cr ∨ c = 9) : Reads .plain (a ++ c :: r) a r :=
  (reads_plain_append_iff h).2 ⟨[], (List.append_nil a).symm, .done (tokenStep_blank hc r)⟩

theorem dropWhile_of_readByte {p : Bytes} (h : isspace (readByte p 0) = false) :
    p.dropWhile isspace = p := by
  cases p with
  | nil => rfl
  | cons c p => exact List.dropWhile_cons_of_neg (by simpa [readByte] using h)

/-- Leading blanks do not matter. -/
theorem Tokens.cons_isspace {c : UInt8} {p : Bytes} {ts : List Bytes} (hc : isspace c = true)
    (h : Tokens p ts) : Tokens (c :: p) ts := by
  have hdrop : (c :: p).dropWhile isspace = p.dropWhile isspace := List.dropWhile_cons_of_pos hc
  cases h with
  | nil h0 => exact .nil (by rwa [hdrop])
  | cons h0 hr ht => exact .cons (by rwa [hdrop]) (by rwa [hdrop]) ht

theorem Tokens.of_cons_isspace {c : UInt8} {p : Bytes} {ts : List Bytes} (hc : isspace c = true)
    (h : Tokens (c :: p) ts) : Tokens p ts := by
  have hdrop : (c :: p).dropWhile isspace = p.dropWhile isspace := List.dropWhile_cons_of_pos hc
  cases h with
  | nil h0 => exact .nil (hdrop ▸ h0)
  | cons h0 hr ht => exact .cons (hdrop ▸ h0) (hdrop ▸ hr) ht

/-- A plain argument and CRLF in front of a line are one token more. -/
theorem Plain.tokens_cons {a r : Bytes} {ts : List Bytes} (ha : Plain a) (h : Tokens r ts) :
    Tokens (a ++ cr :: lf :: r) (a :: ts) := by
  obtain ⟨c, t, rfl⟩ := List.exists_cons_of_ne_nil ha.ne_nil
  have hspace : isspace (readByte (c :: t ++ cr :: lf :: r) 0) = false := ha.isspace_readByte
  have hdrop := dropWhile_of_readByte hspace
  have hne : readByte (c :: t ++ cr :: lf :: r) 0 ≠ 0 := ha.2.1
  have hread : Reads .plain (c :: t ++ cr :: lf :: r) (c :: t) (lf :: r) :=
    reads_plain ha.1 _ (.inr (.inr (.inl rfl)))
  exact .cons (by rwa [hdrop]) (by rwa [hdrop]) (h.cons_isspace (by decide))

theorem tokens_nil : Tokens [] [] := .nil rfl

/-- The number tokens: `*` or `$` and digits. -/
theorem plain_number {c : UInt8} (hc : c = 36 ∨ c = 42) {ds : Bytes}
    (hds : ∀ x ∈ ds, isDigit x = true) : Plain (c :: ds) := by
  have hdigit : ∀ x : UInt8, isDigit x = true → plainByte x = true := by
    intro x hx
    rw [isDigit_iff] at hx
    rw [plainByte_iff]
    refine ⟨?_, ?_, ?_, ?_, ?_, ?_, ?_⟩ <;> rintro rfl <;> revert hx <;> decide
  refine ⟨fun x hx => ?_, ?_⟩
  · rcases List.mem_cons.1 hx with rfl | hx
    · rcases hc with rfl | rfl <;> rfl
    · exact hdigit x (hds x hx)
  · rcases hc with rfl | rfl <;> simp [readByte]

theorem isDigit_of_mem_sdsDigits {fuel v : ℕ} {c : UInt8} (h : c ∈ sdsDigits fuel v) :
    isDigit c = true := by
  rw [sdsDigits_eq] at h
  exact isDigit_of_mem_revText h

theorem isDigit_of_mem_uint {n : ℕ} {c : UInt8} (h : c ∈ fmtBytes (.uint n)) : isDigit c = true := by
  simp only [fmtBytes, sdsull2str, sdsWriteReversed_spec] at h
  rw [List.take_left' (by simp)] at h
  exact isDigit_of_mem_sdsDigits (List.mem_reverse.1 h)

theorem isDigit_of_mem_int {n : ℕ} {c : UInt8} (h : c ∈ fmtBytes (.int n)) : isDigit c = true := by
  have hneg : ¬ (n : ℤ) < 0 := by omega
  simp only [fmtBytes, sdsll2str, sdsWriteReversed_spec, hneg, if_false, List.append_nil] at h
  rw [List.take_left' (by simp)] at h
  exact isDigit_of_mem_sdsDigits (List.mem_reverse.1 h)

/-- The tokens of the arguments of a request. -/
def argTokens (args : List Bytes) : List Bytes :=
  args.flatMap fun a => [36 :: fmtBytes (.uint a.length), a]

theorem tokens_encodeArgs {args : List Bytes} (h : ∀ a ∈ args, Plain a) {r : Bytes} {ts : List Bytes}
    (hr : Tokens r ts) : Tokens (args.flatMap encodeArg ++ r) (argTokens args ++ ts) := by
  induction args with
  | nil => exact hr
  | cons a args ih =>
    have hrest := ih fun b hb => h b (List.mem_cons_of_mem a hb)
    have harg := (h a (List.mem_cons_self ..)).tokens_cons hrest
    have hnum : Plain (36 :: fmtBytes (.uint a.length)) :=
      plain_number (.inl rfl) fun x hx => isDigit_of_mem_uint hx
    have heq : (a :: args).flatMap encodeArg ++ r = 36 :: fmtBytes (.uint a.length) ++ cr :: lf ::
        (a ++ cr :: lf :: (args.flatMap encodeArg ++ r)) := by
      rw [List.flatMap_cons, encodeArg]
      simp
    rw [heq]
    exact hnum.tokens_cons harg

/-- The tokens of a request with plain arguments, in front of a line. -/
theorem tokens_encode_append {args : List Bytes} (h : ∀ a ∈ args, Plain a) {r : Bytes}
    {ts : List Bytes} (hr : Tokens r ts) :
    Tokens (encode args ++ r) ((42 :: fmtBytes (.int args.length)) :: (argTokens args ++ ts)) := by
  have hnum : Plain (42 :: fmtBytes (.int args.length)) :=
    plain_number (.inr rfl) fun x hx => isDigit_of_mem_int hx
  have heq : encode args ++ r
      = 42 :: fmtBytes (.int args.length) ++ cr :: lf :: (args.flatMap encodeArg ++ r) := by
    rw [encode]
    simp
  rw [heq]
  exact hnum.tokens_cons (tokens_encodeArgs h hr)

/-- The tokens of a request with plain arguments. -/
theorem tokens_encode {args : List Bytes} (h : ∀ a ∈ args, Plain a) :
    Tokens (encode args) ((42 :: fmtBytes (.int args.length)) :: argTokens args) := by
  have htokens := tokens_encode_append h tokens_nil
  rwa [List.append_nil, List.append_nil] at htokens

end RedisCounter
