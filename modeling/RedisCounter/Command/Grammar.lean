import RedisCounter.Command.Request
import RedisCounter.Sds.Checked

/-!
# The grammar of a request line

A line is a list of tokens between blanks. A token is a run of plain bytes and perhaps one quoted part,
which ends it; behind the closing quote stands a blank or nothing. A line is broken when a quoted part
has no closing quote, or when something else stands behind it. Every line is one or the other, and
`sdssplitargs` tells which: the lines it returns tokens for are those of the grammar, with the tokens
the grammar gives them.

The relations are on the bytes of the line in front of its NUL, have tables of their own for blanks,
digits and escapes, and do not mention the scanner. What counts as a blank differs: any of the six
blanks in front of a token and behind a quote, but only the four of them that are not plain bytes
behind a plain one.
-/

namespace RedisCounter

/-! ## The grammar -/

/-- The blanks: space, `\t`, `\n`, `\v`, `\f` and `\r`. -/
def spaces : Bytes := [32, 9, 10, 11, 12, 13]

/-- The hexadecimal digits with their values: `0` to `9`, `a` to `f` and `A` to `F`. -/
def hexValues : List (UInt8 × UInt8) :=
  [(48, 0), (49, 1), (50, 2), (51, 3), (52, 4), (53, 5), (54, 6), (55, 7), (56, 8), (57, 9),
    (97, 10), (98, 11), (99, 12), (100, 13), (101, 14), (102, 15),
    (65, 10), (66, 11), (67, 12), (68, 13), (69, 14), (70, 15)]

/-- The letters that stand for another byte behind a backslash: `n`, `r`, `t`, `b` and `a`. -/
def escapes : List (UInt8 × UInt8) := [(110, 10), (114, 13), (116, 9), (98, 8), (97, 7)]

/-- Two hexadecimal digits in front. -/
def TwoHex : Bytes → Prop
  | a :: b :: _ => a ∈ hexValues.map Prod.fst ∧ b ∈ hexValues.map Prod.fst
  | _ => False

/-- The text between two quotes `q`, and the bytes it stands for. -/
inductive Quoted : UInt8 → Bytes → Bytes → Prop
  | nil {q : UInt8} : Quoted q [] []
  /-- `\xHH` -/
  | hex {a b x y : UInt8} {t d : Bytes} (ha : (a, x) ∈ hexValues) (hb : (b, y) ∈ hexValues)
      (h : Quoted dquote t d) : Quoted dquote (bslash :: 120 :: a :: b :: t) ((x * 16 + y) :: d)
  | escape {c x : UInt8} {t d : Bytes} (hc : (c, x) ∈ escapes) (h : Quoted dquote t d) :
      Quoted dquote (bslash :: c :: t) (x :: d)
  /-- A backslash and any other byte, the quote included. -/
  | other {c : UInt8} {t d : Bytes} (hc : c ∉ escapes.map Prod.fst) (hx : ¬ (c = 120 ∧ TwoHex t))
      (h : Quoted dquote t d) : Quoted dquote (bslash :: c :: t) (c :: d)
  | double {c : UInt8} {t d : Bytes} (hb : c ≠ bslash) (hq : c ≠ dquote) (h : Quoted dquote t d) :
      Quoted dquote (c :: t) (c :: d)
  /-- Between single quotes the backslash escapes the quote only. -/
  | escapedQuote {t d : Bytes} (h : Quoted squote t d) :
      Quoted squote (bslash :: squote :: t) (squote :: d)
  | single {c : UInt8} {t d : Bytes} (hq : c ≠ squote)
      (hb : c = bslash → (t ++ [squote]).head? ≠ some squote) (h : Quoted squote t d) :
      Quoted squote (c :: t) (c :: d)

def Blanks (b : Bytes) : Prop := ∀ c ∈ b, c ∈ spaces

/-- A run of plain bytes that the blanks in front do not take in. -/
structure PlainRun (w : Bytes) : Prop where
  plain : ∀ c ∈ w, c ∉ [0, 32, lf, cr, 9, dquote, squote]
  start : ∀ c ∈ w.head?, c ∉ spaces

/-- A quote begins a quoted part. -/
def IsQuote (q : UInt8) : Prop := q = dquote ∨ q = squote

/-- The line `p` is blanks, a token that stands for `d`, and `r`. -/
inductive Token : Bytes → Bytes → Bytes → Prop
  | plain {b w r : Bytes} (hb : Blanks b) (hw : PlainRun w) (hne : w ≠ [])
      (hr : r = [] ∨ ∃ c r', r = c :: r' ∧ (c = 32 ∨ c = lf ∨ c = cr ∨ c = 9)) :
      Token (b ++ (w ++ r)) w r
  | quoted {b w t d r : Bytes} {q : UInt8} (hb : Blanks b) (hw : PlainRun w) (hq : IsQuote q)
      (ht : Quoted q t d) (hr : r = [] ∨ ∃ c r', r = c :: r' ∧ c ∈ spaces) :
      Token (b ++ (w ++ q :: (t ++ q :: r))) (w ++ d) r

/-- The line `p` is made of tokens that stand for `ts`. -/
inductive Line : Bytes → List Bytes → Prop
  | nil {b : Bytes} (hb : Blanks b) : Line b []
  | cons {p d r : Bytes} {ts : List Bytes} (ht : Token p d r) (h : Line r ts) : Line p (d :: ts)

/-- After some tokens the line has a quoted part that does not end, or that ends in front of a byte
which is no blank. -/
inductive Broken : Bytes → Prop
  | unterminated {b w rest : Bytes} {q : UInt8} (hb : Blanks b) (hw : PlainRun w) (hq : IsQuote q)
      (h : ¬ ∃ t d r, Quoted q t d ∧ rest = t ++ q :: r) : Broken (b ++ (w ++ q :: rest))
  | glued {b w t d r : Bytes} {q c : UInt8} (hb : Blanks b) (hw : PlainRun w) (hq : IsQuote q)
      (ht : Quoted q t d) (hc : c ∉ spaces) :
      Broken (b ++ (w ++ q :: (t ++ q :: c :: r)))
  | cons {p d r : Bytes} (ht : Token p d r) (h : Broken r) : Broken p

/-! ## The tables of the scanner -/

theorem mem_spaces {c : UInt8} : c ∈ spaces ↔ isspace c = true := by
  apply forall_byte (P := fun c => c ∈ spaces ↔ isspace c = true)
  decide +kernel

theorem not_mem_spaces {c : UInt8} : c ∉ spaces ↔ isspace c = false := by
  rw [mem_spaces, Bool.not_eq_true]

theorem mem_hexValues {c x : UInt8} :
    (c, x) ∈ hexValues ↔ isHexDigit c = true ∧ hexDigitToInt c = x := by
  constructor
  · intro h
    have htable : hexValues.all fun p => isHexDigit p.1 = true ∧ hexDigitToInt p.1 = p.2 := by
      decide
    exact of_decide_eq_true (List.all_eq_true.1 htable (c, x) h)
  · rintro ⟨hc, rfl⟩
    revert hc
    apply forall_byte (P := fun c => isHexDigit c = true → (c, hexDigitToInt c) ∈ hexValues)
    decide +kernel

theorem mem_map_hexValues {c : UInt8} : c ∈ hexValues.map Prod.fst ↔ isHexDigit c = true := by
  constructor
  · intro h
    obtain ⟨⟨c, x⟩, hx, rfl⟩ := List.mem_map.1 h
    exact (mem_hexValues.1 hx).1
  · exact fun h => List.mem_map_of_mem (mem_hexValues.2 ⟨h, rfl⟩)

theorem unescape_of_mem {c x : UInt8} (h : (c, x) ∈ escapes) : unescape c = x ∧ c ≠ 120 := by
  have htable : escapes.all fun p => unescape p.1 = p.2 ∧ p.1 ≠ 120 := by decide
  exact of_decide_eq_true (List.all_eq_true.1 htable (c, x) h)

theorem unescape_of_not_mem {c : UInt8} (h : c ∉ escapes.map Prod.fst) : unescape c = c := by
  revert h
  apply forall_byte (P := fun c => c ∉ escapes.map Prod.fst → unescape c = c)
  decide +kernel

/-- A backslash and the byte behind it stand for what the scanner makes of them. -/
theorem Quoted.backslash {c : UInt8} {t d : Bytes} (hc : ¬ (c = 120 ∧ TwoHex t))
    (h : Quoted dquote t d) : Quoted dquote (bslash :: c :: t) (unescape c :: d) := by
  by_cases hmem : c ∈ escapes.map Prod.fst
  · obtain ⟨⟨c, x⟩, hx, rfl⟩ := List.mem_map.1 hmem
    rw [(unescape_of_mem hx).1]
    exact .escape hx h
  · rw [unescape_of_not_mem hmem]
    exact .other hmem hc h

theorem plainByte_iff_not_mem {c : UInt8} :
    plainByte c = true ↔ c ∉ [0, 32, lf, cr, 9, dquote, squote] := by
  apply forall_byte (P := fun c => plainByte c = true ↔ c ∉ [0, 32, lf, cr, 9, dquote, squote])
  decide +kernel

theorem Blanks.isspace {b : Bytes} (hb : Blanks b) : ∀ c ∈ b, isspace c = true :=
  fun c hc => mem_spaces.1 (hb c hc)

theorem PlainRun.isspace_start {w : Bytes} (hw : PlainRun w) : isspace (readByte w 0) = false := by
  cases w with
  | nil => rfl
  | cons c w => exact not_mem_spaces.1 (hw.start c rfl)

theorem PlainRun.plainByte {w : Bytes} (hw : PlainRun w) : ∀ c ∈ w, plainByte c = true :=
  fun c hc => plainByte_iff_not_mem.2 (hw.plain c hc)

theorem readByte_eq_iff_head? {p : Bytes} {c : UInt8} (hc : c ≠ 0) :
    readByte p 0 = c ↔ p.head? = some c := by
  cases p with
  | nil => simp [readByte, hc.symm]
  | cons x p => simp [readByte]

/-! ## The scanner between quotes -/

/-- The mode a quote sets. -/
def modeOf (q : UInt8) : QuoteMode := if q = dquote then .inq else .insq

theorem tokenStep_quote {q : UInt8} (hq : IsQuote q) (p : Bytes) :
    tokenStep .plain (q :: p) = .enter (modeOf q) p := by
  rcases hq with rfl | rfl <;> rfl

/-- At the closing quote. -/
theorem tokenStep_close {q : UInt8} (hq : IsQuote q) (p : Bytes) :
    tokenStep (modeOf q) (q :: p)
      = if readByte p 0 ≠ 0 ∧ isspace (readByte p 0) = false then .err else .done p := by
  rcases hq with rfl | rfl <;> rfl

theorem tokenStep_hex {a b : UInt8} (ha : isHexDigit a = true) (hb : isHexDigit b = true)
    (p : Bytes) : tokenStep .inq (bslash :: 120 :: a :: b :: p)
      = .emit (hexDigitToInt a * 16 + hexDigitToInt b) p := by
  simp [tokenStep, readByte, ha, hb]

theorem twoHex_iff {p : Bytes} :
    TwoHex p ↔ isHexDigit (readByte p 0) = true ∧ isHexDigit (readByte p 1) = true := by
  have h0 : isHexDigit 0 = false := rfl
  match p with
  | [] => simp [TwoHex, readByte, h0]
  | [a] => simp [TwoHex, readByte, h0]
  | a :: b :: p =>
    rw [TwoHex, mem_map_hexValues, mem_map_hexValues]
    rfl

/-- Two digits end before a byte that is none. -/
theorem twoHex_append {t p : Bytes} (hp : isHexDigit (readByte p 0) = false) :
    TwoHex (t ++ p) ↔ TwoHex t := by
  match t with
  | [] =>
    rw [List.nil_append, twoHex_iff, hp]
    simp [TwoHex]
  | [a] =>
    have hbyte : readByte ([a] ++ p) 1 = readByte p 0 := rfl
    rw [twoHex_iff, hbyte, hp]
    simp [TwoHex]
  | a :: b :: t => exact Iff.rfl

theorem tokenStep_escape {c : UInt8} {p : Bytes} (hc : c ≠ 0) (h : ¬ (c = 120 ∧ TwoHex p)) :
    tokenStep .inq (bslash :: c :: p) = .emit (unescape c) p := by
  rw [twoHex_iff] at h
  have hnot : ¬ (readByte (bslash :: c :: p) 0 = bslash ∧ readByte (bslash :: c :: p) 1 = 120 ∧
      isHexDigit (readByte (bslash :: c :: p) 2) = true ∧
      isHexDigit (readByte (bslash :: c :: p) 3) = true) := fun hx => h ⟨hx.2.1, hx.2.2⟩
  have hesc : readByte (bslash :: c :: p) 0 = bslash ∧ readByte (bslash :: c :: p) 1 ≠ 0 := ⟨rfl, hc⟩
  rw [tokenStep, if_neg hnot, if_pos hesc]
  rfl

theorem tokenStep_double {c : UInt8} (h0 : c ≠ 0) (hb : c ≠ bslash) (hq : c ≠ dquote) (p : Bytes) :
    tokenStep .inq (c :: p) = .emit c p := by
  simp [tokenStep, readByte, h0, hb, hq]

theorem tokenStep_escapedQuote (p : Bytes) :
    tokenStep .insq (bslash :: squote :: p) = .emit squote p := rfl

theorem tokenStep_single {c : UInt8} {p : Bytes} (h0 : c ≠ 0) (hq : c ≠ squote)
    (hb : c = bslash → readByte p 0 ≠ squote) : tokenStep .insq (c :: p) = .emit c p := by
  have hnot : ¬ (readByte (c :: p) 0 = bslash ∧ readByte (c :: p) 1 = squote) :=
    fun h => hb h.1 h.2
  have hne : readByte (c :: p) 0 ≠ squote := hq
  have hz : readByte (c :: p) 0 ≠ 0 := h0
  rw [tokenStep, if_neg hnot, if_neg hne, if_neg hz]
  rfl

/-- The scanner makes of a quoted text what it stands for, and comes to the closing quote. -/
theorem Quoted.reads_iff {q : UInt8} {t d : Bytes} (h : Quoted q t d) (h0 : (0 : UInt8) ∉ t)
    (p r d' : Bytes) :
    Reads (modeOf q) (t ++ q :: p) d' r ↔
      ∃ d'', d' = d ++ d'' ∧ Reads (modeOf q) (q :: p) d'' r := by
  induction h generalizing d' with
  | nil => simp
  | @hex a b x y t d ha hb _ ih =>
    simp only [List.mem_cons, not_or] at h0
    obtain ⟨hda, rfl⟩ := mem_hexValues.1 ha
    obtain ⟨hdb, rfl⟩ := mem_hexValues.1 hb
    exact reads_emit_append (tokenStep_hex hda hdb _) (ih h0.2.2.2.2) d'
  | @escape c x t d hc _ ih =>
    simp only [List.mem_cons, not_or] at h0
    obtain ⟨rfl, hne⟩ := unescape_of_mem hc
    have hstep := tokenStep_escape (p := t ++ dquote :: p) (Ne.symm h0.2.1) fun h => hne h.1
    exact reads_emit_append hstep (ih h0.2.2) d'
  | @other c t d hc hx _ ih =>
    simp only [List.mem_cons, not_or] at h0
    have hstep : tokenStep .inq (bslash :: c :: (t ++ dquote :: p))
        = .emit (unescape c) (t ++ dquote :: p) :=
      tokenStep_escape (Ne.symm h0.2.1) (by rwa [twoHex_append (by rfl)])
    rw [unescape_of_not_mem hc] at hstep
    exact reads_emit_append hstep (ih h0.2.2) d'
  | @double c t d hb hq _ ih =>
    simp only [List.mem_cons, not_or] at h0
    exact reads_emit_append (tokenStep_double (Ne.symm h0.1) hb hq _) (ih h0.2) d'
  | @escapedQuote t d _ ih =>
    simp only [List.mem_cons, not_or] at h0
    exact reads_emit_append (tokenStep_escapedQuote _) (ih h0.2.2) d'
  | @single c t d hq hb _ ih =>
    simp only [List.mem_cons, not_or] at h0
    have hnext : readByte (t ++ squote :: p) 0 = readByte (t ++ [squote]) 0 := by
      cases t <;> rfl
    have hstep : tokenStep .insq (c :: (t ++ squote :: p)) = .emit c (t ++ squote :: p) :=
      tokenStep_single (Ne.symm h0.1) hq fun hc => by
        rw [hnext, Ne, readByte_eq_iff_head? (by decide)]
        exact hb hc
    exact reads_emit_append hstep (ih h0.2) d'

/-- A backslash that ends the line is taken as it is. -/
theorem tokenStep_bslash_end {m : QuoteMode} (hm : m ≠ .plain) {z : Bytes} (hz : readByte z 0 = 0) :
    tokenStep m (bslash :: z) = .emit bslash z := by
  have h0 : readByte (bslash :: z) 0 = bslash := rfl
  have h1 : readByte (bslash :: z) 1 = 0 := hz
  cases m with
  | plain => exact absurd rfl hm
  | inq => simp [tokenStep, h0, h1]
  | insq => simp [tokenStep, h0, h1]

/-- Between quotes no token ends at the NUL. -/
theorem not_reads_end {m : QuoteMode} (hm : m ≠ .plain) {z : Bytes} (hz : readByte z 0 = 0)
    (d r : Bytes) : ¬ Reads m z d r := by
  apply not_reads_err
  rw [tokenStep_of_readByte_eq_zero m hz, if_neg hm]

section Closing

variable {rest z d r : Bytes} (hz : readByte z 0 = 0) (h0 : (0 : UInt8) ∉ rest)
include hz h0

/-- A scan between double quotes that ends has found the closing quote. -/
theorem exists_double_of_reads (h : Reads .inq (rest ++ z) d r) :
    ∃ t d' r', Quoted dquote t d' ∧ rest = t ++ dquote :: r' := by
  induction hn : rest.length using Nat.strong_induction_on generalizing rest d with
  | _ n ih =>
    subst hn
    have hstop : ∀ d, ¬ Reads .inq z d r := fun d => not_reads_end (by decide) hz d r
    rcases rest with _ | ⟨c, w⟩
    · exact absurd h (hstop d)
    simp only [List.mem_cons, not_or] at h0
    by_cases hq : c = dquote
    · exact ⟨[], [], w, .nil, by rw [hq, List.nil_append]⟩
    by_cases hb : c = bslash
    · obtain rfl := hb
      rcases w with _ | ⟨x, w⟩
      · obtain ⟨d', -, hd⟩ := (reads_emit_iff (tokenStep_bslash_end (by decide) hz)).1 h
        exact absurd hd (hstop d')
      simp only [List.mem_cons, not_or] at h0
      by_cases hx : x = 120 ∧ TwoHex w
      · obtain ⟨rfl, hhex⟩ := hx
        match w, hhex with
        | a :: b :: w, ⟨ha, hb⟩ =>
          simp only [List.mem_cons, not_or] at h0
          rw [mem_map_hexValues] at ha hb
          obtain ⟨d', -, hd⟩ := (reads_emit_iff (tokenStep_hex ha hb (w ++ z))).1 h
          obtain ⟨t, d', r', ht, rfl⟩ := ih w.length (by simp only [List.length_cons]; omega)
            h0.2.2.2.2 hd rfl
          have hquoted := Quoted.hex (mem_hexValues.2 ⟨ha, rfl⟩) (mem_hexValues.2 ⟨hb, rfl⟩) ht
          exact ⟨_, _, r', hquoted, rfl⟩
      · have hstep : tokenStep .inq (bslash :: x :: (w ++ z)) = .emit (unescape x) (w ++ z) :=
          tokenStep_escape (Ne.symm h0.2.1) (by rwa [twoHex_append (by rw [hz]; rfl)])
        obtain ⟨d', -, hd⟩ := (reads_emit_iff hstep).1 h
        obtain ⟨t, d', r', ht, rfl⟩ := ih w.length (by simp only [List.length_cons]; omega)
          h0.2.2 hd rfl
        exact ⟨_, _, r', .backslash (fun hc => hx ⟨hc.1, (twoHex_append rfl).2 hc.2⟩) ht, rfl⟩
    · obtain ⟨d', -, hd⟩ := (reads_emit_iff (tokenStep_double (Ne.symm h0.1) hb hq (w ++ z))).1 h
      obtain ⟨t, d', r', ht, rfl⟩ := ih w.length (by simp only [List.length_cons]; omega) h0.2 hd rfl
      exact ⟨_, _, r', .double hb hq ht, rfl⟩

/-- A scan between single quotes that ends has found the closing quote. -/
theorem exists_single_of_reads (h : Reads .insq (rest ++ z) d r) :
    ∃ t d' r', Quoted squote t d' ∧ rest = t ++ squote :: r' := by
  induction hn : rest.length using Nat.strong_induction_on generalizing rest d with
  | _ n ih =>
    subst hn
    have hstop : ∀ d, ¬ Reads .insq z d r := fun d => not_reads_end (by decide) hz d r
    rcases rest with _ | ⟨c, w⟩
    · exact absurd h (hstop d)
    simp only [List.mem_cons, not_or] at h0
    by_cases hq : c = squote
    · exact ⟨[], [], w, .nil, by rw [hq, List.nil_append]⟩
    by_cases hb : c = bslash ∧ readByte w 0 = squote
    · obtain ⟨rfl, hw⟩ := hb
      rcases w with _ | ⟨x, w⟩
      · exact absurd hw (by decide)
      obtain rfl : x = squote := hw
      simp only [List.mem_cons, not_or] at h0
      obtain ⟨d', -, hd⟩ := (reads_emit_iff (tokenStep_escapedQuote (w ++ z))).1 h
      obtain ⟨t, d', r', ht, rfl⟩ := ih w.length (by simp only [List.length_cons]; omega)
        h0.2.2 hd rfl
      exact ⟨_, _, r', .escapedQuote ht, rfl⟩
    · have hnext : c = bslash → readByte (w ++ z) 0 ≠ squote := by
        intro hc hw
        rcases w with _ | ⟨x, w⟩
        · rw [List.nil_append, hz] at hw
          exact absurd hw (by decide)
        · exact hb ⟨hc, hw⟩
      obtain ⟨d', -, hd⟩ := (reads_emit_iff (tokenStep_single (Ne.symm h0.1) hq hnext)).1 h
      obtain ⟨t, d', r', ht, rfl⟩ := ih w.length (by simp only [List.length_cons]; omega) h0.2 hd rfl
      refine ⟨_, _, r', .single hq (fun hc hw => hb ⟨hc, ?_⟩) ht, rfl⟩
      cases t with
      | nil => rfl
      | cons x t => exact Option.some.inj hw

end Closing

theorem exists_closing {q : UInt8} (hq : IsQuote q) {rest z d r : Bytes}
    (hz : readByte z 0 = 0) (h0 : (0 : UInt8) ∉ rest) (h : Reads (modeOf q) (rest ++ z) d r) :
    ∃ t d' r', Quoted q t d' ∧ rest = t ++ q :: r' := by
  rcases hq with rfl | rfl
  · exact exists_double_of_reads hz h0 h
  · exact exists_single_of_reads hz h0 h

/-! ## The scanner on a line of the grammar -/

section Scan

variable {b w p d r z : Bytes} {q : UInt8}

theorem dropWhile_blanks (hb : Blanks b) (hp : isspace (readByte p 0) = false) :
    (b ++ p).dropWhile isspace = p := by
  rw [List.dropWhile_append_of_pos hb.isspace, dropWhile_of_readByte hp]

/-- A token begins with a byte that is neither a blank nor the NUL. -/
theorem PlainRun.begins (hw : PlainRun w)
    (hp : w = [] → isspace (readByte p 0) = false ∧ readByte p 0 ≠ 0) :
    isspace (readByte (w ++ p) 0) = false ∧ readByte (w ++ p) 0 ≠ 0 := by
  rcases w with _ | ⟨c, w⟩
  · exact hp rfl
  · exact ⟨hw.isspace_start, (plainByte_iff.1 (hw.plainByte c (List.mem_cons_self ..))).1⟩

theorem PlainRun.begins_quote (hw : PlainRun w) (hq : IsQuote q) :
    isspace (readByte (w ++ q :: p) 0) = false ∧ readByte (w ++ q :: p) 0 ≠ 0 := by
  apply hw.begins
  intro
  rcases hq with rfl | rfl
  · exact ⟨rfl, (by decide : dquote ≠ 0)⟩
  · exact ⟨rfl, (by decide : squote ≠ 0)⟩

/-- The first token of a line is read from its first byte that is no blank. -/
theorem tokens_iff_of_begins (hb : Blanks b)
    (hp : isspace (readByte p 0) = false ∧ readByte p 0 ≠ 0) {ts : List Bytes} :
    Tokens (b ++ p) ts ↔ ∃ d r ts', ts = d :: ts' ∧ Reads .plain p d r ∧ Tokens r ts' := by
  have hdrop := dropWhile_blanks hb hp.1
  constructor
  · intro h
    cases h with
    | nil h0 => exact absurd (hdrop ▸ h0) hp.2
    | cons _ hr ht => exact ⟨_, _, _, rfl, hdrop ▸ hr, ht⟩
  · rintro ⟨d, r, ts', rfl, hr, ht⟩
    exact .cons (by rw [hdrop]; exact hp.2) (by rwa [hdrop]) ht

theorem tokens_cons_isspace_iff {c : UInt8} (hc : isspace c = true) {ts : List Bytes} :
    Tokens (c :: p) ts ↔ Tokens p ts := ⟨Tokens.of_cons_isspace hc, Tokens.cons_isspace hc⟩

/-- The scanner reads a token of the grammar as what it stands for, and goes on behind it. -/
theorem Token.tokens_iff (h : Token p d r) (hz : readByte z 0 = 0) (h0 : (0 : UInt8) ∉ p)
    {ts : List Bytes} : Tokens (p ++ z) ts ↔ ∃ ts', ts = d :: ts' ∧ Tokens (r ++ z) ts' := by
  cases h with
  | @plain b w r hb hw hne hr =>
    have hbegins := hw.begins (p := r ++ z) fun h => absurd h hne
    rw [List.append_assoc, List.append_assoc, tokens_iff_of_begins hb hbegins]
    -- where the token ends, and that the tokens behind it are those of the rest
    obtain ⟨p', hstep, hrest⟩ : ∃ p', tokenStep .plain (r ++ z) = .done p' ∧
        ∀ ts', Tokens p' ts' ↔ Tokens (r ++ z) ts' := by
      rcases hr with rfl | ⟨c, r', rfl, hc⟩
      · exact ⟨z, tokenStep_of_readByte_eq_zero .plain hz, fun ts' => Iff.rfl⟩
      · refine ⟨r' ++ z, tokenStep_blank hc _, fun ts' => (tokens_cons_isspace_iff ?_).symm⟩
        rcases hc with rfl | rfl | rfl | rfl <;> rfl
    simp only [reads_plain_append_iff hw.plainByte, reads_done_iff hstep]
    constructor
    · rintro ⟨_, _, ts', rfl, ⟨_, rfl, rfl, rfl⟩, ht⟩
      exact ⟨ts', by rw [List.append_nil], (hrest ts').1 ht⟩
    · rintro ⟨ts', rfl, ht⟩
      exact ⟨_, _, ts', rfl, ⟨[], (List.append_nil _).symm, rfl, rfl⟩, (hrest ts').2 ht⟩
  | @quoted b w t d r q hb hw hq hquoted hr =>
    have hsplit : b ++ (w ++ q :: (t ++ q :: r)) ++ z = b ++ (w ++ q :: (t ++ q :: (r ++ z))) := by
      simp
    have hclose : tokenStep (modeOf q) (q :: (r ++ z)) = .done (r ++ z) := by
      rw [tokenStep_close hq, if_neg]
      rintro ⟨hne, hspace⟩
      rcases hr with rfl | ⟨c, r', rfl, hc⟩
      · exact hne hz
      · exact not_mem_spaces.2 hspace hc
    have ht0 : (0 : UInt8) ∉ t := fun hmem => h0 (by simp [hmem])
    rw [hsplit, tokens_iff_of_begins hb (hw.begins_quote hq)]
    simp only [reads_plain_append_iff hw.plainByte, reads_enter_iff (tokenStep_quote hq _),
      hquoted.reads_iff ht0, reads_done_iff hclose]
    constructor
    · rintro ⟨_, _, ts', rfl, ⟨_, rfl, _, rfl, rfl, rfl⟩, ht⟩
      exact ⟨ts', by rw [List.append_nil], ht⟩
    · rintro ⟨ts', rfl, ht⟩
      exact ⟨_, _, ts', rfl, ⟨d, rfl, [], (List.append_nil _).symm, rfl, rfl⟩, ht⟩

theorem Token.mem_of_mem_rest (h : Token p d r) {c : UInt8} (hc : c ∈ r) : c ∈ p := by
  cases h with
  | plain => simp [hc]
  | quoted => simp [hc]

theorem Line.tokens {ts : List Bytes} (h : Line p ts) (hz : readByte z 0 = 0)
    (h0 : (0 : UInt8) ∉ p) : Tokens (p ++ z) ts := by
  induction h with
  | nil hb =>
    have hspace : isspace (readByte z 0) = false := by
      rw [hz]
      rfl
    exact .nil (by rw [dropWhile_blanks hb hspace, hz])
  | cons ht _ ih =>
    exact (ht.tokens_iff hz h0).2 ⟨_, rfl, ih fun hmem => h0 (ht.mem_of_mem_rest hmem)⟩

/-- The scanner fails on a broken line. -/
theorem Broken.not_tokens (h : Broken p) (hz : readByte z 0 = 0) (h0 : (0 : UInt8) ∉ p)
    (ts : List Bytes) : ¬ Tokens (p ++ z) ts := by
  intro hts
  induction h generalizing ts with
  | @unterminated b w rest q hb hw hq hnone =>
    have hsplit : b ++ (w ++ q :: rest) ++ z = b ++ (w ++ q :: (rest ++ z)) := by simp
    rw [hsplit, tokens_iff_of_begins hb (hw.begins_quote hq)] at hts
    obtain ⟨d, r, ts', -, hr, -⟩ := hts
    obtain ⟨d', -, hr⟩ := (reads_plain_append_iff hw.plainByte).1 hr
    have hrest : (0 : UInt8) ∉ rest := fun hmem => h0 (by simp [hmem])
    exact hnone (exists_closing hq hz hrest ((reads_enter_iff (tokenStep_quote hq _)).1 hr))
  | @glued b w t d r q c hb hw hq hquoted hc =>
    have hsplit : b ++ (w ++ q :: (t ++ q :: c :: r)) ++ z
        = b ++ (w ++ q :: (t ++ q :: c :: (r ++ z))) := by simp
    rw [hsplit, tokens_iff_of_begins hb (hw.begins_quote hq)] at hts
    obtain ⟨d, r', ts', -, hr, -⟩ := hts
    obtain ⟨d', -, hr⟩ := (reads_plain_append_iff hw.plainByte).1 hr
    have ht0 : (0 : UInt8) ∉ t := fun hmem => h0 (by simp [hmem])
    have hc0 : c ≠ 0 := fun heq => h0 (by simp [heq])
    obtain ⟨d'', -, hr⟩ := (hquoted.reads_iff ht0 _ _ _).1 ((reads_enter_iff (tokenStep_quote hq _)).1 hr)
    refine not_reads_err ?_ hr
    rw [tokenStep_close hq, if_pos ⟨hc0, not_mem_spaces.1 hc⟩]
  | cons ht _ ih =>
    obtain ⟨ts', -, hts'⟩ := (ht.tokens_iff hz h0).1 hts
    exact ih (fun hmem => h0 (ht.mem_of_mem_rest hmem)) ts' hts'

end Scan

/-! ## Every line is in the grammar or broken -/

/-- A byte that ends a plain run. -/
theorem blank_or_quote {c : UInt8} (h0 : c ≠ 0) (h : plainByte c = false) :
    (c = 32 ∨ c = lf ∨ c = cr ∨ c = 9) ∨ IsQuote c := by
  by_contra hnot
  rw [not_or, IsQuote] at hnot
  simp only [not_or] at hnot
  obtain ⟨⟨h32, hlf, hcr, h9⟩, hd, hs⟩ := hnot
  exact absurd (plainByte_iff.2 ⟨h0, h32, h9, hlf, hcr, hd, hs⟩) (by simp [h])

theorem readByte_dropWhile (f : UInt8 → Bool) (p : Bytes) (h : p.dropWhile f ≠ []) :
    f (readByte (p.dropWhile f) 0) = false := by
  obtain ⟨c, r, hcons⟩ := List.exists_cons_of_ne_nil h
  have hhead := List.head?_dropWhile_not f p
  rw [hcons] at hhead ⊢
  show f c = false
  simpa using hhead

theorem line_or_broken {p : Bytes} (h0 : (0 : UInt8) ∉ p) : (∃ ts, Line p ts) ∨ Broken p := by
  induction hn : p.length using Nat.strong_induction_on generalizing p with
  | _ n ih =>
    subst hn
    -- blanks `b`, a plain run `w`, and what ends it
    obtain ⟨b, p1, rfl, hb, hp1⟩ : ∃ b p1, p = b ++ p1 ∧ Blanks b ∧
        (p1 ≠ [] → isspace (readByte p1 0) = false) :=
      ⟨_, _, List.takeWhile_append_dropWhile.symm,
        fun c hc => mem_spaces.2 (List.mem_takeWhile_imp hc),
        readByte_dropWhile isspace p⟩
    obtain ⟨w, r, rfl, hw, hr⟩ : ∃ w r, p1 = w ++ r ∧ (∀ c ∈ w, plainByte c = true) ∧
        (r ≠ [] → plainByte (readByte r 0) = false) :=
      ⟨_, _, List.takeWhile_append_dropWhile.symm, fun c hc => List.mem_takeWhile_imp hc,
        readByte_dropWhile plainByte p1⟩
    have hrun : PlainRun w := by
      refine ⟨fun c hc => plainByte_iff_not_mem.1 (hw c hc), ?_⟩
      rcases w with _ | ⟨c, w⟩
      · simp
      · rintro c ⟨⟩
        exact not_mem_spaces.2 (hp1 (List.cons_ne_nil _ _))
    -- a token in front, and a shorter line behind it
    have hnext : ∀ {d r' : Bytes}, Token (b ++ (w ++ r)) d r' → r'.length < (b ++ (w ++ r)).length →
        (∃ ts, Line (b ++ (w ++ r)) ts) ∨ Broken (b ++ (w ++ r)) := by
      intro d r' ht hlt
      rcases ih r'.length hlt (fun hmem => h0 (ht.mem_of_mem_rest hmem)) rfl with ⟨ts, hts⟩ | hbroken
      · exact .inl ⟨d :: ts, .cons ht hts⟩
      · exact .inr (.cons ht hbroken)
    rcases r with _ | ⟨c, r⟩
    · rcases eq_or_ne w [] with rfl | hne
      · exact .inl ⟨[], .nil (by simpa using hb)⟩
      · have hpos := List.length_pos_iff.2 hne
        exact hnext (.plain hb hrun hne (.inl rfl)) (by simp only [List.length_append]; simp; omega)
    · have hc0 : c ≠ 0 := fun heq => h0 (by simp [heq])
      rcases blank_or_quote hc0 (hr (List.cons_ne_nil c r)) with hc | hq
      · have hne : w ≠ [] := by
          rintro rfl
          have hspace : isspace c = false := hp1 (List.cons_ne_nil c r)
          rcases hc with rfl | rfl | rfl | rfl <;> exact absurd hspace (by decide)
        have hpos := List.length_pos_iff.2 hne
        exact hnext (.plain hb hrun hne (.inr ⟨c, r, rfl, hc⟩))
          (by simp only [List.length_append]; omega)
      · by_cases hclose : ∃ t d r', Quoted c t d ∧ r = t ++ c :: r'
        · obtain ⟨t, d, r', ht, rfl⟩ := hclose
          rcases r' with _ | ⟨x, r'⟩
          · exact hnext (.quoted hb hrun hq ht (.inl rfl)) (by simp)
          · rcases hx : isspace x with _ | _
            · exact .inr (.glued hb hrun hq ht (not_mem_spaces.2 hx))
            · exact hnext (.quoted hb hrun hq ht (.inr ⟨x, r', rfl, mem_spaces.2 hx⟩))
                (by simp only [List.length_append, List.length_cons]; omega)
        · exact .inr (.unterminated hb hrun hq hclose)

/-! ## The tokenizer -/

/-- A line and the NUL that ends it. -/
theorem exists_eq_cstr_append (line : Bytes) : ∃ z, line = cstr line ++ z ∧ readByte z 0 = 0 := by
  refine ⟨line.dropWhile (· != 0), List.takeWhile_append_dropWhile.symm, ?_⟩
  rcases eq_or_ne (line.dropWhile (· != 0)) [] with hnil | hne
  · rw [hnil]
    rfl
  · simpa using readByte_dropWhile (· != 0) line hne

/-- For every line: `sdssplitargs` returns exactly the tokens of the grammar, in order; it returns
`NULL` exactly when some quoted part does not end, or ends in front of a byte that is no blank; and with
every read and move checked against the first NUL it ends with the same result. -/
theorem sdssplitargs_grammar (line : Bytes) :
    (∀ ts, (sdssplitargs line).map (List.map Sds.content) = some ts ↔ Line (cstr line) ts) ∧
      (sdssplitargs line = none ↔ Broken (cstr line)) ∧
      checkedSplit (line.length + 1) line = some (sdssplitargs line) := by
  obtain ⟨z, hline, hz⟩ := exists_eq_cstr_append line
  have h0 := zero_not_mem_cstr line
  have hiff : ∀ ts, Line (cstr line) ts ↔ Tokens line ts := by
    intro ts
    constructor
    · intro h
      rw [hline]
      exact h.tokens hz h0
    · intro hts
      rcases line_or_broken h0 with ⟨ts', hts'⟩ | hbroken
      · have hts'' := hts'.tokens hz h0
        rw [← hline] at hts''
        rwa [hts.unique hts'']
      · exact absurd (hline ▸ hts) (hbroken.not_tokens hz h0 ts)
  have hcontent : ∀ ts : List Bytes, (ts.map sdsOf).map Sds.content = ts := by
    intro ts
    simp [Function.comp_def]
  have hsome : ∀ ts, (sdssplitargs line).map (List.map Sds.content) = some ts ↔
      Line (cstr line) ts := by
    intro ts
    rw [hiff, Option.map_eq_some_iff]
    constructor
    · rintro ⟨toks, htoks, rfl⟩
      obtain ⟨ts, hts, rfl⟩ := (sdssplitargs_eq_some_iff line toks).1 htoks
      rwa [hcontent]
    · exact fun hts => ⟨_, (sdssplitargs_eq_some_iff line _).2 ⟨ts, hts, rfl⟩, hcontent ts⟩
  refine ⟨hsome, ?_, checkedSplit_line line⟩
  constructor
  · intro hnone
    rcases line_or_broken h0 with ⟨ts, hts⟩ | hbroken
    · rw [← hsome, hnone] at hts
      cases hts
    · exact hbroken
  · intro hbroken
    rcases hs : sdssplitargs line with _ | toks
    · rfl
    · obtain ⟨ts, hts, -⟩ := (sdssplitargs_eq_some_iff line toks).1 hs
      exact absurd (hline ▸ hts) (hbroken.not_tokens hz h0 ts)

end RedisCounter
