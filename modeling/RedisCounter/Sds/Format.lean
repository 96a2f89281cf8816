import RedisCounter.Sds.Number

/-!
# Formatted append

`sdscatfmt` writes behind the content piece by piece, growing the string as it goes, and restores
the NUL only at its end. The format is given by its pieces, each conversion with its argument.
-/

namespace RedisCounter

open Decimal

/-- A piece of a format. -/
inductive FmtPiece
  /-- A literal byte, `%%`, or `%` before a byte that names no conversion. -/
  | char (c : UInt8)
  /-- `%s`. -/
  | str (p : Bytes)
  /-- `%S`. -/
  | sds (s : Sds)
  /-- `%i` and `%I`. -/
  | int (num : ℤ)
  /-- `%u` and `%U`. -/
  | uint (unum : ℕ)

/-- A format without conversions. -/
def FmtPiece.lit (p : Bytes) : List FmtPiece := p.map .char

def SDS_LLSTR_SIZE : ℕ := 21

/-- The bytes a piece puts out. -/
def fmtBytes : FmtPiece → Bytes
  | .char c => [c]
  | .str p => cstr p
  | .sds s => s.content
  | .int num =>
    let (buf, l) := sdsll2str (List.replicate SDS_LLSTR_SIZE 0) num
    buf.take l
  | .uint unum =>
    let (buf, l) := sdsull2str (List.replicate SDS_LLSTR_SIZE 0) unum
    buf.take l

/-- One turn of the loop: `s` and the position `i` of the next byte. -/
def sdscatfmtStep (s : Sds × ℕ) (f : FmtPiece) : Sds × ℕ :=
  let (s, i) := s
  -- make sure there is always space for at least one byte
  let s := if sdsavail s = 0 then sdsMakeRoomFor s 1 else s
  let t := fmtBytes f
  -- a conversion asks for its own room; for a single byte there is room already
  let s := if sdsavail s < t.length then sdsMakeRoomFor s t.length else s
  (sdsinclen { s with buf := memcpyAt s.buf i t } t.length, i + t.length)

/-- `sdscatfmt`. -/
def sdscatfmt (s : Sds) (fmt : List FmtPiece) : Sds :=
  let (s, i) := fmt.foldl sdscatfmtStep (s, sdslen s)
  { s with buf := memcpyAt s.buf i [0] }

/-! ## The loop appends -/

theorem fmtBytes_int {num : ℤ} (hmin : LONG_MIN ≤ num) (hmax : num ≤ LONG_MAX) :
    fmtBytes (.int num) = intText num := by
  rw [fmtBytes, sdsll2str_spec _ hmin hmax]
  simp

theorem fmtBytes_uint {unum : ℕ} (h : unum < 2 ^ 64) : fmtBytes (.uint unum) = natText unum := by
  rw [fmtBytes, sdsull2str_spec _ h]
  simp

theorem flatMap_lit (p : Bytes) : (FmtPiece.lit p).flatMap fmtBytes = p := by
  induction p with
  | nil => rfl
  | cons c p ih => exact congrArg (c :: ·) ih

/-- One piece keeps the header right and appends the piece's bytes. -/
theorem sdscatfmtStep_spec {s : Sds} (h : s.Fits) (f : FmtPiece) :
    (sdscatfmtStep (s, s.len) f).1.Fits ∧
      (sdscatfmtStep (s, s.len) f).2 = (sdscatfmtStep (s, s.len) f).1.len ∧
      (sdscatfmtStep (s, s.len) f).1.content = s.content ++ fmtBytes f := by
  -- after the two growths there is room for the piece, and the content is still that of `s`
  have hroom : ∀ {r : Sds} {n : ℕ}, r.Fits → r.len = s.len → r.content = s.content →
      ∃ r', (if sdsavail r < n then sdsMakeRoomFor r n else r) = r' ∧ r'.Fits ∧
        r'.len = s.len ∧ r'.content = s.content ∧ n ≤ sdsavail r' := by
    intro r n hr hlen hcontent
    refine ⟨_, rfl, ?_⟩
    split_ifs with hav
    · have hg := hr.makeRoom n
      exact ⟨hg.fits, hg.len.trans hlen, hg.content.trans hcontent, hg.avail⟩
    · exact ⟨hr, hlen, hcontent, by omega⟩
  have hfirst : ∃ r, (if sdsavail s = 0 then sdsMakeRoomFor s 1 else s) = r ∧ r.Fits ∧
      r.len = s.len ∧ r.content = s.content := by
    refine ⟨_, rfl, ?_⟩
    split_ifs with hav
    · have hg := h.makeRoom 1
      exact ⟨hg.fits, hg.len, hg.content⟩
    · exact ⟨h, rfl, rfl⟩
  obtain ⟨r, hr, hrfits, hrlen, hrcontent⟩ := hfirst
  obtain ⟨r', hr', hfits', hlen', hcontent', hav'⟩ :=
    hroom (n := (fmtBytes f).length) hrfits hrlen hrcontent
  have hfit := hfits'.len_add_le hav'
  have htrunc : r'.type.trunc (r'.len + (fmtBytes f).length) = r'.len + (fmtBytes f).length :=
    SdsType.trunc_of_le hfit hfits'.fits
  have hbuf : (memcpyAt r'.buf r'.len (fmtBytes f)).take (r'.len + (fmtBytes f).length)
      = r'.content ++ fmtBytes f := take_memcpyAt _ hfits'.le_length
  have hlength : r'.len + (fmtBytes f).length
      ≤ (memcpyAt r'.buf r'.len (fmtBytes f)).length := by
    have := congrArg List.length hbuf
    rw [List.length_append, hfits'.content_length, List.length_take] at this
    omega
  simp only [sdscatfmtStep, hr, hr', sdsinclen, ← hlen', htrunc]
  exact ⟨fits_of_len hfits' rfl rfl hfit hlength, trivial, by rw [Sds.content, hbuf, hcontent']⟩

/-- `sdscatfmt` appends the bytes of its format. -/
theorem sdscatfmt_spec {s : Sds} (h : s.Wf) (fmt : List FmtPiece) :
    (sdscatfmt s fmt).Wf ∧ (sdscatfmt s fmt).content = s.content ++ fmt.flatMap fmtBytes := by
  -- between two pieces no NUL has been written yet, so the loop keeps `Fits` only
  have hloop : ∀ r : Sds, r.Fits → ∃ r', fmt.foldl sdscatfmtStep (r, r.len) = (r', r'.len) ∧
      r'.Fits ∧ r'.content = r.content ++ fmt.flatMap fmtBytes := by
    induction fmt with
    | nil => exact fun r hr => ⟨r, rfl, hr, by simp⟩
    | cons f fmt ih =>
      intro r hr
      obtain ⟨hfits, hlen, hcontent⟩ := sdscatfmtStep_spec hr f
      obtain ⟨r', hfold, hfits', hcontent'⟩ := ih _ hfits
      refine ⟨r', ?_, hfits', ?_⟩
      · rw [List.foldl_cons, ← hfold, ← hlen]
      · rw [hcontent', hcontent, List.flatMap_cons, List.append_assoc]
  obtain ⟨r', hfold, hfits, hcontent⟩ := hloop s h.toFits
  -- the NUL goes behind the content
  have hbuf := memcpyAt_memcpyAt_zero [] hfits.le_length
  simp only [List.length_nil, Nat.add_zero, List.append_nil] at hbuf
  have hnil : memcpyAt r'.buf r'.len [] = r'.buf := by
    simp [memcpyAt]
  rw [hnil] at hbuf
  have hpre : (r'.buf.take r'.len).length = r'.len := by
    simp [hfits.le_length]
  have htake : (r'.buf.take r'.len ++ 0 :: r'.buf.drop (r'.len + 1)).take r'.len
      = r'.buf.take r'.len := by
    rw [List.take_left' hpre]
  simp only [sdscatfmt, sdslen, hfold, hbuf]
  refine ⟨⟨fits_of_len hfits rfl rfl hfits.len_le ?_, ?_⟩, ?_⟩
  · simp only [List.length_append, hpre]
    omega
  · simp only
    rw [List.getElem?_append_right hpre.le, hpre]
    simp
  · rw [Sds.content, htake]
    exact hcontent

/-! ## The text of a counter in a buffer -/

/-- What `sdsll2str` leaves at `s`: a text of the value, a NUL, and the bytes that were behind. -/
structure WritesText (s : Bytes) (value : ℤ) (buf : Bytes) (len : ℕ) : Prop where
  canonical : Canonical value (buf.take len)
  term : buf[len]? = some 0
  pos : 1 ≤ len
  le : len ≤ 20
  /-- No byte from `SDS_LLSTR_SIZE` on is written, and none is added to a buffer of that size. -/
  behind : len + 1 ≤ SDS_LLSTR_SIZE ∧ buf.drop (len + 1) = s.drop (len + 1)
  length : SDS_LLSTR_SIZE ≤ s.length → buf.length = s.length
  strlen : strlen buf = len
  atol : atol buf = value ∧ atol (buf.take len) = value

theorem writesText_sdsll2str (s : Bytes) {value : ℤ} (hmin : LONG_MIN ≤ value)
    (hmax : value ≤ LONG_MAX) :
    WritesText s value (sdsll2str s value).1 (sdsll2str s value).2 := by
  have hle := length_intText_le hmin hmax
  have htake : ∀ r : Bytes, (intText value ++ r).take (intText value).length = intText value :=
    fun r => List.take_left
  rw [sdsll2str_spec s hmin hmax]
  refine ⟨?_, ?_, ?_, hle, ⟨?_, ?_⟩, ?_, ?_, ?_, ?_⟩
  · rw [htake]
    exact canonical_intText value
  · simp
  · exact List.length_pos_iff.2 (intText_ne_nil value)
  · unfold SDS_LLSTR_SIZE
    omega
  · simp
  · unfold SDS_LLSTR_SIZE
    intro hs
    simp only [List.length_append, List.length_cons, List.length_drop]
    omega
  · rw [RedisCounter.strlen, cstr_intText_append]
  · rw [atol_append_zero, atol_intText hmin hmax]
  · rw [htake, atol_intText hmin hmax]

/-- For every `long`, the least one included: `sdsll2str` writes the canonical decimal text, of 1 to 20
bytes, and its NUL, and returns its length; `atol` gives the number back; and two numbers with one text
are the same. -/
theorem sdsll2str_round_trip (s : Bytes) {value : ℤ} (hmin : LONG_MIN ≤ value)
    (hmax : value ≤ LONG_MAX) :
    WritesText s value (sdsll2str s value).1 (sdsll2str s value).2 ∧
      ∀ (s' : Bytes) (value' : ℤ), LONG_MIN ≤ value' → value' ≤ LONG_MAX →
        cstr (sdsll2str s' value').1 = cstr (sdsll2str s value).1 → value' = value := by
  refine ⟨writesText_sdsll2str s hmin hmax, ?_⟩
  intro s' value' hmin' hmax' htext
  rw [sdsll2str_spec s' hmin' hmax', sdsll2str_spec s hmin hmax, cstr_intText_append,
    cstr_intText_append] at htext
  rw [← atol_intText hmin' hmax', htext, atol_intText hmin hmax]

/-- The least `long`, in a buffer of `SDS_LLSTR_SIZE` bytes that it fills to the end. -/
theorem sdsll2str_round_trip_min :
    WritesText (List.replicate SDS_LLSTR_SIZE 1) LONG_MIN
        (ascii ['-', '9', '2', '2', '3', '3', '7', '2', '0', '3', '6', '8', '5', '4', '7', '7', '5',
          '8', '0', '8'] ++ [0]) 20 ∧
      ∀ (s' : Bytes) (value' : ℤ), LONG_MIN ≤ value' → value' ≤ LONG_MAX →
        cstr (sdsll2str s' value').1
          = cstr (sdsll2str (List.replicate SDS_LLSTR_SIZE 1) LONG_MIN).1 → value' = LONG_MIN := by
  have hrun : sdsll2str (List.replicate SDS_LLSTR_SIZE 1) LONG_MIN
      = (ascii ['-', '9', '2', '2', '3', '3', '7', '2', '0', '3', '6', '8', '5', '4', '7', '7', '5',
          '8', '0', '8'] ++ [0], 20) := by
    decide +kernel
  have htrip := sdsll2str_round_trip (List.replicate SDS_LLSTR_SIZE 1) (le_refl LONG_MIN) (by decide)
  rw [hrun] at htrip ⊢
  exact htrip

end RedisCounter
