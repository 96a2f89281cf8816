import RedisCounter.Sds.SplitArgs

/-!
# Printed append and the quoted form

`sdscatprintf` prints into a buffer of its own, of twice the size each time the text did not fit, and
appends the buffer as a C string. `sdscatrepr` appends a string between double quotes, each byte as
itself or as an escape. The format is given by its pieces, each conversion with its argument.
-/

namespace RedisCounter

/-! ## `sdscatprintf` -/

/-- A piece of a `printf` format. -/
inductive PrintfPiece
  /-- A literal byte. -/
  | lit (c : UInt8)
  /-- `%c`. -/
  | char (c : UInt8)
  /-- `%02x` of an `unsigned char`. -/
  | hex2 (v : UInt8)
deriving DecidableEq

/-- The byte of a digit of `%x`. -/
def hexDigit (v : UInt8) : UInt8 := if v < 10 then 48 + v else 87 + v

namespace PrintfPiece

/-- The bytes of the format a piece takes up. -/
def width : PrintfPiece → ℕ
  | lit _ => 1
  | char _ => 2
  | hex2 _ => 4

/-- The bytes a piece puts out. -/
def bytes : PrintfPiece → Bytes
  | lit c => [c]
  | char c => [c]
  | hex2 v => [hexDigit (v / 16), hexDigit (v % 16)]

end PrintfPiece

/-- `vsnprintf(buf, buflen, …)` of a format that puts out `out`. -/
def vsnprintf (buf : Bytes) (buflen : ℕ) (out : Bytes) : Bytes :=
  memcpyAt buf 0 (out.take (buflen - 1) ++ [0])

/-- The loop of `sdscatvprintf`: the buffer the text fits into. A new buffer holds no byte in
particular. -/
def vprintfLoop : ℕ → ℕ → Bytes → Option Bytes
  | 0, _, _ => none
  | fuel + 1, buflen, out =>
    let buf := (List.replicate buflen 255).set (buflen - 2) 0
    let buf := vsnprintf buf buflen out
    if readByte buf (buflen - 2) ≠ 0 then vprintfLoop fuel (buflen * 2) out else some buf

/-- `sdscat(s, t)`. -/
def sdscat (s : Sds) (t : Bytes) : Sds := sdscatlen s (cstr t)

/-- The size of the first buffer: that of `staticbuf` unless the format asks for more. -/
def printfBuflen (fmt : List PrintfPiece) : ℕ :=
  let buflen := (fmt.map PrintfPiece.width).sum * 2
  if 1024 < buflen then buflen else 1024

/-- `sdscatprintf(s, fmt, …)`, which is `sdscatvprintf`; a text of `n` bytes fits after `n` turns. -/
def sdscatprintf (s : Sds) (fmt : List PrintfPiece) : Option Sds :=
  let out := fmt.flatMap PrintfPiece.bytes
  (vprintfLoop (out.length + 1) (printfBuflen fmt) out).map (sdscat s)

/-! ## `sdscatrepr` -/

/-- `isprint` in the C locale. -/
def isprint (c : UInt8) : Bool := 32 ≤ c && c ≤ 126

/-- One turn of the loop: `*p` appended. -/
def reprStep (s : Sds) (c : UInt8) : Option Sds :=
  if c = bslash ∨ c = dquote then sdscatprintf s [.lit bslash, .char c]
  else if c = lf then some (sdscatlen s [bslash, 110])
  else if c = cr then some (sdscatlen s [bslash, 114])
  else if c = 9 then some (sdscatlen s [bslash, 116])
  else if c = 7 then some (sdscatlen s [bslash, 97])
  else if c = 8 then some (sdscatlen s [bslash, 98])
  else if isprint c then sdscatprintf s [.char c]
  else sdscatprintf s [.lit bslash, .lit 120, .hex2 c]

/-- `sdscatrepr(s, p, len)` with the `len` bytes of `p`. -/
def sdscatrepr (s : Sds) (p : Bytes) : Option Sds := do
  let s ← p.foldlM reprStep (sdscatlen s [dquote])
  pure (sdscatlen s [dquote])

/-! ## The loop finds a buffer -/

theorem vsnprintf_eq (buf : Bytes) (buflen : ℕ) (out : Bytes) :
    vsnprintf buf buflen out
      = out.take (buflen - 1) ++ 0 :: buf.drop ((out.take (buflen - 1)).length + 1) := by
  simp [vsnprintf, memcpyAt]

/-- The byte the loop looks at is the text's own, or the NUL set there when the text is shorter. -/
theorem readByte_vsnprintf {buf : Bytes} {buflen : ℕ} (h2 : 2 ≤ buflen)
    (h : readByte buf (buflen - 2) = 0) (out : Bytes) :
    readByte (vsnprintf buf buflen out) (buflen - 2) = readByte out (buflen - 2) := by
  have hlen : (out.take (buflen - 1)).length = min (buflen - 1) out.length := List.length_take
  simp only [readByte, List.getD_eq_getElem?_getD] at h ⊢
  rw [vsnprintf_eq]
  by_cases hlong : buflen - 2 < out.length
  · rw [List.getElem?_append_left (by omega), List.getElem?_take_of_lt (by omega)]
  · have hend : out[buflen - 2]? = none := List.getElem?_eq_none (by omega)
    rw [List.getElem?_append_right (by omega), hend]
    by_cases heq : out.length = buflen - 2
    · have hidx : buflen - 2 - (out.take (buflen - 1)).length = 0 := by omega
      rw [hidx]
      rfl
    · -- behind the NUL the buffer is as it was
      obtain ⟨k, hk⟩ : ∃ k, buflen - 2 - (out.take (buflen - 1)).length = k + 1 :=
        ⟨buflen - 2 - (out.take (buflen - 1)).length - 1, by omega⟩
      have hback : (out.take (buflen - 1)).length + 1 + k = buflen - 2 := by omega
      rw [hk, List.getElem?_cons_succ, List.getElem?_drop, hback, h]
      rfl

/-- A text that is not cut off before its first NUL is in the buffer. -/
theorem cstr_vsnprintf {buflen : ℕ} {out : Bytes}
    (h : out.length ≤ buflen - 1 ∨ (0 : UInt8) ∈ out.take (buflen - 1)) (buf : Bytes) :
    cstr (vsnprintf buf buflen out) = cstr out := by
  rw [vsnprintf_eq, cstr_append_zero]
  rcases h with h | h
  · rw [List.take_of_length_le h]
  · obtain ⟨a, b, hab⟩ := List.append_of_mem h
    have hout : out = a ++ 0 :: (b ++ out.drop (buflen - 1)) := by
      conv_lhs => rw [← List.take_append_drop (buflen - 1) out, hab]
      simp
    calc cstr (out.take (buflen - 1)) = cstr a := by rw [hab, cstr_append_zero]
      _ = cstr (a ++ 0 :: (b ++ out.drop (buflen - 1))) := (cstr_append_zero a _).symm
      _ = cstr out := by rw [← hout]

/-- The loop ends, with the text up to its first NUL in the buffer. -/
theorem vprintfLoop_spec {fuel buflen : ℕ} {out : Bytes} (hpos : 0 < fuel) (h2 : 2 ≤ buflen)
    (hf : out.length + 3 ≤ buflen + fuel) :
    ∃ buf, vprintfLoop fuel buflen out = some buf ∧ cstr buf = cstr out := by
  induction fuel generalizing buflen with
  | zero => omega
  | succ fuel ih =>
    have hzero : readByte ((List.replicate buflen 255).set (buflen - 2) 0) (buflen - 2) = 0 := by
      have hlt : buflen - 2 < buflen := by omega
      simp [readByte, hlt]
    rw [vprintfLoop, readByte_vsnprintf h2 hzero]
    split_ifs with hbyte
    · -- the byte is one of the text's, so the text is longer than the buffer
      have hlen := readByte_ne_zero_length hbyte
      exact ih (by omega) (by omega) (by omega)
    · refine ⟨_, rfl, cstr_vsnprintf ?_ _⟩
      by_cases hlen : out.length ≤ buflen - 1
      · exact .inl hlen
      · right
        have hlt : buflen - 2 < out.length := by omega
        have hget : readByte out (buflen - 2) = 0 := not_not.1 hbyte
        rw [readByte, List.getD_eq_getElem?_getD, List.getElem?_eq_getElem hlt] at hget
        exact List.mem_take_iff_getElem.2 ⟨buflen - 2, by omega, hget⟩

/-- The result is `s` with `t` appended. -/
def Appends (s : Sds) (t : Bytes) (result : Option Sds) : Prop :=
  ∃ s', result = some s' ∧ s'.Wf ∧ s'.content = s.content ++ t

theorem appends_sdscatlen {s : Sds} (h : s.Wf) (t : Bytes) : Appends s t (some (sdscatlen s t)) :=
  ⟨_, rfl, h.wf_sdscatlen t, h.content_sdscatlen t⟩

/-- Calls that append, one after the other. -/
theorem appends_foldlM {β : Type} {f : Sds → β → Option Sds} {text : β → Bytes}
    (hf : ∀ s b, s.Wf → Appends s (text b) (f s b)) (bs : List β) {s : Sds} (h : s.Wf) :
    Appends s (bs.flatMap text) (bs.foldlM f s) := by
  induction bs generalizing s with
  | nil => exact ⟨s, rfl, h, by simp⟩
  | cons b bs ih =>
    obtain ⟨s₁, hcall, hwf₁, hcontent₁⟩ := hf s b h
    obtain ⟨s₂, hfold, hwf₂, hcontent₂⟩ := ih hwf₁
    refine ⟨s₂, ?_, hwf₂, ?_⟩
    · rw [List.foldlM_cons, hcall]
      exact hfold
    · rw [hcontent₂, hcontent₁, List.flatMap_cons, List.append_assoc]

/-- `sdscatprintf` appends what the format puts out, up to the first NUL. -/
theorem sdscatprintf_spec {s : Sds} (h : s.Wf) (fmt : List PrintfPiece) :
    Appends s (cstr (fmt.flatMap PrintfPiece.bytes)) (sdscatprintf s fmt) := by
  have hbuflen : 1024 ≤ printfBuflen fmt := by
    unfold printfBuflen
    dsimp only
    split_ifs <;> omega
  have hfuel : (fmt.flatMap PrintfPiece.bytes).length + 3
      ≤ printfBuflen fmt + ((fmt.flatMap PrintfPiece.bytes).length + 1) := by omega
  obtain ⟨buf, hloop, hbuf⟩ := vprintfLoop_spec (Nat.succ_pos _) (by omega) hfuel
  refine ⟨sdscat s buf, ?_, h.wf_sdscatlen _, ?_⟩
  · rw [sdscatprintf, hloop]
    rfl
  · rw [sdscat, h.content_sdscatlen, hbuf]

/-! ## What `sdscatrepr` appends -/

/-- The text of one byte between the quotes. -/
def reprByte (c : UInt8) : Bytes :=
  if c = bslash ∨ c = dquote then [bslash, c]
  else if c = lf then [bslash, 110]
  else if c = cr then [bslash, 114]
  else if c = 9 then [bslash, 116]
  else if c = 7 then [bslash, 97]
  else if c = 8 then [bslash, 98]
  else if isprint c then [c]
  else [bslash, 120, hexDigit (c / 16), hexDigit (c % 16)]

/-- The quoted form of a string. -/
def reprText (p : Bytes) : Bytes := dquote :: (p.flatMap reprByte ++ [dquote])

theorem zero_not_mem_reprByte (c : UInt8) : (0 : UInt8) ∉ reprByte c := by
  apply forall_byte (P := fun c => (0 : UInt8) ∉ reprByte c)
  decide +kernel

theorem zero_not_mem_reprText (p : Bytes) : (0 : UInt8) ∉ reprText p := by
  simp [reprText, zero_not_mem_reprByte]

/-- One turn appends the text of its byte. -/
theorem reprStep_spec {s : Sds} (h : s.Wf) (c : UInt8) : Appends s (reprByte c) (reprStep s c) := by
  have h0 := zero_not_mem_reprByte c
  have hcat := appends_sdscatlen h
  -- no text that is printed has a NUL
  have hprint : ∀ fmt : List PrintfPiece, (0 : UInt8) ∉ fmt.flatMap PrintfPiece.bytes →
      Appends s (fmt.flatMap PrintfPiece.bytes) (sdscatprintf s fmt) := by
    intro fmt hfmt
    have happends := sdscatprintf_spec h fmt
    rwa [cstr_of_zero_not_mem hfmt] at happends
  unfold reprStep
  unfold reprByte at h0 ⊢
  split_ifs at h0 ⊢
  · exact hprint [.lit bslash, .char c] h0
  · exact hcat _
  · exact hcat _
  · exact hcat _
  · exact hcat _
  · exact hcat _
  · exact hprint [.char c] h0
  · exact hprint [.lit bslash, .lit 120, .hex2 c] h0

/-- `sdscatrepr` appends the quoted form. -/
theorem sdscatrepr_spec {s : Sds} (h : s.Wf) (p : Bytes) :
    Appends s (reprText p) (sdscatrepr s p) := by
  obtain ⟨s₁, hfold, hwf₁, hcontent₁⟩ :=
    appends_foldlM (fun _ c hs => reprStep_spec hs c) p (h.wf_sdscatlen [dquote])
  refine ⟨sdscatlen s₁ [dquote], ?_, hwf₁.wf_sdscatlen _, ?_⟩
  · rw [sdscatrepr, hfold]
    rfl
  · rw [hwf₁.content_sdscatlen, hcontent₁, h.content_sdscatlen, reprText]
    simp

end RedisCounter
