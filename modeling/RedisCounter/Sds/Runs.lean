import RedisCounter.Lib.Run
import RedisCounter.Sds.Editing
import RedisCounter.Sds.Format
import RedisCounter.Sds.Repr

/-!
# Runs of calls on one string

Whatever is called on a string, in whatever order, its header and its bytes stay in step and its content
is what the same calls make of a list of bytes. Growing, moving to another block, changing the type of
the header and giving free space back are not seen in the content.

`size_t` is ℕ in the model, so a call is made only while the sizes it computes stay below `sizeMax`, from
where on they would come near the end of `ssize_t`.
-/

namespace RedisCounter

open List Run

/-- What a program does to a string that it owns. -/
inductive SdsCall
  | catlen (t : Bytes)
  | cat (t : Bytes)
  | catsds (t : Sds)
  | cpylen (t : Bytes)
  | cpy (t : Bytes)
  | catfmt (fmt : List FmtPiece)
  | catprintf (fmt : List PrintfPiece)
  | catrepr (p : Bytes)
  | growzero (len : ℕ)
  /-- Room for `n` bytes is made, someone writes `t` there, and the length is told by `sdsIncrLen`. -/
  | readInto (n : ℕ) (t : Bytes)
  /-- `sdsIncrLen` with a negative increment. -/
  | shorten (k : ℕ)
  | trim (cset : Bytes)
  | range (start stop : ℤ)
  | lower
  | upper
  | mapchars (src dst : Bytes)
  | clear
  | updatelen
  | removeFreeSpace
  | makeRoomFor (addlen : ℕ)
  | dup

def sdsReadInto (s : Sds) (n : ℕ) (t : Bytes) : Except SdsFault Sds :=
  let oldlen := sdslen s
  let s := sdsMakeRoomFor s n
  sdsIncrLen { s with buf := memcpyAt s.buf oldlen t } t.length

/-- The string that a loop with turns left has built. -/
def printed : Option Sds → Except SdsFault Sds
  | some s => pure s
  | none => throw .printfTurns

def sdsCall (s : Sds) : SdsCall → Except SdsFault Sds
  | .catlen t => pure (sdscatlen s t)
  | .cat t => pure (sdscat s t)
  | .catsds t => pure (sdscatsds s t)
  | .cpylen t => pure (sdscpylen s t)
  | .cpy t => pure (sdscpy s t)
  | .catfmt fmt => pure (sdscatfmt s fmt)
  | .catprintf fmt => printed (sdscatprintf s fmt)
  | .catrepr p => printed (sdscatrepr s p)
  | .growzero len => pure (sdsgrowzero s len)
  | .readInto n t => sdsReadInto s n t
  | .shorten k => sdsIncrLen s (-k)
  | .trim cset => pure (sdstrim s cset)
  | .range start stop => pure (sdsrange s start stop)
  | .lower => pure (sdstolower s)
  | .upper => pure (sdstoupper s)
  | .mapchars src dst => pure (sdsmapchars s src dst)
  | .clear => pure (sdsclear s)
  | .updatelen => pure (sdsupdatelen s)
  | .removeFreeSpace => pure (sdsRemoveFreeSpace s)
  | .makeRoomFor addlen => pure (sdsMakeRoomFor s addlen)
  | .dup => pure (sdsdup s)

/-- As far as a length goes: what is allocated for it, the doubled or added room and the header included,
still is a `ssize_t`. -/
def sizeMax : ℕ := 2 ^ 62

namespace SdsCall

/-- The most bytes for which a call makes room behind the content. -/
def room : SdsCall → ℕ
  | catlen t => t.length
  | cat t => strlen t
  | catsds t => sdslen t
  | cpylen t => t.length
  | cpy t => strlen t
  -- room for one byte is made in front of each piece
  | catfmt fmt => (fmt.flatMap fmtBytes).length + 1
  | catprintf fmt => (fmt.map PrintfPiece.width).sum
  | catrepr p => 4 * p.length + 2
  | growzero len => len
  | readInto n _ => n
  | makeRoomFor addlen => addlen
  | _ => 0

end SdsCall

/-- A call, and the length of the string after it. -/
def sdsStep (s : Sds) (c : SdsCall) : Except SdsFault (Sds × ℕ) := do
  if sizeMax < sdslen s + c.room then throw .sizeOverflow
  let s ← sdsCall s c
  pure (s, sdslen s)

/-! ## What a call means -/

/-- A byte in the table becomes the byte beside it. -/
def translate (table : List (UInt8 × UInt8)) (c : UInt8) : UInt8 := (table.lookup c).getD c

/-- The letters of the C locale, large and small. -/
def letters : List (UInt8 × UInt8) :=
  (ascii "ABCDEFGHIJKLMNOPQRSTUVWXYZ".toList).zip (ascii "abcdefghijklmnopqrstuvwxyz".toList)

/-- Two hexadecimal digits. -/
def hexText (v : UInt8) : Bytes :=
  let digits := ascii "0123456789abcdef".toList
  [digits.getD (v.toNat / 16) 0, digits.getD (v.toNat % 16) 0]

/-- The bytes that are quoted by a letter: the backslash, `"`, `\n`, `\r`, `\t`, `\a` and `\b`. -/
def quotes : List (UInt8 × UInt8) :=
  [(92, 92), (34, 34), (10, 110), (13, 114), (9, 116), (7, 97), (8, 98)]

/-- A byte between quotes: by a letter, as itself if it can be printed, or by its digits. -/
def quotedByte (c : UInt8) : Bytes :=
  match quotes.lookup c with
  | some x => [92, x]
  | none => if 32 ≤ c ∧ c ≤ 126 then [c] else [92, 120] ++ hexText c

/-- The bytes of a piece of a `printf` format. -/
def printfText : PrintfPiece → Bytes
  | .lit c => [c]
  | .char c => [c]
  | .hex2 v => hexText v

/-- The bytes of a piece of a `sdscatfmt` format. -/
def fmtText : FmtPiece → Bytes
  | .char c => [c]
  | .str p => cstr p
  | .sds s => s.content
  | .int num => Decimal.intText num
  | .uint unum => Decimal.natText unum

/-- What a call makes of the content. -/
def sdsEffect (l : Bytes) : SdsCall → Bytes
  | .catlen t => l ++ t
  | .cat t => l ++ cstr t
  | .catsds t => l ++ t.content
  | .cpylen t => t
  | .cpy t => cstr t
  | .catfmt fmt => l ++ fmt.flatMap fmtText
  | .catprintf fmt => l ++ cstr (fmt.flatMap printfText)
  | .catrepr p => l ++ 34 :: (p.flatMap quotedByte ++ [34])
  | .growzero len => l ++ replicate (len - l.length) 0
  | .readInto _ t => l ++ t
  | .shorten k => l.take (l.length - k)
  | .trim cset => (l.dropWhile (· ∈ 0 :: cstr cset)).rdropWhile (· ∈ 0 :: cstr cset)
  | .range start stop => rangeBytes l start stop
  | .lower => l.map (translate letters)
  | .upper => l.map (translate (letters.map Prod.swap))
  | .mapchars src dst => l.map (translate (src.zip dst))
  | .clear => []
  | .updatelen => cstr l
  | .removeFreeSpace | .makeRoomFor _ | .dup => l

def sdsMachine (l : Bytes) (c : SdsCall) : Bytes × ℕ := (sdsEffect l c, (sdsEffect l c).length)

/-! ## What a caller keeps to -/

instance (s : Sds) : Decidable s.Wf :=
  decidable_of_iff (s.len ≤ sdsalloc s ∧ s.type.trunc (sdsalloc s) = sdsalloc s ∧
    s.len ≤ s.buf.length ∧ s.buf[s.len]? = some 0)
    ⟨fun ⟨h1, h2, h3, h4⟩ => ⟨⟨h1, h2, h3⟩, h4⟩, fun h => ⟨h.len_le, h.fits, h.le_length, h.term⟩⟩

/-- The argument has the type of its conversion. -/
def FmtPiece.Typed : FmtPiece → Prop
  | .sds s => s.Wf
  | .int num => LONG_MIN ≤ num ∧ num ≤ LONG_MAX
  | .uint unum => unum < 2 ^ 64
  | _ => True

instance : ∀ f : FmtPiece, Decidable f.Typed
  | .sds s => inferInstanceAs (Decidable s.Wf)
  | .int num => inferInstanceAs (Decidable (LONG_MIN ≤ num ∧ num ≤ LONG_MAX))
  | .uint unum => inferInstanceAs (Decidable (unum < 2 ^ 64))
  | .char _ => .isTrue trivial
  | .str _ => .isTrue trivial

/-- The arguments are strings and numbers of their types; a literal of `printf` is no `%`, and its buffer
has an `int` of bytes at most; what `sdsIncrLen` asserts, seen from the content; and indexes of
`sdsrange` that give a length which is a `ssize_t`. -/
def SdsCall.Proper (l : Bytes) : SdsCall → Prop
  | .catsds t => t.Wf
  | .catfmt fmt => ∀ f ∈ fmt, f.Typed
  | .catprintf fmt => .lit 37 ∉ fmt ∧ (fmt.map PrintfPiece.width).sum < 2 ^ 29
  | .readInto n t => t ≠ [] ∧ t.length ≤ n
  | .shorten k => 0 < k ∧ k ≤ l.length
  | .range start stop => (LONG_MIN ≤ start ∧ start ≤ LONG_MAX) ∧ LONG_MIN ≤ stop ∧ stop < LONG_MAX
  | .mapchars src dst => src.length = dst.length
  | _ => True

instance (l : Bytes) : DecidablePred (SdsCall.Proper l) := fun c => by
  unfold SdsCall.Proper
  split <;> infer_instance

/-- A proper call whose sizes stay below the limit. -/
def SdsAllowed (l : Bytes) (c : SdsCall) : Prop := l.length + c.room ≤ sizeMax ∧ c.Proper l

instance (l : Bytes) : DecidablePred (SdsAllowed l) := fun c =>
  inferInstanceAs (Decidable (l.length + c.room ≤ sizeMax ∧ c.Proper l))

/-! ## One call -/

/-- A call that leaves a well-formed string with this content. -/
def Leaves (l : Bytes) (r : Except SdsFault Sds) : Prop := ∃ s, r = .ok s ∧ s.Wf ∧ s.content = l

theorem leaves_pure {s : Sds} {l : Bytes} (h : s.Wf ∧ s.content = l) : Leaves l (pure s) :=
  ⟨s, rfl, h⟩

theorem Appends.leaves {s : Sds} {t : Bytes} {r : Option Sds} (h : Appends s t r) :
    Leaves (s.content ++ t) (printed r) := by
  obtain ⟨s', rfl, hs'⟩ := h
  exact leaves_pure hs'

theorem fmtBytes_eq {f : FmtPiece} (h : f.Typed) : fmtBytes f = fmtText f := by
  cases f with
  | char c => rfl
  | str p => rfl
  | sds s => rfl
  | int num => exact fmtBytes_int h.1 h.2
  | uint unum => exact fmtBytes_uint h

theorem printfBytes_eq : PrintfPiece.bytes = printfText := by
  have hhex : ∀ v : UInt8, [hexDigit (v / 16), hexDigit (v % 16)] = hexText v := by
    apply forall_byte
    decide +kernel
  funext f
  cases f with
  | lit c => rfl
  | char c => rfl
  | hex2 v => exact hhex v

theorem reprText_eq (p : Bytes) : reprText p = 34 :: (p.flatMap quotedByte ++ [34]) := by
  have hbyte : ∀ c : UInt8, reprByte c = quotedByte c := by
    apply forall_byte
    decide +kernel
  rw [reprText, funext hbyte]

theorem tolower_eq : tolower = translate letters := by
  funext c
  apply forall_byte (P := fun c => tolower c = translate letters c)
  decide +kernel

theorem toupper_eq : toupper = translate (letters.map Prod.swap) := by
  funext c
  apply forall_byte (P := fun c => toupper c = translate (letters.map Prod.swap) c)
  decide +kernel

/-- The search through the two sets is a search for the pair. -/
theorem mapchar_eq (c : UInt8) (src dst : Bytes) : mapchar c src dst = translate (src.zip dst) c := by
  induction src generalizing dst with
  | nil => rfl
  | cons f src ih =>
    cases dst with
    | nil => rfl
    | cons t dst =>
      rw [mapchar, translate, zip_cons_cons, lookup_cons]
      by_cases hc : c = f
      · simp [hc]
      · rw [if_neg hc, ih, beq_false_of_ne hc]
        rfl

theorem strchr_eq (cset : Bytes) : strchr cset = fun c => decide (c ∈ 0 :: cstr cset) := by
  funext c
  rw [Bool.eq_iff_iff, decide_eq_true_iff, mem_cons]
  simp [strchr]

theorem Sds.Wf.sdscatlen_spec {s : Sds} (h : s.Wf) (t : Bytes) :
    (sdscatlen s t).Wf ∧ (sdscatlen s t).content = s.content ++ t :=
  ⟨h.wf_sdscatlen t, h.content_sdscatlen t⟩

theorem sdsCall_leaves {s : Sds} (h : s.Wf) {c : SdsCall} (hc : c.Proper s.content) :
    Leaves (sdsEffect s.content c) (sdsCall s c) := by
  cases c with
  | catlen t => exact leaves_pure (h.sdscatlen_spec t)
  | cat t => exact leaves_pure (h.sdscatlen_spec (cstr t))
  | catsds t => exact leaves_pure (h.sdscatlen_spec t.content)
  | cpylen t => exact leaves_pure (h.sdscpylen_spec t)
  | cpy t => exact leaves_pure (h.sdscpylen_spec (cstr t))
  | catfmt fmt =>
    have htext : fmt.flatMap fmtBytes = fmt.flatMap fmtText :=
      flatMap_congr fun f hf => fmtBytes_eq (hc f hf)
    rw [sdsEffect, ← htext]
    exact leaves_pure (sdscatfmt_spec h fmt)
  | catprintf fmt =>
    rw [sdsEffect, ← printfBytes_eq]
    exact (sdscatprintf_spec h fmt).leaves
  | catrepr p =>
    rw [sdsEffect, ← reprText_eq]
    exact (sdscatrepr_spec h p).leaves
  | growzero len => exact leaves_pure (h.sdsgrowzero_spec len)
  | readInto n t => exact h.sdsIncrLen_makeRoom hc.1 hc.2
  | shorten k =>
    have hk : k ≤ s.len := h.content_length ▸ hc.2
    obtain ⟨s', hok, hwf, hcontent⟩ := h.sdsIncrLen_neg hc.1 hk
    exact ⟨s', hok, hwf, hcontent.trans (by rw [sdsEffect, h.content_length])⟩
  | trim cset =>
    rw [sdsEffect, ← strchr_eq]
    exact leaves_pure (h.sdstrim_spec cset)
  | range start stop => exact leaves_pure (h.sdsrange_spec start stop)
  | lower =>
    rw [sdsEffect, ← tolower_eq]
    exact leaves_pure (h.sdsmap_spec tolower)
  | upper =>
    rw [sdsEffect, ← toupper_eq]
    exact leaves_pure (h.sdsmap_spec toupper)
  | mapchars src dst =>
    have hmap : (mapchar · src dst) = translate (src.zip dst) := funext fun c => mapchar_eq c src dst
    rw [sdsEffect, ← hmap]
    exact leaves_pure (h.sdsmap_spec (mapchar · src dst))
  | clear => exact leaves_pure h.sdsclear_spec
  | updatelen => exact leaves_pure h.sdsupdatelen_spec
  | removeFreeSpace => exact leaves_pure ⟨h.sdsRemoveFreeSpace_spec.1, h.sdsRemoveFreeSpace_spec.2.1⟩
  | makeRoomFor addlen =>
    have hgrown := h.makeRoom addlen
    exact leaves_pure ⟨hgrown.wf h, hgrown.content⟩
  | dup => exact leaves_pure ⟨h.wf_sdsdup, h.content_sdsdup⟩

/-! ## Whole runs -/

/-- A string, and the bytes a program thinks of. -/
def Holds (s : Sds) (l : Bytes) : Prop := s.Wf ∧ s.content = l

theorem sdsStep_spec {s : Sds} {l : Bytes} {c : SdsCall} (h : Holds s l) (hc : SdsAllowed l c) :
    ∃ s', sdsStep s c = .ok (s', (sdsMachine l c).2) ∧ Holds s' (sdsMachine l c).1 := by
  obtain ⟨hwf, rfl⟩ := h
  obtain ⟨s', hok, hwf', hcontent⟩ := sdsCall_leaves hwf hc.2
  have hfit : ¬ sizeMax < sdslen s + c.room := by
    rw [sdslen, ← hwf.content_length]
    exact Nat.not_lt.2 hc.1
  refine ⟨s', ?_, hwf', hcontent⟩
  rw [sdsStep, if_neg hfit, hok, sdsMachine, ← hcontent, hwf'.content_length]
  rfl

/-- Proper calls on a string that was made from some bytes, whose sizes stay below the limit: none fails,
each length is right, and in the end the string is well formed and holds what the calls make of the
bytes. -/
theorem sdsStep_refines (init : Bytes) (calls : List SdsCall)
    (h : Admissible sdsMachine SdsAllowed init calls) :
    ∃ s, run sdsStep (sdsnewlen init init.length) calls = .ok (s, (arun sdsMachine init calls).2) ∧
      s.Wf ∧ s.content = (arun sdsMachine init calls).1 := by
  have hnew : Holds (sdsnewlen init init.length) init :=
    ⟨wf_sdsnewlen le_rfl, (content_sdsnewlen le_rfl).trans take_length⟩
  exact simulation_run Holds (fun _ _ c hs hc => sdsStep_spec (c := c) hs hc) h hnew

/-- `"  get x\r\n"` is read into an empty string, trimmed, cut, quoted and given its exact room. -/
theorem sdsStep_refines_line :
    ∃ s, run sdsStep (sdsnewlen [] 0)
        [.readInto 16 [32, 32, 103, 101, 116, 32, 120, 13, 10], .trim [32, 13, 10], .shorten 1, .upper,
          .range (-3) (-2), .catrepr [10], .removeFreeSpace]
      = .ok (s, [9, 5, 4, 4, 2, 6, 6]) ∧ s.Wf ∧ s.content = [69, 84, 34, 92, 110, 34] :=
  sdsStep_refines []
    [.readInto 16 [32, 32, 103, 101, 116, 32, 120, 13, 10], .trim [32, 13, 10], .shorten 1, .upper,
      .range (-3) (-2), .catrepr [10], .removeFreeSpace]
    ⟨by decide, by decide, by decide, by decide, by decide, by decide, by decide, trivial⟩

end RedisCounter
