import Mathlib.Data.List.DropRight
import RedisCounter.Sds.Basic

/-!
# Editing a string in place

The functions of `sds.c` that shorten a string, write into it or give its free space away. Each keeps
the header in step with the bytes and the NUL behind them, and each is described by what it does to the
content: a list of bytes that is trimmed, cut, mapped or filled up. `char` is compared as a byte, which
makes no difference where only equality counts.
-/

namespace RedisCounter

open List

/-- What the code does not survive. -/
inductive SdsFault
  /-- An assertion of `sdsIncrLen` fails. -/
  | assertIncr
  /-- A byte is written behind bytes that nobody has written. -/
  | bufferBounds
  /-- `tokens` is written outside its slots. -/
  | tokensBounds
  /-- The loop of `sdscatvprintf` runs out of turns. -/
  | printfTurns
  /-- A size comes near the end of `ssize_t`. -/
  | sizeOverflow
  /-- An `int` overflows. -/
  | intOverflow
deriving DecidableEq, Repr

/-! ## The code -/

def sdscatsds (s t : Sds) : Sds := sdscatlen s (t.buf.take (sdslen t))

def sdsupdatelen (s : Sds) : Sds := sdssetlen s (strlen s.buf)

def sdsclear (s : Sds) : Sds :=
  let s := sdssetlen s 0
  { s with buf := memcpyAt s.buf 0 [0] }

/-- `sdsRemoveFreeSpace`: a header that is large for the content is replaced only by the two smallest. -/
def sdsRemoveFreeSpace (s : Sds) : Sds :=
  let len := sdslen s
  let type := sdsReqType len
  let moved := { s with buf := s.buf.take (len + 1), block := s.block + 1 }
  if s.type = type ∨ type.code > SdsType.type8.code then sdssetalloc moved len
  else sdssetalloc (sdssetlen { moved with type } len) len

def sdsAllocSize (s : Sds) : ℕ := s.type.hdrSize + sdsalloc s + 1

/-- The assertions of `sdsIncrLen`. -/
def incrAsserted (s : Sds) (incr : ℤ) : Prop :=
  match s.type with
  | .type5 => (0 < incr ∧ s.len + incr < 32) ∨ (incr < 0 ∧ (-incr) % 2 ^ 32 ≤ s.len)
  | .type8 => (0 ≤ incr ∧ incr ≤ (s.alloc : ℤ) - s.len) ∨ (incr < 0 ∧ (-incr) % 2 ^ 32 ≤ s.len)
  | .type16 => (0 ≤ incr ∧ incr ≤ (s.alloc : ℤ) - s.len) ∨ (incr < 0 ∧ (-incr) % 2 ^ 32 ≤ s.len)
  | .type32 =>
    (0 ≤ incr ∧ incr % 2 ^ 32 ≤ (s.alloc : ℤ) - s.len) ∨ (incr < 0 ∧ (-incr) % 2 ^ 32 ≤ s.len)
  | .type64 => (0 ≤ incr ∧ incr ≤ (s.alloc : ℤ) - s.len) ∨ (incr < 0 ∧ -incr ≤ s.len)

instance (s : Sds) (incr : ℤ) : Decidable (incrAsserted s incr) := by
  unfold incrAsserted
  cases s.type <;> infer_instance

/-- `len` after `sh->len += incr`: the narrow fields wrap, a `size_t` does not get there. -/
def incrLen (s : Sds) (incr : ℤ) : ℤ :=
  match s.type with
  | .type5 => s.len + incr
  | .type8 => (s.len + incr) % 2 ^ 8
  | .type16 => (s.len + incr) % 2 ^ 16
  | .type32 => (s.len + incr) % 2 ^ 32
  | .type64 => s.len + incr

def sdsIncrLen (s : Sds) (incr : ℤ) : Except SdsFault Sds :=
  if incrAsserted s incr then
    let len := incrLen s incr
    if 0 ≤ len ∧ len ≤ s.buf.length then
      pure (sdssetlen { s with buf := memcpyAt s.buf len.toNat [0] } len.toNat)
    else throw .bufferBounds
  else throw .assertIncr

def sdsgrowzero (s : Sds) (len : ℕ) : Sds :=
  let curlen := sdslen s
  if len ≤ curlen then s
  else
    let s := sdsMakeRoomFor s (len - curlen)
    sdssetlen { s with buf := memcpyAt s.buf curlen (replicate (len - curlen + 1) 0) } len

/-- `strchr(cset, c) != NULL`: the NUL that ends the string is found as well. -/
def strchr (cset : Bytes) (c : UInt8) : Bool := c == 0 || (cstr cset).contains c

/-- `while(sp <= end && strchr(cset, *sp)) sp++;` with `n` bytes up to `end`. -/
def trimStart (buf cset : Bytes) : ℕ → ℕ → ℕ
  | 0, sp => sp
  | n + 1, sp => if strchr cset (readByte buf sp) then trimStart buf cset n (sp + 1) else sp

/-- `while(ep > sp && strchr(cset, *ep)) ep--;` where the argument is `ep + 1`. -/
def trimEnd (buf cset : Bytes) (sp : ℕ) : ℕ → ℕ
  | 0 => 0
  | ep + 1 => if ep > sp ∧ strchr cset (readByte buf ep) then trimEnd buf cset sp ep else ep + 1

/-- `memmove(s, s+start, n)`. -/
def memmoveDown (buf : Bytes) (start n : ℕ) : Bytes := memcpyAt buf 0 ((buf.drop start).take n)

def sdstrim (s : Sds) (cset : Bytes) : Sds :=
  let sp := trimStart s.buf cset (sdslen s) 0
  let len := trimEnd s.buf cset sp (sdslen s) - sp
  let buf := if sp ≠ 0 then memmoveDown s.buf sp len else s.buf
  sdssetlen { s with buf := memcpyAt buf len [0] } len

/-- An index from the end, if it is negative. -/
def rangeIndex (len : ℕ) (i : ℤ) : ℤ := if i < 0 then (if len + i < 0 then 0 else len + i) else i

/-- Where the range of `sdsrange` starts, and `newlen`. -/
def rangePart (len : ℕ) (start stop : ℤ) : ℤ × ℤ :=
  let newlen := if start > stop then 0 else stop - start + 1
  if newlen ≠ 0 then
    if start ≥ len then (start, 0)
    else if stop ≥ len then
      let stop : ℤ := len - 1
      (start, if start > stop then 0 else stop - start + 1)
    else (start, newlen)
  else (0, newlen)

def sdsrange (s : Sds) (start stop : ℤ) : Sds :=
  let len := sdslen s
  if len = 0 then s
  else
    let (start, newlen) := rangePart len (rangeIndex len start) (rangeIndex len stop)
    let buf :=
      if start ≠ 0 ∧ newlen ≠ 0 then memmoveDown s.buf start.toNat newlen.toNat else s.buf
    sdssetlen { s with buf := memcpyAt buf newlen.toNat [0] } newlen.toNat

/-- `for (j = 0; j < len; j++) s[j] = f(s[j]);` -/
def sdsmap (f : UInt8 → UInt8) (s : Sds) : Sds :=
  { s with buf := (s.buf.take (sdslen s)).map f ++ s.buf.drop (sdslen s) }

/-- `tolower` and `toupper` in the C locale. -/
def tolower (c : UInt8) : UInt8 := if 65 ≤ c ∧ c ≤ 90 then c + 32 else c

def toupper (c : UInt8) : UInt8 := if 97 ≤ c ∧ c ≤ 122 then c - 32 else c

def sdstolower : Sds → Sds := sdsmap tolower

def sdstoupper : Sds → Sds := sdsmap toupper

/-- The inner loop of `sdsmapchars`, over the sets from `i` on. -/
def mapchar (c : UInt8) : Bytes → Bytes → UInt8
  | f :: src, t :: dst => if c = f then t else mapchar c src dst
  | _, _ => c

/-- `sdsmapchars`, with the `setlen` bytes of `from` and of `to`. -/
def sdsmapchars (s : Sds) (src dst : Bytes) : Sds := sdsmap (mapchar · src dst) s

/-! ## Cutting a string -/

/-- What is left after writing a NUL behind `n` bytes that may have been moved down. -/
theorem cut_spec {s : Sds} (h : s.Wf) (start n : ℕ) (hle : start + n ≤ s.len) {buf : Bytes}
    (hbuf : buf = memmoveDown s.buf start n) :
    (sdssetlen { s with buf := memcpyAt buf n [0] } n).Wf ∧
      (sdssetlen { s with buf := memcpyAt buf n [0] } n).content
        = (s.content.take (start + n)).drop start := by
  have hlen := h.le_length
  have hn : ((s.buf.drop start).take n).length = n := by
    rw [length_take, length_drop]
    omega
  have hfit : 0 + ((s.buf.drop start).take n).length ≤ sdsalloc s := by
    have := h.len_le
    omega
  have hspec := write_spec h.toFits (Nat.zero_le _) hfit
  rw [Nat.zero_add, hn, take_zero, nil_append] at hspec
  subst hbuf
  refine ⟨hspec.1, hspec.2.trans ?_⟩
  rw [Sds.content, take_take, min_eq_left hle, drop_take, Nat.add_sub_cancel_left]

theorem memmoveDown_zero {buf : Bytes} {n : ℕ} (h : n ≤ buf.length) : memmoveDown buf 0 n = buf := by
  rw [memmoveDown, memcpyAt, drop_zero, take_zero, nil_append, length_take, min_eq_left h,
    Nat.zero_add, take_append_drop]

/-- `strlen` ends at a NUL. -/
theorem getElem?_strlen {p : Bytes} (h : strlen p < p.length) : p[strlen p]? = some 0 := by
  induction p with
  | nil => exact absurd h (Nat.not_lt_zero _)
  | cons c p ih =>
    by_cases hc : c = 0
    · rw [hc]
      rfl
    · have hstrlen : strlen (c :: p) = strlen p + 1 := by simp [strlen, cstr, hc]
      rw [hstrlen] at h ⊢
      exact ih (Nat.lt_of_succ_lt_succ h)

/-- The content now ends at its first NUL. -/
theorem Sds.Wf.sdsupdatelen_spec {s : Sds} (h : s.Wf) :
    (sdsupdatelen s).Wf ∧ (sdsupdatelen s).content = cstr s.content := by
  have hle : strlen s.buf ≤ s.len := by
    rw [strlen, h.cstr_buf, ← h.content_length]
    exact strlen_le s.content
  have halloc := hle.trans h.len_le
  have htrunc : s.type.trunc (strlen s.buf) = strlen s.buf := SdsType.trunc_of_le halloc h.fits
  have htake : s.buf.take (strlen s.buf) = cstr s.buf :=
    (prefix_iff_eq_take.1 (List.takeWhile_prefix _)).symm
  have hterm : s.buf[strlen s.buf]? = some 0 := getElem?_strlen (hle.trans_lt h.lt_length)
  rw [sdsupdatelen, sdssetlen, htrunc]
  refine ⟨⟨fits_of_len h.toFits rfl rfl halloc (hle.trans h.le_length), hterm⟩, ?_⟩
  rw [Sds.content]
  exact htake.trans h.cstr_buf

theorem Sds.Wf.sdsclear_spec {s : Sds} (h : s.Wf) : (sdsclear s).Wf ∧ (sdsclear s).content = [] := by
  have hcut := cut_spec h 0 0 (Nat.zero_le _) (memmoveDown_zero (Nat.zero_le _)).symm
  exact hcut

/-! ## Trimming -/

variable {cset : Bytes}

theorem readByte_eq {buf : Bytes} {i : ℕ} (h : i < buf.length) : readByte buf i = buf[i] := by
  rw [readByte, getD_eq_getElem?_getD, getElem?_eq_getElem h, Option.getD_some]

theorem trimStart_eq {buf : Bytes} {n sp : ℕ} (h : sp + n ≤ buf.length) :
    trimStart buf cset n sp = sp + (((buf.drop sp).take n).takeWhile (strchr cset)).length := by
  induction n generalizing sp with
  | zero => rfl
  | succ n ih =>
    have hlt : sp < buf.length := by omega
    have hread : readByte buf sp = buf[sp] := readByte_eq hlt
    rw [trimStart, hread, drop_eq_getElem_cons hlt, take_succ_cons]
    split_ifs with hc
    · rw [ih (by omega), takeWhile_cons_of_pos hc, length_cons]
      omega
    · rw [takeWhile_cons_of_neg hc]
      rfl

/-- What is in front of `sp` stays; the rest loses its last bytes of the set. -/
theorem trimEnd_spec {buf : Bytes} {sp e : ℕ} (hlt : sp < e) (he : e ≤ buf.length)
    (hsp : ¬ strchr cset (readByte buf sp)) :
    sp < trimEnd buf cset sp e ∧ trimEnd buf cset sp e ≤ e ∧
      (buf.take (trimEnd buf cset sp e)).drop sp
        = ((buf.take e).drop sp).rdropWhile (strchr cset) := by
  induction e with
  | zero => omega
  | succ e ih =>
    have hread : readByte buf e = buf[e] := readByte_eq (by omega)
    have hsnoc : (buf.take (e + 1)).drop sp = (buf.take e).drop sp ++ [buf[e]] := by
      rw [take_succ_eq_append_getElem (by omega), drop_append_of_le_length]
      rw [length_take]
      omega
    rw [trimEnd, hsnoc]
    split_ifs with hc
    · obtain ⟨h1, h2, h3⟩ := ih hc.1 (by omega)
      refine ⟨h1, by omega, h3.trans ?_⟩
      rw [rdropWhile_concat_pos _ _ _ (hread ▸ hc.2)]
    · have hlast : ¬ strchr cset buf[e] := by
        rw [← hread]
        rcases lt_or_eq_of_le (Nat.le_of_lt_succ hlt) with hspe | rfl
        · exact fun hin => hc ⟨hspe, hin⟩
        · exact hsp
      refine ⟨hlt, le_rfl, ?_⟩
      rw [rdropWhile_concat_neg _ _ _ hlast, hsnoc]

/-- Trimming takes the characters of the set, and NULs, off both ends. -/
theorem Sds.Wf.sdstrim_spec {s : Sds} (h : s.Wf) (cset : Bytes) :
    (sdstrim s cset).Wf ∧ (sdstrim s cset).content
      = (s.content.dropWhile (strchr cset)).rdropWhile (strchr cset) := by
  have hsp : trimStart s.buf cset (sdslen s) 0 = (s.content.takeWhile (strchr cset)).length := by
    rw [trimStart_eq (by rw [Nat.zero_add]; exact h.le_length), Nat.zero_add, drop_zero]
    rfl
  have hsple : (s.content.takeWhile (strchr cset)).length ≤ s.len := by
    rw [← h.content_length]
    exact (List.takeWhile_prefix _).length_le
  have hdrop : s.content.drop (s.content.takeWhile (strchr cset)).length
      = s.content.dropWhile (strchr cset) := by
    have hleft : (s.content.takeWhile (strchr cset) ++ s.content.dropWhile (strchr cset)).drop
        (s.content.takeWhile (strchr cset)).length = s.content.dropWhile (strchr cset) := drop_left
    rwa [takeWhile_append_dropWhile] at hleft
  generalize hgen : (s.content.takeWhile (strchr cset)).length = sp at *
  obtain ⟨e, hle, he, heq, hcontent⟩ : ∃ e, sp ≤ e ∧ e ≤ s.len ∧
      trimEnd s.buf cset sp (sdslen s) = e ∧ (s.content.take e).drop sp
        = (s.content.dropWhile (strchr cset)).rdropWhile (strchr cset) := by
    rcases lt_or_eq_of_le hsple with hlt | rfl
    · -- a character that is not in the set stops both loops
      have hhead : ¬ strchr cset (readByte s.buf sp) := by
        have hget : s.content[sp]? = some (readByte s.buf sp) := by
          have hbuf : sp < s.buf.length := hlt.trans h.lt_length
          rw [readByte_eq hbuf, Sds.content, getElem?_take_of_lt hlt, getElem?_eq_getElem hbuf]
        have hhead? := head?_dropWhile_not (strchr cset) s.content
        rw [← hdrop, head?_drop, hget] at hhead?
        exact Bool.eq_false_iff.1 hhead?
      obtain ⟨h1, h2, h3⟩ := trimEnd_spec hlt h.le_length hhead
      refine ⟨_, h1.le, h2, rfl, ?_⟩
      rw [Sds.content, take_take, min_eq_left h2]
      exact h3.trans (congrArg _ hdrop)
    · refine ⟨s.len, le_rfl, le_rfl, ?_, ?_⟩
      · rw [sdslen]
        cases s.len with
        | zero => rfl
        | succ ep => exact if_neg fun hc => absurd hc.1 (by omega)
      · rw [take_of_length_le h.content_length.le, hdrop, ← hdrop, drop_of_length_le h.content_length.le]
        rfl
  have hbuf : (if sp ≠ 0 then memmoveDown s.buf sp (e - sp) else s.buf)
      = memmoveDown s.buf sp (e - sp) := by
    split_ifs with h0
    · rfl
    · rw [not_not.1 h0, memmoveDown_zero]
      have := h.le_length
      omega
  have hcut := cut_spec h sp (e - sp) (by omega) hbuf
  rw [Nat.add_sub_cancel' hle, hcontent] at hcut
  rw [sdstrim, hsp, heq]
  exact hcut

/-! ## Ranges -/

/-- Where an index stands: a negative one counts from the end, and none is in front of the string. -/
def indexAt (len : ℕ) (i : ℤ) : ℕ := (if 0 ≤ i then i else len + i).toNat

theorem rangeIndex_eq (len : ℕ) (i : ℤ) : rangeIndex len i = indexAt len i := by
  unfold rangeIndex indexAt
  split_ifs <;> omega

/-- The bytes from one index to another, both included. -/
def rangeBytes (l : Bytes) (start stop : ℤ) : Bytes :=
  (l.take (indexAt l.length stop + 1)).drop (indexAt l.length start)

theorem rangePart_spec (len a b : ℕ) :
    ∃ start newlen : ℕ, rangePart len a b = ((start : ℤ), (newlen : ℤ)) ∧
      (newlen = 0 ∧ (len ≤ a ∨ b < a) ∨
        newlen ≠ 0 ∧ start = a ∧ start + newlen = min len (b + 1)) := by
  unfold rangePart
  dsimp only
  by_cases hab : (a : ℤ) > b
  · rw [if_pos hab, if_neg (by simp)]
    exact ⟨0, 0, rfl, .inl ⟨rfl, by omega⟩⟩
  · rw [if_neg hab, if_pos (by omega)]
    by_cases ha : (a : ℤ) ≥ len
    · rw [if_pos ha]
      exact ⟨a, 0, rfl, .inl ⟨rfl, by omega⟩⟩
    · rw [if_neg ha]
      by_cases hb : (b : ℤ) ≥ len
      · rw [if_pos hb, if_neg (by omega)]
        have hn : (len : ℤ) - 1 - a + 1 = (len - a : ℕ) := by omega
        exact ⟨a, len - a, by rw [hn], .inr (by omega)⟩
      · rw [if_neg hb]
        have hn : (b : ℤ) - a + 1 = (b - a + 1 : ℕ) := by omega
        exact ⟨a, b - a + 1, by rw [hn], .inr (by omega)⟩

/-- A range is cut out, whatever the indexes are. -/
theorem Sds.Wf.sdsrange_spec {s : Sds} (h : s.Wf) (start stop : ℤ) :
    (sdsrange s start stop).Wf ∧ (sdsrange s start stop).content = rangeBytes s.content start stop := by
  have hlen := h.content_length
  rw [rangeBytes, hlen]
  by_cases h0 : s.len = 0
  · rw [sdsrange, sdslen, if_pos h0]
    have hnil : s.content = [] := by rw [← length_eq_zero_iff, hlen, h0]
    exact ⟨h, by rw [hnil, take_nil, drop_nil]⟩
  · generalize ha : indexAt s.len start = a
    generalize hb : indexAt s.len stop = b
    obtain ⟨i, n, hpart, hcases⟩ := rangePart_spec s.len a b
    have heq : ∀ buf, (if (i : ℤ) ≠ 0 ∧ (n : ℤ) ≠ 0 then memmoveDown s.buf i n else s.buf) = buf →
        sdsrange s start stop = sdssetlen { s with buf := memcpyAt buf n [0] } n := by
      rintro buf rfl
      rw [sdsrange, sdslen, if_neg h0, rangeIndex_eq, rangeIndex_eq, ha, hb]
      simp only [hpart]
      rfl
    rcases hcases with ⟨rfl, hout⟩ | ⟨hn, rfl, hend⟩
    · -- nothing of the string is in the range
      rw [heq s.buf (if_neg fun hc => hc.2 rfl)]
      have hcut := cut_spec h 0 0 (Nat.zero_le _) (memmoveDown_zero (Nat.zero_le _)).symm
      refine ⟨hcut.1, hcut.2.trans (drop_of_length_le ?_).symm⟩
      rw [length_take, hlen]
      omega
    · have hbuf : (if (i : ℤ) ≠ 0 ∧ (n : ℤ) ≠ 0 then memmoveDown s.buf i n else s.buf)
          = memmoveDown s.buf i n := by
        have hbuflen := h.le_length
        split_ifs with hc
        · rfl
        · obtain rfl : i = 0 := by omega
          rw [memmoveDown_zero (by omega)]
      have hcut := cut_spec h i n (by omega) rfl
      rw [heq _ hbuf]
      refine ⟨hcut.1, hcut.2.trans ?_⟩
      rw [hend, min_comm, ← hlen, ← take_eq_take_min]

/-! ## Writing behind the content -/

/-- The bytes added are zeros. -/
theorem Sds.Wf.sdsgrowzero_spec {s : Sds} (h : s.Wf) (len : ℕ) :
    (sdsgrowzero s len).Wf ∧
      (sdsgrowzero s len).content = s.content ++ replicate (len - s.content.length) 0 := by
  rw [h.content_length]
  unfold sdsgrowzero
  dsimp only [sdslen]
  split_ifs with hle
  · rw [Nat.sub_eq_zero_of_le hle, replicate_zero, append_nil]
    exact ⟨h, rfl⟩
  · have hg := h.makeRoom (len - s.len)
    have hfit := hg.fits.len_add_le hg.avail
    have hzeros : (replicate (len - s.len) (0 : UInt8)).length = len - s.len := length_replicate
    have hspec := write_spec (t := replicate (len - s.len) 0) hg.fits hg.len.ge
      (by rw [hzeros]; rw [hg.len] at hfit; exact hfit)
    have hadd : s.len + (len - s.len) = len := by omega
    have hmemset : memcpyAt (sdsMakeRoomFor s (len - s.len)).buf s.len
        (replicate (len - s.len + 1) 0)
        = memcpyAt (memcpyAt (sdsMakeRoomFor s (len - s.len)).buf s.len
          (replicate (len - s.len) 0)) (s.len + (replicate (len - s.len) (0 : UInt8)).length) [0] := by
      have hle' : s.len ≤ (sdsMakeRoomFor s (len - s.len)).buf.length := hg.len.ge.trans hg.fits.le_length
      rw [memcpyAt_memcpyAt_zero _ hle', hzeros, memcpyAt, length_replicate, replicate_succ']
      simp [Nat.add_assoc]
    rw [← hmemset, hzeros, hadd, hg.content, take_of_length_le h.content_length.le] at hspec
    exact hspec

/-- Mapping the bytes where they are. -/
theorem Sds.Wf.sdsmap_spec {s : Sds} (h : s.Wf) (f : UInt8 → UInt8) :
    (sdsmap f s).Wf ∧ (sdsmap f s).content = s.content.map f := by
  have hlen : ((s.buf.take s.len).map f).length = s.len := by
    rw [length_map]
    exact h.content_length
  have hterm : (sdsmap f s).buf[s.len]? = some 0 := by
    rw [sdsmap, sdslen]
    dsimp only
    rw [getElem?_append_right hlen.le, hlen, Nat.sub_self, getElem?_drop, Nat.add_zero]
    exact h.term
  refine ⟨⟨⟨h.len_le, h.fits, ?_⟩, hterm⟩, ?_⟩
  · exact (List.getElem?_eq_some_iff.1 hterm).1.le
  · exact take_left' hlen

/-- The string in a block of its length behind a header that can tell it. -/
theorem shrink_spec {s : Sds} (h : s.Wf) {t : SdsType} (ht : t.trunc s.len = s.len) (block : ℕ) :
    (sdssetalloc { s with type := t, buf := s.buf.take (s.len + 1), block } s.len).Wf ∧
      (sdssetalloc { s with type := t, buf := s.buf.take (s.len + 1), block } s.len).content
        = s.content ∧
      sdsavail (sdssetalloc { s with type := t, buf := s.buf.take (s.len + 1), block } s.len) = 0 := by
  have hlength : s.len ≤ (s.buf.take (s.len + 1)).length := by
    have := h.lt_length
    rw [length_take]
    omega
  have hterm : (s.buf.take (s.len + 1))[s.len]? = some 0 := by
    rw [getElem?_take_of_lt (Nat.lt_succ_self _)]
    exact h.term
  have hcontent : (s.buf.take (s.len + 1)).take s.len = s.content := by
    rw [take_take, min_eq_left (Nat.le_succ _), Sds.content]
  by_cases h5 : t = .type5
  · subst h5
    exact ⟨⟨⟨le_rfl, ht, hlength⟩, hterm⟩, hcontent, rfl⟩
  · rw [sdssetalloc_of_ne_type5 h5, ht]
    have halloc : sdsalloc ⟨t, s.len, s.len, s.buf.take (s.len + 1), block⟩ = s.len :=
      sdsalloc_of_ne_type5 h5
    refine ⟨⟨⟨halloc.ge, ?_, hlength⟩, hterm⟩, hcontent, ?_⟩
    · rw [halloc]
      exact ht
    · rw [sdsavail_of_ne_type5 h5]
      exact Nat.sub_self _

/-- No free space is left, and nothing else has changed. -/
theorem Sds.Wf.sdsRemoveFreeSpace_spec {s : Sds} (h : s.Wf) :
    (sdsRemoveFreeSpace s).Wf ∧ (sdsRemoveFreeSpace s).content = s.content ∧
      sdsavail (sdsRemoveFreeSpace s) = 0 := by
  have htrunc := SdsType.trunc_sdsReqType s.len
  unfold sdsRemoveFreeSpace
  dsimp only [sdslen]
  split_ifs with hkeep
  · exact shrink_spec h (SdsType.trunc_of_le h.len_le h.fits) (s.block + 1)
  · have hset : sdssetlen { s with
          type := sdsReqType s.len, buf := s.buf.take (s.len + 1), block := s.block + 1 } s.len
        = { s with
          type := sdsReqType s.len, buf := s.buf.take (s.len + 1), block := s.block + 1 } := by
      rw [sdssetlen, htrunc]
    rw [hset]
    exact shrink_spec h htrunc (s.block + 1)

/-! ## `sdsIncrLen` -/

theorem incrLen_eq {s : Sds} {incr : ℤ} {n : ℕ} (h : s.len + incr = n) (hn : s.type.trunc n = n) :
    incrLen s incr = n := by
  unfold incrLen
  rw [h]
  cases hs : s.type with
  | type5 => rfl
  | type64 => rfl
  | _ =>
    rw [hs, SdsType.trunc] at hn
    dsimp only
    omega

/-- After a smaller length the string ends earlier. -/
theorem Sds.Wf.sdsIncrLen_neg {s : Sds} (h : s.Wf) {k : ℕ} (hpos : 0 < k) (hk : k ≤ s.len) :
    ∃ s', sdsIncrLen s (-k) = .ok s' ∧ s'.Wf ∧ s'.content = s.content.take (s.len - k) := by
  have hle := h.le_length
  have hassert : incrAsserted s (-k) := by
    unfold incrAsserted
    rcases s.type with _ | _ | _ | _ | _ <;> exact .inr ⟨by omega, by omega⟩
  have hlen : incrLen s (-k) = (s.len - k : ℕ) := by
    refine incrLen_eq (by omega) (SdsType.trunc_of_le ?_ h.fits)
    have := h.len_le
    omega
  have hcut := cut_spec h 0 (s.len - k) (by omega) (memmoveDown_zero (by omega)).symm
  refine ⟨_, ?_, hcut.1, hcut.2.trans (by rw [Nat.zero_add, drop_zero])⟩
  rw [sdsIncrLen, if_pos hassert, hlen]
  exact if_pos ⟨by omega, by omega⟩

/-- The documented way to read into a string: make room for `n` bytes, let someone write `t` there, and
add its length. -/
theorem Sds.Wf.sdsIncrLen_makeRoom {s : Sds} (h : s.Wf) {n : ℕ} {t : Bytes} (ht : t ≠ [])
    (hn : t.length ≤ n) :
    ∃ s', sdsIncrLen { sdsMakeRoomFor s n with buf := memcpyAt (sdsMakeRoomFor s n).buf s.len t }
        t.length = .ok s' ∧ s'.Wf ∧ s'.content = s.content ++ t := by
  have hg := h.makeRoom n
  have hpos := length_pos_iff.2 ht
  have hfit := hg.fits.len_add_le (hn.trans hg.avail)
  rw [hg.len] at hfit
  have hlength : s.len ≤ (sdsMakeRoomFor s n).buf.length := hg.len.ge.trans hg.fits.le_length
  have hspec := write_spec hg.fits hg.len.ge hfit
  rw [hg.content, take_of_length_le h.content_length.le] at hspec
  refine ⟨_, ?_, hspec⟩
  have havail := hg.avail
  have h5 : (sdsMakeRoomFor s n).type ≠ .type5 := fun h5 => by
    have hnone : sdsavail (sdsMakeRoomFor s n) = 0 := by simp [sdsavail, h5]
    omega
  rw [sdsavail_of_ne_type5 h5] at havail
  have hassert : incrAsserted { sdsMakeRoomFor s n with
      buf := memcpyAt (sdsMakeRoomFor s n).buf s.len t } t.length := by
    unfold incrAsserted
    dsimp only
    rcases htype : (sdsMakeRoomFor s n).type with _ | _ | _ | _ | _
    · exact absurd htype h5
    all_goals exact .inl ⟨by omega, by omega⟩
  have hlen : incrLen { sdsMakeRoomFor s n with buf := memcpyAt (sdsMakeRoomFor s n).buf s.len t }
      t.length = (s.len + t.length : ℕ) := by
    refine incrLen_eq ?_ (SdsType.trunc_of_le hfit hg.fits.fits)
    dsimp only
    rw [hg.len]
    rfl
  have hbuf : s.len + t.length ≤ (memcpyAt (sdsMakeRoomFor s n).buf s.len t).length := by
    rw [memcpyAt, length_append, length_append, length_take]
    omega
  rw [sdsIncrLen, if_pos hassert, hlen]
  exact if_pos ⟨by omega, by exact_mod_cast hbuf⟩

end RedisCounter
