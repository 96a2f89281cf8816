import Mathlib.Tactic.Ring
import RedisCounter.Memory

/-!
# Dynamic strings: headers, growth, append and copy

An sds is a pointer into a block: a packed header (`len`, `alloc` and the flags byte that names the
header's type) lies right before it, the characters and a NUL right after it. `sdslen` is what the
header says, not what `strlen` says, and a function that writes characters without touching the
header (`sdsll2str`) leaves the two apart; `Sds` therefore keeps the header and the bytes as
separate fields, and `Sds.Wf` is the agreement every other function maintains.

`size_t` is ℕ; the narrower header fields truncate.
-/

namespace RedisCounter

/-- `SDS_TYPE_5 … SDS_TYPE_64`. -/
inductive SdsType
  | type5 | type8 | type16 | type32 | type64
deriving DecidableEq, Repr

namespace SdsType

/-- `sdsHdrSize`: the size of the packed header. -/
def hdrSize : SdsType → ℕ
  | type5 => 1
  | type8 => 3
  | type16 => 5
  | type32 => 9
  | type64 => 17

/-- The value a header field of this type keeps of a `size_t` stored in it. -/
def trunc : SdsType → ℕ → ℕ
  | type5, n => n % 2 ^ 5
  | type8, n => n % 2 ^ 8
  | type16, n => n % 2 ^ 16
  | type32, n => n % 2 ^ 32
  | type64, n => n

/-- The type bits of the flags byte. -/
def code : SdsType → ℕ
  | type5 => 0
  | type8 => 1
  | type16 => 2
  | type32 => 3
  | type64 => 4

end SdsType

/-- An sds: its header, and the bytes of its block from the first character on. `block` counts the
allocations the string has lived in, so two values with one `block` share the pointer. -/
structure Sds where
  type : SdsType
  len : ℕ
  alloc : ℕ
  buf : Bytes
  block : ℕ
deriving DecidableEq, Repr

def SDS_MAX_PREALLOC : ℕ := 1024 * 1024

/-- The smallest header type for a string of this size. -/
def sdsReqType (stringSize : ℕ) : SdsType :=
  if stringSize < 2 ^ 5 then .type5
  else if stringSize < 2 ^ 8 then .type8
  else if stringSize < 2 ^ 16 then .type16
  else if stringSize < 2 ^ 32 then .type32
  else .type64

def sdslen (s : Sds) : ℕ := s.len

/-- `sdsalloc`: type 5 keeps no allocation size and reports its length. -/
def sdsalloc (s : Sds) : ℕ :=
  match s.type with
  | .type5 => s.len
  | _ => s.alloc

/-- `sdsavail`: the free bytes after the content. -/
def sdsavail (s : Sds) : ℕ :=
  match s.type with
  | .type5 => 0
  | _ => s.alloc - s.len

def sdssetlen (s : Sds) (newlen : ℕ) : Sds := { s with len := s.type.trunc newlen }

def sdsinclen (s : Sds) (inc : ℕ) : Sds := { s with len := s.type.trunc (s.len + inc) }

def sdssetalloc (s : Sds) (newlen : ℕ) : Sds :=
  match s.type with
  | .type5 => s
  | t => { s with alloc := t.trunc newlen }

/-- `sdsnewlen(init, initlen)` for `initlen` readable bytes at `init`. -/
def sdsnewlen (init : Bytes) (initlen : ℕ) : Sds :=
  -- empty strings are made to be appended to, which type 5 is not good at
  let type := if sdsReqType initlen = .type5 ∧ initlen = 0 then .type8 else sdsReqType initlen
  { type, len := type.trunc initlen, alloc := type.trunc initlen,
    buf := init.take initlen ++ [0], block := 0 }

def sdsempty : Sds := sdsnewlen [] 0

/-- `sdsnew`: the string up to its NUL. -/
def sdsnew (init : Bytes) : Sds := sdsnewlen init (strlen init)

def sdsdup (s : Sds) : Sds := sdsnewlen s.buf (sdslen s)

/-- The size `sdsMakeRoomFor` asks for when `addlen` bytes do not fit. -/
def sdsGrownSize (s : Sds) (addlen : ℕ) : ℕ :=
  if sdslen s + addlen < SDS_MAX_PREALLOC then (sdslen s + addlen) * 2
  else sdslen s + addlen + SDS_MAX_PREALLOC

/-- The header type of a string that has been grown to `newlen`: never type 5, which cannot
remember free space. -/
def sdsGrownType (newlen : ℕ) : SdsType :=
  if sdsReqType newlen = .type5 then .type8 else sdsReqType newlen

/-- `sdsMakeRoomFor`: `s` itself when `addlen` bytes fit behind its content, else the string in a
new block. -/
def sdsMakeRoomFor (s : Sds) (addlen : ℕ) : Sds :=
  if addlen ≤ sdsavail s then s
  else
    let newlen := sdsGrownSize s addlen
    let type := sdsGrownType newlen
    if s.type = type then
      sdssetalloc { s with block := s.block + 1 } newlen
    else
      -- the header size changes: the content is copied behind a new header
      sdssetalloc (sdssetlen { s with type, buf := s.buf.take (s.len + 1), block := s.block + 1 }
        s.len) newlen

/-- `sdscatlen(s, t, len)` with the `len` bytes of `t`. -/
def sdscatlen (s : Sds) (t : Bytes) : Sds :=
  let curlen := sdslen s
  let s := sdsMakeRoomFor s t.length
  sdssetlen { s with buf := memcpyAt (memcpyAt s.buf curlen t) (curlen + t.length) [0] }
    (curlen + t.length)

/-- `sdscpylen(s, t, len)` with the `len` bytes of `t`. -/
def sdscpylen (s : Sds) (t : Bytes) : Sds :=
  let s := if sdsalloc s < t.length then sdsMakeRoomFor s (t.length - sdslen s) else s
  sdssetlen { s with buf := memcpyAt (memcpyAt s.buf 0 t) t.length [0] } t.length

/-- `sdscpy`: `t` up to its NUL. -/
def sdscpy (s : Sds) (t : Bytes) : Sds := sdscpylen s (cstr t)

/-- `sdscmp`: by content first, then by length. -/
def sdscmp (s1 s2 : Sds) : ℤ :=
  let cmp := memcmp (min (sdslen s1) (sdslen s2)) s1.buf s2.buf
  if cmp = 0 then (if sdslen s1 > sdslen s2 then 1 else if sdslen s1 < sdslen s2 then -1 else 0)
  else cmp

namespace Sds

/-- The bytes the header says the string holds. -/
def content (s : Sds) : Bytes := s.buf.take s.len

/-- The content is there and fits the allocation, and the allocation fits the header's fields. -/
structure Fits (s : Sds) : Prop where
  len_le : s.len ≤ sdsalloc s
  fits : s.type.trunc (sdsalloc s) = sdsalloc s
  le_length : s.len ≤ s.buf.length

/-- The header agrees with the bytes, and a NUL follows the content. -/
structure Wf (s : Sds) : Prop extends s.Fits where
  term : s.buf[s.len]? = some 0

end Sds

/-! ## Header fields -/

namespace SdsType

theorem trunc_of_le {t : SdsType} {m n : ℕ} (h : m ≤ n) (hn : t.trunc n = n) : t.trunc m = m := by
  cases t <;> simp only [trunc] at hn ⊢ <;> omega

/-- The header type picked for a size can hold it. -/
theorem trunc_sdsReqType (n : ℕ) : (sdsReqType n).trunc n = n := by
  unfold sdsReqType
  split_ifs <;> simp only [trunc] <;> omega

theorem trunc_sdsGrownType (n : ℕ) : (sdsGrownType n).trunc n = n := by
  have h := trunc_sdsReqType n
  unfold sdsGrownType
  split_ifs with h5
  · rw [h5] at h
    simp only [trunc] at h ⊢
    omega
  · exact h

theorem sdsGrownType_ne_type5 (n : ℕ) : sdsGrownType n ≠ .type5 := by
  unfold sdsGrownType
  split_ifs with h
  · simp
  · exact h

end SdsType

@[simp] theorem sdsalloc_of_ne_type5 {s : Sds} (h : s.type ≠ .type5) : sdsalloc s = s.alloc := by
  unfold sdsalloc
  split <;> simp_all

theorem sdsavail_of_ne_type5 {s : Sds} (h : s.type ≠ .type5) : sdsavail s = s.alloc - s.len := by
  unfold sdsavail
  split <;> simp_all

theorem sdssetalloc_of_ne_type5 {s : Sds} (h : s.type ≠ .type5) (n : ℕ) :
    sdssetalloc s n = { s with alloc := s.type.trunc n } := by
  unfold sdssetalloc
  split <;> simp_all

/-! ## Writing behind the content -/

theorem take_memcpyAt {buf : Bytes} {i : ℕ} (t : Bytes) (hi : i ≤ buf.length) :
    (memcpyAt buf i t).take (i + t.length) = buf.take i ++ t := by
  have hlen : (buf.take i ++ t).length = i + t.length := by simp [hi]
  rw [memcpyAt, ← hlen, List.take_left']
  rfl

/-- A string and its NUL, written at offset `i`. -/
theorem memcpyAt_memcpyAt_zero {buf : Bytes} {i : ℕ} (t : Bytes) (hi : i ≤ buf.length) :
    memcpyAt (memcpyAt buf i t) (i + t.length) [0]
      = (buf.take i ++ t) ++ 0 :: buf.drop (i + t.length + 1) := by
  have hlen : (buf.take i ++ t).length = i + t.length := by simp [hi]
  have hdrop : (memcpyAt buf i t).drop (i + t.length + 1) = buf.drop (i + t.length + 1) := by
    rw [memcpyAt, List.drop_append, hlen, List.drop_drop, List.drop_of_length_le (by omega)]
    simp
  rw [memcpyAt, take_memcpyAt t hi]
  simp [hdrop]

/-! ## The operations keep the header and the bytes in step -/

namespace Sds

theorem Wf.lt_length {s : Sds} (h : s.Wf) : s.len < s.buf.length :=
  (List.getElem?_eq_some_iff.1 h.term).1

@[simp] theorem Fits.content_length {s : Sds} (h : s.Fits) : s.content.length = s.len := by
  rw [content, List.length_take, min_eq_left h.le_length]

/-- The free space counts from the content to the end of the allocation. -/
theorem Fits.len_add_le {s : Sds} (h : s.Fits) {n : ℕ} (hn : n ≤ sdsavail s) :
    s.len + n ≤ sdsalloc s := by
  have hle := h.len_le
  by_cases h5 : s.type = .type5
  · have : sdsavail s = 0 := by simp [sdsavail, h5]
    omega
  · rw [sdsalloc_of_ne_type5 h5] at hle ⊢
    rw [sdsavail_of_ne_type5 h5] at hn
    omega

/-- A well-formed string read as a C string is its content up to the first NUL. -/
theorem Wf.cstr_buf {s : Sds} (h : s.Wf) : cstr s.buf = cstr s.content := by
  have hsplit : s.buf = s.content ++ 0 :: s.buf.drop (s.len + 1) := by
    obtain ⟨hlt, hz⟩ := List.getElem?_eq_some_iff.1 h.term
    rw [content, ← hz, ← List.drop_eq_getElem_cons hlt, List.take_append_drop]
  conv_lhs => rw [hsplit]
  exact cstr_append_zero _ _

end Sds

/-! ## What each operation leaves behind -/

theorem sdsnewlen_len (init : Bytes) (n : ℕ) : (sdsnewlen init n).len = n := by
  have h := SdsType.trunc_sdsReqType n
  simp only [sdsnewlen]
  split_ifs with h5
  · rw [h5.2]
    rfl
  · exact h

theorem sdsnewlen_alloc (init : Bytes) (n : ℕ) : sdsalloc (sdsnewlen init n) = n := by
  have h := sdsnewlen_len init n
  unfold sdsalloc
  split <;> exact h

theorem wf_sdsnewlen {init : Bytes} {n : ℕ} (h : n ≤ init.length) : (sdsnewlen init n).Wf where
  len_le := by rw [sdsnewlen_len, sdsnewlen_alloc]
  fits := by
    rw [sdsnewlen_alloc]
    exact sdsnewlen_len init n
  le_length := by
    rw [sdsnewlen_len]
    simp [sdsnewlen, h]
  term := by
    rw [sdsnewlen_len]
    simp [sdsnewlen, h]

theorem content_sdsnewlen {init : Bytes} {n : ℕ} (h : n ≤ init.length) :
    (sdsnewlen init n).content = init.take n := by
  rw [Sds.content, sdsnewlen_len]
  simp [sdsnewlen, h]

theorem wf_sdsempty : sdsempty.Wf := wf_sdsnewlen le_rfl

@[simp] theorem content_sdsempty : sdsempty.content = [] := content_sdsnewlen le_rfl

theorem strlen_le (p : Bytes) : strlen p ≤ p.length := by
  exact (List.takeWhile_prefix _).length_le

theorem wf_sdsnew (init : Bytes) : (sdsnew init).Wf := wf_sdsnewlen (strlen_le init)

@[simp] theorem content_sdsnew (init : Bytes) : (sdsnew init).content = cstr init := by
  rw [sdsnew, content_sdsnewlen (strlen_le init)]
  exact (List.prefix_iff_eq_take.1 (List.takeWhile_prefix _)).symm

theorem Sds.Wf.wf_sdsdup {s : Sds} (h : s.Wf) : (sdsdup s).Wf :=
  wf_sdsnewlen h.lt_length.le

theorem Sds.Wf.content_sdsdup {s : Sds} (h : s.Wf) : (sdsdup s).content = s.content :=
  content_sdsnewlen h.lt_length.le

theorem le_sdsGrownSize (s : Sds) (n : ℕ) : s.len + n ≤ sdsGrownSize s n := by
  unfold sdsGrownSize sdslen
  split_ifs <;> omega

/-- Recording a larger allocation in a header that can hold it. -/
theorem setalloc_spec {s : Sds} {n : ℕ} (h5 : s.type ≠ .type5) (hlen : s.len ≤ n)
    (hfit : s.type.trunc n = n) (hle : s.len ≤ s.buf.length) :
    (sdssetalloc s n).Fits ∧ (sdssetalloc s n).len = s.len ∧
      (sdssetalloc s n).buf = s.buf ∧ sdsavail (sdssetalloc s n) = n - s.len := by
  rw [sdssetalloc_of_ne_type5 h5, hfit]
  have halloc : sdsalloc { s with alloc := n } = n := sdsalloc_of_ne_type5 h5
  refine ⟨⟨?_, ?_, hle⟩, rfl, rfl, sdsavail_of_ne_type5 h5⟩
  · rw [halloc]
    exact hlen
  · rw [halloc]
    exact hfit

/-- What growing leaves behind: the content and what it is followed by, and the room asked for. -/
structure Grown (s s' : Sds) (n : ℕ) : Prop where
  fits : s'.Fits
  len : s'.len = s.len
  take : s'.buf.take (s.len + 1) = s.buf.take (s.len + 1)
  avail : n ≤ sdsavail s'

theorem Grown.content {s s' : Sds} {n : ℕ} (h : Grown s s' n) : s'.content = s.content := by
  have htake := congrArg (List.take s.len) h.take
  rw [List.take_take, List.take_take, min_eq_left (Nat.le_succ _)] at htake
  rw [Sds.content, Sds.content, h.len, htake]

theorem Grown.wf {s s' : Sds} {n : ℕ} (h : Grown s s' n) (hs : s.Wf) : s'.Wf where
  toFits := h.fits
  term := by
    have hget := congrArg (·[s.len]?) h.take
    simp only [List.getElem?_take_of_lt (Nat.lt_succ_self _)] at hget
    rw [h.len, hget, hs.term]

/-- Growing keeps the content and makes the room it was asked for. -/
theorem Sds.Fits.makeRoom {s : Sds} (h : s.Fits) (n : ℕ) : Grown s (sdsMakeRoomFor s n) n := by
  have hsize := le_sdsGrownSize s n
  have hfit := SdsType.trunc_sdsGrownType (sdsGrownSize s n)
  have h5 := SdsType.sdsGrownType_ne_type5 (sdsGrownSize s n)
  unfold sdsMakeRoomFor
  dsimp only
  split_ifs with hav ht
  · exact ⟨h, rfl, rfl, hav⟩
  · -- the header keeps its type: the block is reallocated
    obtain ⟨hfits, hlen, hbuf, havail⟩ := setalloc_spec
      (s := { s with block := s.block + 1 }) (n := sdsGrownSize s n) (ht ▸ h5) (by simp; omega)
      (ht ▸ hfit) h.le_length
    exact ⟨hfits, hlen, by rw [hbuf], by rw [havail]; simp; omega⟩
  · -- a larger header: the content and its NUL are copied behind it, and the length again recorded
    have hcopy : sdssetlen { s with
          type := sdsGrownType (sdsGrownSize s n), buf := s.buf.take (s.len + 1),
          block := s.block + 1 } s.len
        = { s with
          type := sdsGrownType (sdsGrownSize s n), buf := s.buf.take (s.len + 1),
          block := s.block + 1 } := by
      have hlen : (sdsGrownType (sdsGrownSize s n)).trunc s.len = s.len :=
        SdsType.trunc_of_le (by omega) hfit
      simp [sdssetlen, hlen]
    rw [hcopy]
    obtain ⟨hfits, hlen, hbuf, havail⟩ := setalloc_spec
      (s := { s with
        type := sdsGrownType (sdsGrownSize s n), buf := s.buf.take (s.len + 1),
        block := s.block + 1 })
      (n := sdsGrownSize s n) h5 (by simp; omega) hfit
      (by simp [h.le_length])
    refine ⟨hfits, hlen, ?_, by rw [havail]; simp; omega⟩
    rw [hbuf]
    simp [List.take_take]

/-- The header fields after a new length has been recorded. -/
theorem fits_of_len {s s' : Sds} (h : s.Fits) (htype : s'.type = s.type)
    (halloc : s'.alloc = s.alloc) (hfit : s'.len ≤ sdsalloc s) (hbuf : s'.len ≤ s'.buf.length) :
    s'.Fits := by
  have htrunc : s'.type.trunc s'.len = s'.len := by
    rw [htype]
    exact SdsType.trunc_of_le hfit h.fits
  refine ⟨?_, ?_, hbuf⟩
  · -- an `sdshdr5` has no `alloc` field: its allocation is its length
    by_cases h5 : s.type = .type5
    · simp [sdsalloc, htype, h5]
    · rw [sdsalloc_of_ne_type5 (htype ▸ h5), halloc, ← sdsalloc_of_ne_type5 h5]
      exact hfit
  · by_cases h5 : s.type = .type5
    · simpa [sdsalloc, htype, h5] using htrunc
    · rw [sdsalloc_of_ne_type5 (htype ▸ h5), htype, halloc, ← sdsalloc_of_ne_type5 h5]
      exact h.fits

/-- Writing `t` and its NUL behind the first `i` bytes, and recording the new length. -/
theorem write_spec {s : Sds} (h : s.Fits) {i : ℕ} {t : Bytes} (hi : i ≤ s.len)
    (hfit : i + t.length ≤ sdsalloc s) :
    (sdssetlen { s with buf := memcpyAt (memcpyAt s.buf i t) (i + t.length) [0] }
        (i + t.length)).Wf ∧
      (sdssetlen { s with buf := memcpyAt (memcpyAt s.buf i t) (i + t.length) [0] }
        (i + t.length)).content = s.content.take i ++ t := by
  have htrunc : s.type.trunc (i + t.length) = i + t.length := SdsType.trunc_of_le hfit h.fits
  have hbuf := memcpyAt_memcpyAt_zero t (hi.trans h.le_length)
  have hpre : (s.buf.take i ++ t).length = i + t.length := by
    simp [hi.trans h.le_length]
  simp only [sdssetlen, htrunc, hbuf]
  refine ⟨⟨fits_of_len h rfl rfl hfit ?_, ?_⟩, ?_⟩
  · simp only [List.length_append, hpre]
    omega
  · simp only [← hpre]
    rw [List.getElem?_append_right le_rfl]
    simp
  · simp only [Sds.content, ← hpre]
    rw [List.take_left', List.take_take, min_eq_left hi]
    rfl

theorem Sds.Wf.wf_sdscatlen {s : Sds} (h : s.Wf) (t : Bytes) : (sdscatlen s t).Wf := by
  have hg := h.makeRoom t.length
  have hfit := hg.fits.len_add_le hg.avail
  rw [hg.len] at hfit
  exact (write_spec hg.fits hg.len.ge hfit).1

/-- Appending appends. -/
theorem Sds.Wf.content_sdscatlen {s : Sds} (h : s.Wf) (t : Bytes) :
    (sdscatlen s t).content = s.content ++ t := by
  have hg := h.makeRoom t.length
  have hfit := hg.fits.len_add_le hg.avail
  rw [hg.len] at hfit
  apply (write_spec hg.fits hg.len.ge hfit).2.trans
  rw [hg.content, List.take_of_length_le h.content_length.le]

/-- Copying overwrites. -/
theorem Sds.Wf.sdscpylen_spec {s : Sds} (h : s.Wf) (t : Bytes) :
    (sdscpylen s t).Wf ∧ (sdscpylen s t).content = t := by
  have hroom : ∀ r : Sds, r.Fits → t.length ≤ sdsalloc r →
      (sdssetlen { r with buf := memcpyAt (memcpyAt r.buf 0 t) t.length [0] } t.length).Wf ∧
        (sdssetlen { r with buf := memcpyAt (memcpyAt r.buf 0 t) t.length [0] } t.length).content
          = t := by
    intro r hr hfit
    simpa using write_spec hr (Nat.zero_le _) (i := 0) (t := t) (by simpa using hfit)
  unfold sdscpylen
  split_ifs with halloc
  · have hg := h.makeRoom (t.length - sdslen s)
    have hfit := hg.fits.len_add_le hg.avail
    apply hroom _ hg.fits
    rw [hg.len] at hfit
    simp only [sdslen] at hfit
    have := h.len_le
    simp only [sdslen]
    omega
  · exact hroom s h.toFits (by omega)

/-- A call moves the string exactly when the bytes it adds do not fit. -/
theorem sdsMakeRoomFor_block (s : Sds) (n : ℕ) :
    (sdsMakeRoomFor s n).block = s.block ↔ n ≤ sdsavail s := by
  unfold sdsMakeRoomFor
  dsimp only
  split_ifs with h ht
  · simp [h]
  · rw [sdssetalloc_of_ne_type5 (by simpa [ht] using SdsType.sdsGrownType_ne_type5 _)]
    simp [h]
  · rw [sdssetalloc_of_ne_type5 (by simpa [sdssetlen] using SdsType.sdsGrownType_ne_type5 _)]
    simp [sdssetlen, h]

theorem sdscatlen_block (s : Sds) (t : Bytes) :
    (sdscatlen s t).block = s.block ↔ t.length ≤ sdsavail s := sdsMakeRoomFor_block s t.length

theorem sdscatlen_of_le {s : Sds} {t : Bytes} (h : t.length ≤ sdsavail s) :
    (sdscatlen s t).type = s.type ∧ (sdscatlen s t).alloc = s.alloc := by
  simp [sdscatlen, sdsMakeRoomFor, h, sdssetlen]

theorem sdscpylen_of_le {s : Sds} {t : Bytes} (h : t.length ≤ sdsalloc s) :
    (sdscpylen s t).type = s.type ∧ (sdscpylen s t).alloc = s.alloc ∧
      (sdscpylen s t).block = s.block := by
  simp [sdscpylen, Nat.not_lt.2 h, sdssetlen]

/-- A copy moves the string exactly when it does not fit the allocation. -/
theorem sdscpylen_block {s : Sds} (h : s.Wf) (t : Bytes) :
    (sdscpylen s t).block = s.block ↔ t.length ≤ sdsalloc s := by
  rcases Nat.lt_or_ge (sdsalloc s) t.length with hlt | hle
  · -- what is missing is more than what is free
    have hblock := sdsMakeRoomFor_block s (t.length - sdslen s)
    have havail : ¬ t.length - sdslen s ≤ sdsavail s := fun hav => by
      have := h.len_add_le hav
      have := h.len_le
      simp only [sdslen] at *
      omega
    have hmoved : (sdscpylen s t).block = (sdsMakeRoomFor s (t.length - sdslen s)).block := by
      simp [sdscpylen, hlt, sdssetlen]
    rw [hmoved, hblock]
    simp [havail, hlt]
  · simp [(sdscpylen_of_le hle).2.2, hle]

/-- Two well-formed strings compare equal exactly when they hold the same bytes. -/
theorem sdscmp_eq_zero_iff {s1 s2 : Sds} (h1 : s1.Wf) (h2 : s2.Wf) :
    sdscmp s1 s2 = 0 ↔ s1.content = s2.content := by
  have hcmp := memcmp_eq_zero_iff (n := min s1.len s2.len) (a := s1.buf) (b := s2.buf)
    ((min_le_left _ _).trans h1.lt_length.le) ((min_le_right _ _).trans h2.lt_length.le)
  unfold sdscmp sdslen
  dsimp only
  constructor
  · intro h
    have h0 : memcmp (min s1.len s2.len) s1.buf s2.buf = 0 := by
      by_contra h0
      simp [h0] at h
    have hlen : s1.len = s2.len := by
      rw [if_pos h0] at h
      split_ifs at h <;> omega
    have htake := hcmp.1 h0
    rw [hlen, min_self] at htake
    simpa [Sds.content, hlen] using htake
  · intro h
    have hlen : s1.len = s2.len := by
      rw [← h1.content_length, ← h2.content_length, h]
    have h0 : memcmp (min s1.len s2.len) s1.buf s2.buf = 0 := by
      apply hcmp.2
      rw [hlen, min_self]
      simpa [Sds.content, hlen] using h
    rw [if_pos h0]
    simp [hlen]

end RedisCounter
