import RedisCounter.Command.Request

/-!
# The client's encoding read back

A reader of the format `clientBuf` puts out: `*`, a decimal number and CRLF, and for each argument `$`,
a decimal number and CRLF, that many raw bytes, and CRLF. It knows nothing of tokens, blanks and
quotes, unlike the server, so it gets the arguments back whatever bytes they hold.
-/

namespace RedisCounter

open Decimal

/-! ## The reader -/

/-- CRLF, and what follows it. -/
def decodeCrlf : Bytes → Option Bytes
  | c :: d :: r => if c = cr ∧ d = lf then some r else none
  | _ => none

/-- A decimal number and CRLF. -/
def decodeNumber (p : Bytes) : Option (ℕ × Bytes) :=
  let ds := p.takeWhile isDigit
  if ds = [] then none else (decodeCrlf (p.dropWhile isDigit)).map fun r => (natVal ds, r)

/-- `$`, the length, and that many bytes. -/
def decodeArg : Bytes → Option (Bytes × Bytes)
  | [] => none
  | c :: p =>
    if c = 36 then do
      let (len, p) ← decodeNumber p
      if p.length < len then none else (decodeCrlf (p.drop len)).map fun r => (p.take len, r)
    else none

def decodeArgs : ℕ → Bytes → Option (List Bytes × Bytes)
  | 0, p => some ([], p)
  | n + 1, p => do
    let (arg, p) ← decodeArg p
    let (args, r) ← decodeArgs n p
    some (arg :: args, r)

/-- A request, and the bytes behind it. -/
def decode : Bytes → Option (List Bytes × Bytes)
  | [] => none
  | c :: p =>
    if c = 42 then do
      let (argc, p) ← decodeNumber p
      decodeArgs argc p
    else none

/-! ## Reading what was written -/

/-- The encoding with every number in decimal. -/
def referenceArg (arg : Bytes) : Bytes :=
  36 :: natText arg.length ++ [cr, lf] ++ arg ++ [cr, lf]

def reference (args : List Bytes) : Bytes :=
  42 :: natText args.length ++ [cr, lf] ++ args.flatMap referenceArg

@[simp] theorem decodeCrlf_append (r : Bytes) : decodeCrlf (cr :: lf :: r) = some r := rfl

/-- A number ends at its CRLF. -/
theorem decodeNumber_natText (n : ℕ) (r : Bytes) :
    decodeNumber (natText n ++ cr :: lf :: r) = some (n, r) := by
  have hdigits : ∀ c ∈ natText n, isDigit c = true := fun c hc => isDigit_of_mem_natText hc
  have htake : (natText n ++ cr :: lf :: r).takeWhile isDigit = natText n := by
    rw [List.takeWhile_append_of_pos hdigits, List.takeWhile_cons_of_neg (by decide), List.append_nil]
  have hdrop : (natText n ++ cr :: lf :: r).dropWhile isDigit = cr :: lf :: r := by
    rw [List.dropWhile_append_of_pos hdigits, List.dropWhile_cons_of_neg (by decide)]
  rw [decodeNumber, htake, hdrop]
  simp [natText_ne_nil]

/-- The bytes of an argument are counted, not looked at. -/
theorem decodeArg_referenceArg (arg r : Bytes) :
    decodeArg (referenceArg arg ++ r) = some (arg, r) := by
  have hsplit : referenceArg arg ++ r
      = 36 :: (natText arg.length ++ cr :: lf :: (arg ++ cr :: lf :: r)) := by
    simp [referenceArg]
  have hlen : ¬ (arg ++ cr :: lf :: r).length < arg.length := by
    rw [List.length_append]
    omega
  rw [hsplit, decodeArg, if_pos rfl, decodeNumber_natText]
  simp only [Option.bind_eq_bind, Option.bind_some, if_neg hlen]
  rw [List.drop_left, List.take_left, decodeCrlf_append, Option.map_some]

theorem decodeArgs_reference (args : List Bytes) (r : Bytes) :
    decodeArgs args.length (args.flatMap referenceArg ++ r) = some (args, r) := by
  induction args with
  | nil => rfl
  | cons a args ih =>
    rw [List.flatMap_cons, List.append_assoc, List.length_cons, decodeArgs, decodeArg_referenceArg]
    simp only [Option.bind_eq_bind, Option.bind_some, ih]

/-- The reader gives back the arguments and leaves what follows them. -/
theorem decode_reference (args : List Bytes) (r : Bytes) :
    decode (reference args ++ r) = some (args, r) := by
  have hsplit : reference args ++ r
      = 42 :: (natText args.length ++ cr :: lf :: (args.flatMap referenceArg ++ r)) := by
    simp [reference]
  rw [hsplit, decode, if_pos rfl, decodeNumber_natText]
  simp only [Option.bind_eq_bind, Option.bind_some]
  exact decodeArgs_reference args r

/-- Encodings with anything behind them differ where the arguments or what follows them differ. -/
theorem reference_append_inj {args args' : List Bytes} {r r' : Bytes}
    (h : reference args ++ r = reference args' ++ r') : args = args' ∧ r = r' := by
  have hread := decode_reference args r
  rw [h, decode_reference] at hread
  obtain ⟨rfl, rfl⟩ := Prod.mk.inj (Option.some.inj hread)
  exact ⟨rfl, rfl⟩

/-! ## What the client sends -/

/-- Arguments a client can send: C strings, whose number and total size an `int` holds. -/
structure Sendable (args : List Bytes) : Prop where
  zero_not_mem : ∀ a ∈ args, (0 : UInt8) ∉ a
  argc : args.length < 2 ^ 31
  size : args.flatten.length < 2 ^ 31

/-- The numbers of such a request are printed in full. -/
theorem Sendable.encode_eq {args : List Bytes} (h : Sendable args) : encode args = reference args := by
  have hargc : fmtBytes (.int args.length) = natText args.length := by
    have hlt := h.argc
    have hneg : ¬ (args.length : ℤ) < 0 := by omega
    rw [fmtBytes_int (by unfold LONG_MIN; omega) (by unfold LONG_MAX; omega), intText, if_neg hneg,
      Int.natAbs_natCast]
  have harg : ∀ a ∈ args, encodeArg a = referenceArg a := by
    intro a ha
    have hle : a.length ≤ args.flatten.length := (List.sublist_flatten_of_mem ha).length_le
    have hlt := h.size
    rw [encodeArg, fmtBytes_uint (by omega), referenceArg]
  rw [encode, hargc, reference, List.flatMap_congr harg]

theorem Sendable.content_clientBuf {args : List Bytes} (h : Sendable args) :
    (clientBuf args).content = reference args := by
  rw [RedisCounter.content_clientBuf h.zero_not_mem, h.encode_eq]

/-- For every list of arguments a client can send: a reader of the format gets exactly the arguments
from the output of `clientBuf`, and leaves exactly what follows it; no other list gives the same bytes,
with anything behind either. The output is well formed through all its reallocations: its `sdslen` is
the number of its bytes, and a NUL follows them. -/
theorem decode_clientBuf (args : List Bytes) (h : Sendable args) :
    (∀ r, decode ((clientBuf args).content ++ r) = some (args, r)) ∧
      (∀ args' r r', Sendable args' →
        (clientBuf args).content ++ r = (clientBuf args').content ++ r' → args = args' ∧ r = r') ∧
      (clientBuf args).Wf ∧ (clientBuf args).content = reference args ∧
      sdslen (clientBuf args) = (reference args).length ∧
      (clientBuf args).buf[sdslen (clientBuf args)]? = some 0 := by
  have hcontent := h.content_clientBuf
  have hwf := (clientBuf_spec args).1
  refine ⟨fun r => ?_, fun args' r r' h' heq => ?_, hwf, hcontent, ?_, hwf.term⟩
  · rw [hcontent, decode_reference]
  · rw [hcontent, h'.content_clientBuf] at heq
    exact reference_append_inj heq
  · rw [← hcontent, hwf.content_length]
    rfl

/-- An argument with CR, LF, a blank and a quote, and one that is empty, with a byte behind them. -/
theorem decode_clientBuf_quoted :
    decode ((clientBuf [SET, [13, 10, 32, 34], []]).content ++ [42])
      = some ([SET, [13, 10, 32, 34], []], [42]) :=
  (decode_clientBuf [SET, [13, 10, 32, 34], []] ⟨by decide, by decide, by decide⟩).1 [42]

end RedisCounter
