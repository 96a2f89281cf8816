import RedisCounter.Command.Grammar
import RedisCounter.Sds.Repr

/-!
# Quoted requests

A line of words, each written as it is or in the form `sdscatrepr` gives it, with a blank between two of
them. The tokenizer reads the words back: whatever bytes a quoted one has, and whatever stands next to
it.
-/

namespace RedisCounter

/-! ## Lines of words -/

/-- A word of a line. Written as it is it has to be plain; quoted it may have any bytes. -/
inductive Word
  | bare (arg : Bytes) (h : Plain arg)
  | quoted (arg : Bytes)

namespace Word

/-- What the word stands for. -/
def arg : Word → Bytes
  | bare arg _ => arg
  | quoted arg => arg

/-- What is written. -/
def text : Word → Bytes
  | bare arg _ => arg
  | quoted arg => reprText arg

/-- `s` with the word appended. -/
def cat (s : Sds) : Word → Option Sds
  | bare arg _ => some (sdscatlen s arg)
  | quoted arg => sdscatrepr s arg

end Word

/-- The line of some words: single blanks between them. -/
def catWords : List Word → Option Sds
  | [] => some sdsempty
  | w :: ws => do
    let s ← w.cat sdsempty
    ws.foldlM (fun s w => w.cat (sdscatlen s [32])) s

/-- The line of the quoted forms of `args`. -/
def catReprs (args : List Bytes) : Option Sds := catWords (args.map .quoted)

/-- The text of such a line. -/
def lineText : List Word → Bytes
  | [] => []
  | w :: ws => w.text ++ ws.flatMap fun w => 32 :: w.text

theorem Word.cat_spec {s : Sds} (h : s.Wf) (w : Word) :
    Appends s w.text (w.cat s) := by
  cases w with
  | bare arg _ => exact appends_sdscatlen h arg
  | quoted arg => exact sdscatrepr_spec h arg

/-- A word behind a blank. -/
theorem Word.cat_blank_spec {s : Sds} (h : s.Wf) (w : Word) :
    Appends s (32 :: w.text) (w.cat (sdscatlen s [32])) := by
  obtain ⟨s', hcat, hwf, hcontent⟩ := w.cat_spec (h.wf_sdscatlen [32])
  refine ⟨s', hcat, hwf, ?_⟩
  rw [hcontent, h.content_sdscatlen, List.append_assoc, List.singleton_append]

/-- The words are appended one after the other, with a blank in front of all but the first. -/
theorem catWords_spec (ws : List Word) :
    ∃ line, catWords ws = some line ∧ line.Wf ∧ line.content = lineText ws := by
  cases ws with
  | nil => exact ⟨sdsempty, rfl, wf_sdsempty, content_sdsempty⟩
  | cons w ws =>
    obtain ⟨s₁, hcat, hwf₁, hcontent₁⟩ := w.cat_spec wf_sdsempty
    obtain ⟨line, hfold, hwf, hcontent⟩ :=
      appends_foldlM (fun _ w hs => w.cat_blank_spec hs) ws hwf₁
    refine ⟨line, ?_, hwf, ?_⟩
    · rw [catWords, hcat]
      exact hfold
    · rw [hcontent, hcontent₁, content_sdsempty, lineText, List.nil_append]

/-! ## Words are tokens -/

/-- The two digits of a byte stand for it. -/
theorem hexDigit_spec (c : UInt8) :
    isHexDigit (hexDigit (c / 16)) = true ∧ isHexDigit (hexDigit (c % 16)) = true ∧
      hexDigitToInt (hexDigit (c / 16)) * 16 + hexDigitToInt (hexDigit (c % 16)) = c := by
  apply forall_byte (P := fun c => isHexDigit (hexDigit (c / 16)) = true ∧
    isHexDigit (hexDigit (c % 16)) = true ∧
    hexDigitToInt (hexDigit (c / 16)) * 16 + hexDigitToInt (hexDigit (c % 16)) = c)
  decide +kernel

/-- In front of any quoted text the text of a byte stands for the byte: no escape reaches into what
follows, since the one that takes digits has its two. -/
theorem quoted_reprByte_append (c : UInt8) {t d : Bytes} (h : Quoted dquote t d) :
    Quoted dquote (reprByte c ++ t) (c :: d) := by
  have hescape : ∀ x : UInt8, x ≠ 120 → Quoted dquote (bslash :: x :: t) (unescape x :: d) :=
    fun x hx => .backslash (fun hhex => hx hhex.1) h
  unfold reprByte
  split_ifs with hself hlf hcr htab hbell hback hprint
  · rcases hself with rfl | rfl
    · exact hescape bslash (by decide)
    · exact hescape dquote (by decide)
  · subst hlf
    exact hescape 110 (by decide)
  · subst hcr
    exact hescape 114 (by decide)
  · subst htab
    exact hescape 116 (by decide)
  · subst hbell
    exact hescape 97 (by decide)
  · subst hback
    exact hescape 98 (by decide)
  · rw [not_or] at hself
    exact .double hself.1 hself.2 h
  · obtain ⟨hhigh, hlow, hval⟩ := hexDigit_spec c
    have hhex := Quoted.hex (mem_hexValues.2 ⟨hhigh, rfl⟩) (mem_hexValues.2 ⟨hlow, rfl⟩) h
    rwa [hval] at hhex

theorem quoted_flatMap_reprByte (p : Bytes) : Quoted dquote (p.flatMap reprByte) p := by
  induction p with
  | nil => exact .nil
  | cons c p ih =>
    rw [List.flatMap_cons]
    exact quoted_reprByte_append c ih

theorem Word.zero_not_mem_text (w : Word) : (0 : UInt8) ∉ w.text := by
  cases w with
  | bare arg h => exact h.zero_not_mem
  | quoted arg => exact zero_not_mem_reprText arg

theorem Plain.plainRun {arg : Bytes} (h : Plain arg) : PlainRun arg := by
  refine ⟨fun c hc => plainByte_iff_not_mem.1 (h.1 c hc), ?_⟩
  rintro c hc
  obtain ⟨t, rfl⟩ := List.head?_eq_some_iff.1 hc
  exact not_mem_spaces.2 h.isspace_readByte

/-- A word, behind some blanks and in front of a blank or the end, is a token. -/
theorem Word.token (w : Word) {b r : Bytes} (hb : Blanks b) (hr : r = [] ∨ ∃ r', r = 32 :: r') :
    Token (b ++ (w.text ++ r)) w.arg r := by
  cases w with
  | bare arg h =>
    apply Token.plain hb h.plainRun h.ne_nil
    exact hr.imp_right fun ⟨r', hr'⟩ => ⟨32, r', hr', .inl rfl⟩
  | quoted arg =>
    have hclose : r = [] ∨ ∃ c r', r = c :: r' ∧ c ∈ spaces :=
      hr.imp_right fun ⟨r', hr'⟩ => ⟨32, r', hr', by decide⟩
    have htoken := Token.quoted hb (w := []) ⟨by simp, by simp⟩ (.inl rfl)
      (quoted_flatMap_reprByte arg) hclose
    simpa [Word.text, reprText, Word.arg] using htoken

theorem blanks_nil : Blanks [] := fun _ hc => absurd hc List.not_mem_nil

/-- Along the line each word is a token, with the blank in front of it. -/
theorem line_words {b : Bytes} (hb : Blanks b) (w : Word) (ws : List Word) :
    Line (b ++ (w.text ++ ws.flatMap fun w => 32 :: w.text)) (w.arg :: ws.map Word.arg) := by
  induction ws generalizing b w with
  | nil => exact .cons (w.token hb (.inl rfl)) (.nil blanks_nil)
  | cons w' ws ih =>
    have hblank : Blanks [32] := by
      intro c hc
      rw [List.mem_singleton.1 hc]
      decide
    exact .cons (w.token hb (.inr ⟨_, rfl⟩)) (ih hblank w')

theorem line_lineText (ws : List Word) : Line (lineText ws) (ws.map Word.arg) := by
  cases ws with
  | nil => exact .nil blanks_nil
  | cons w ws => exact line_words blanks_nil w ws

theorem zero_not_mem_lineText (ws : List Word) : (0 : UInt8) ∉ lineText ws := by
  cases ws with
  | nil => simp [lineText]
  | cons w ws => simp [lineText, Word.zero_not_mem_text]

/-! ## The round trip -/

/-- The tokens of a line of words are the words. -/
theorem sdssplitargs_catWords (ws : List Word) :
    ∃ line argv, catWords ws = some line ∧ sdssplitargs line.buf = some argv ∧
      argv.map Sds.content = ws.map Word.arg := by
  obtain ⟨line, hcat, hwf, hcontent⟩ := catWords_spec ws
  have hline : cstr line.buf = lineText ws := by
    rw [hwf.cstr_buf, hcontent, cstr_of_zero_not_mem (zero_not_mem_lineText ws)]
  obtain ⟨z, hbuf, hz⟩ := exists_eq_cstr_append line.buf
  have htokens : Tokens line.buf (ws.map Word.arg) := by
    rw [hbuf, hline]
    exact (line_lineText ws).tokens hz (zero_not_mem_lineText ws)
  refine ⟨line, (ws.map Word.arg).map sdsOf, hcat, ?_, ?_⟩
  · exact (sdssplitargs_eq_some_iff line.buf _).2 ⟨_, htokens, rfl⟩
  · rw [List.map_map]
    exact (List.map_congr_left fun d _ => content_sdsOf d).trans (List.map_id _)

/-- The variables of the parsing loop hold the words at the positions 2, 4 and 6, each one the bytes of
its word. -/
structure SlotsHold (slots : Slots) (ws : List Word) : Prop where
  action : ∃ a : Option Sds, slots.action = a.map (fun arg => sdsnew arg.buf) ∧
    a.map Sds.content = ws[2]?.map Word.arg
  key : ∃ k : Option Sds, slots.key = slotPtr k ∧ k.map Sds.content = ws[4]?.map Word.arg
  val : ∃ v : Option Sds, slots.val = slotPtr v ∧ v.map Sds.content = ws[6]?.map Word.arg

theorem slotsHold_parseSlots {argv : List Sds} {ws : List Word}
    (h : argv.map Sds.content = ws.map Word.arg) : SlotsHold (parseSlots argv) ws := by
  have hget : ∀ i : ℕ, argv[i]?.map Sds.content = ws[i]?.map Word.arg := by
    intro i
    rw [← List.getElem?_map, h, List.getElem?_map]
  rw [parseSlots_eq]
  exact ⟨⟨_, rfl, hget 2⟩, ⟨_, rfl, hget 4⟩, ⟨_, rfl, hget 6⟩⟩

/-- For every list of byte strings, the line of their quoted forms is split into exactly these strings.
In a line of any words, quoted or plain, the server finds the words of a request where it looks for
them. -/
theorem sdssplitargs_reprs :
    (∀ args : List Bytes, ∃ line argv, catReprs args = some line ∧
      sdssplitargs line.buf = some argv ∧ argv.map Sds.content = args ∧
      argv.length = args.length) ∧
    ∀ ws : List Word, ∃ line argv, catWords ws = some line ∧ sdssplitargs line.buf = some argv ∧
      argv.map Sds.content = ws.map Word.arg ∧ SlotsHold (parseSlots argv) ws := by
  constructor
  · intro args
    obtain ⟨line, argv, hcat, hsplit, hcontent⟩ := sdssplitargs_catWords (args.map .quoted)
    have hargs : (args.map Word.quoted).map Word.arg = args := by
      rw [List.map_map]
      exact List.map_id args
    rw [hargs] at hcontent
    refine ⟨line, argv, hcat, hsplit, hcontent, ?_⟩
    rw [← hcontent, List.length_map]
  · intro ws
    obtain ⟨line, argv, hcat, hsplit, hcontent⟩ := sdssplitargs_catWords ws
    exact ⟨line, argv, hcat, hsplit, hcontent, slotsHold_parseSlots hcontent⟩

/-- A NUL, a quote and a byte that looks like a digit behind an escape, and an empty string. -/
example : (catReprs [[0, 49, 34], []]).map Sds.content
    = some (ascii ['"', '\\', 'x', '0', '0', '1', '\\', '"', '"', ' ', '"', '"']) := by
  decide +kernel

end RedisCounter
