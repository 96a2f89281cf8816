import RedisCounter.Lib.Splitting
import RedisCounter.Sds.Editing
import RedisCounter.Sds.Repr

/-!
# Splitting and joining

`sdssplitlen` walks over a string once and takes the separator out wherever it first finds it; `sdsjoin`
and `sdsjoinsds` put separators in. The tokens are kept in an array that grows by doubling, and the last
one is stored without asking for room: `storeToken` fails where the array would be left, and `roomFor`
where the `int` that counts its slots would be.
-/

namespace RedisCounter

open List Splitting

/-- `tokens[elements] = t; elements++;` in an array of `slots`. -/
def storeToken (slots : ℕ) (tokens : List Sds) (t : Sds) : Except SdsFault (List Sds) :=
  if tokens.length < slots then pure (tokens ++ [t]) else throw .tokensBounds

/-- The slots after making sure there is room for the next element and the final one. -/
def roomFor (slots elements : ℕ) : Except SdsFault ℕ :=
  if slots < elements + 2 then
    if slots * 2 < 2 ^ 31 then pure (slots * 2) else throw .intOverflow
  else pure slots

/-- The test for the separator at `s+j`. -/
def sepAt (s sep : Bytes) (seplen j : ℕ) : Prop :=
  (seplen = 1 ∧ readByte s j = readByte sep 0) ∨ memcmp seplen (s.drop j) sep = 0

instance (s sep : Bytes) (seplen j : ℕ) : Decidable (sepAt s sep seplen j) :=
  inferInstanceAs (Decidable (_ ∨ _))

/-- The loop of `sdssplitlen`, for at most so many turns: `start`, the slots and the tokens so far. -/
def splitlenLoop (s : Bytes) (len : ℕ) (sep : Bytes) (seplen : ℕ) :
    ℕ → ℕ → ℕ → ℕ → List Sds → Except SdsFault (ℕ × ℕ × List Sds)
  | 0, _, start, slots, tokens => pure (start, slots, tokens)
  | n + 1, j, start, slots, tokens =>
    if j < len - (seplen - 1) then do
      let slots ← roomFor slots tokens.length
      if sepAt s sep seplen j then
        let tokens ← storeToken slots tokens (sdsnewlen (s.drop start) (j - start))
        splitlenLoop s len sep seplen n (j + seplen) (j + seplen) slots tokens
      else splitlenLoop s len sep seplen n (j + 1) start slots tokens
    else pure (start, slots, tokens)

/-- `sdssplitlen`; `none` is `NULL`. -/
def sdssplitlen (s : Bytes) (len : ℤ) (sep : Bytes) (seplen : ℤ) :
    Except SdsFault (Option (List Sds)) :=
  if seplen < 1 ∨ len < 0 then pure none
  else if len = 0 then pure (some [])
  else do
    let len := len.toNat
    let (start, slots, tokens) ← splitlenLoop s len sep seplen.toNat len 0 0 5 []
    let tokens ← storeToken slots tokens (sdsnewlen (s.drop start) (len - start))
    pure (some tokens)

/-- The loop of `sdsjoin` and `sdsjoinsds`: the separator goes behind every element but the last. -/
def joinLoop {α : Type} (cat : Sds → α → Sds) (catSep : Sds → Sds) : Sds → List α → Sds
  | join, [] => join
  | join, [a] => cat join a
  | join, a :: argv => joinLoop cat catSep (catSep (cat join a)) argv

/-- `sdsjoinsds`, with the `seplen` bytes of `sep`. -/
def sdsjoinsds (argv : List Sds) (sep : Bytes) : Sds :=
  joinLoop sdscatsds (sdscatlen · sep) sdsempty argv

/-! ## The loop finds the separators -/

variable {s sep : Bytes} {len seplen : ℕ}

theorem storeToken_ok {slots : ℕ} {tokens : List Sds} (h : tokens.length < slots) (t : Sds) :
    storeToken slots tokens t = .ok (tokens ++ [t]) := if_pos h

/-- Below a billion elements the slots stay an `int`. -/
theorem roomFor_ok {slots elements : ℕ} (h : elements < slots) (hint : elements + 2 ≤ 2 ^ 30) :
    ∃ slots', roomFor slots elements = .ok slots' ∧ elements + 1 < slots' := by
  unfold roomFor
  by_cases hroom : slots < elements + 2
  · rw [if_pos hroom, if_pos (by omega)]
    exact ⟨slots * 2, rfl, by omega⟩
  · rw [if_neg hroom]
    exact ⟨slots, rfl, by omega⟩

/-- The test looks for the separator in the string, and not behind it. -/
theorem sepAt_iff (hlen : len ≤ s.length) (hsep : seplen ≤ sep.length) {j : ℕ}
    (hj : j + seplen ≤ len) : sepAt s sep seplen j ↔ sep.take seplen <+: (s.take len).drop j := by
  have htake : ((s.take len).drop j).take seplen = (s.drop j).take seplen := by
    rw [drop_take, take_take, min_eq_left (by omega)]
  have hmem : memcmp seplen (s.drop j) sep = 0 ↔ (s.drop j).take seplen = sep.take seplen :=
    memcmp_eq_zero_iff (by rw [length_drop]; omega) hsep
  rw [sepAt, prefix_iff_eq_take, length_take, min_eq_left hsep, htake, hmem, eq_comm (a := sep.take _)]
  refine or_iff_right_of_imp ?_
  -- for a separator of one byte the byte is compared first
  rintro ⟨rfl, hbyte⟩
  obtain ⟨c, sep, rfl⟩ := exists_cons_of_length_pos (by omega : 0 < sep.length)
  rw [readByte_eq (by omega)] at hbyte
  rw [drop_eq_getElem_cons (by omega), hbyte]
  rfl

/-- The loop has appended well-formed tokens to `tokens`, with what is behind them it has split `rest`,
and it has left a slot for the last one. -/
def Cuts (l p : Bytes) (tokens : List Sds) (rest : Bytes)
    (r : Except SdsFault (ℕ × ℕ × List Sds)) : Prop :=
  ∃ start slots more, r = .ok (start, slots, tokens ++ more) ∧ (tokens ++ more).length < slots ∧
    start ≤ l.length ∧ (∀ t ∈ more, t.Wf) ∧
      Splits p rest (more.map Sds.content ++ [l.drop start])

variable {l p : Bytes} {tokens : List Sds} {j start slots : ℕ}

/-- No separator fits behind the place where the loop stops. -/
theorem cuts_last (hstart : start ≤ l.length) (hroom : tokens.length < slots)
    (hfree : FreeBelow p (j - start) (l.drop start)) (hlast : l.length < j + p.length) :
    Cuts l p tokens (l.drop start) (.ok (start, slots, tokens)) := by
  refine ⟨start, slots, [], by rw [append_nil], by rwa [append_nil], hstart,
    fun t ht => absurd ht not_mem_nil, .last ?_⟩
  intro i hi hpre
  rcases lt_or_ge i (j - start) with hij | hij
  · exact hfree i hij hpre
  · have hle := hpre.length_le
    rw [drop_drop, length_drop] at hle
    rw [length_drop] at hi
    omega

/-- A token in front of a separator. -/
theorem Cuts.cons {t : Sds} {rest : Bytes} {r : Except SdsFault (ℕ × ℕ × List Sds)} (ht : t.Wf)
    (hfree : FreeBelow p t.content.length (t.content ++ (p ++ rest)))
    (h : Cuts l p (tokens ++ [t]) rest r) : Cuts l p tokens (t.content ++ (p ++ rest)) r := by
  obtain ⟨start, slots, more, rfl, hroom, hle, hwf, hsplits⟩ := h
  rw [append_assoc, singleton_append] at hroom ⊢
  exact ⟨start, slots, t :: more, rfl, hroom, hle, forall_mem_cons.2 ⟨ht, hwf⟩, .cons hfree hsplits⟩

/-- From `j` on, with no separator between `start` and `j`, the loop splits what is behind `start`. -/
theorem splitlenLoop_cuts (j start slots : ℕ) (tokens : List Sds) (hlen : len ≤ s.length)
    (hint : len < 2 ^ 30) (hsep : seplen ≤ sep.length) (hpos : 0 < seplen) (hl : s.take len = l)
    (hp : sep.take seplen = p) {n : ℕ} (hstart : start ≤ j) (hj : j ≤ len) (hn : len ≤ j + n)
    (hroom : tokens.length < slots) (hcount : tokens.length ≤ j)
    (hfree : FreeBelow p (j - start) (l.drop start)) :
    Cuts l p tokens (l.drop start) (splitlenLoop s len sep seplen n j start slots tokens) := by
  have hlenl : l.length = len := by rw [← hl, length_take, min_eq_left hlen]
  have hlenp : p.length = seplen := by rw [← hp, length_take, min_eq_left hsep]
  induction n generalizing j start slots tokens with
  | zero => exact cuts_last (by omega) hroom hfree (by omega)
  | succ n ih =>
    rw [splitlenLoop]
    by_cases hturn : j < len - (seplen - 1)
    · have hfit : j + seplen ≤ len := by omega
      have hiff := sepAt_iff hlen hsep hfit
      rw [hl, hp] at hiff
      obtain ⟨slots, hgrown, hslots⟩ := roomFor_ok hroom (by omega)
      rw [if_pos hturn, hgrown]
      change Cuts l p tokens (l.drop start) (if _ then _ else _)
      by_cases hat : sepAt s sep seplen j
      · -- a token ends here
        obtain ⟨rest, hrest⟩ := hiff.1 hat
        have htoken : (sdsnewlen (s.drop start) (j - start)).content = (l.drop start).take (j - start) := by
          rw [content_sdsnewlen (by rw [length_drop]; omega), ← hl, drop_take, take_take,
            min_eq_left (by omega)]
        have hcut : l.drop start
            = (sdsnewlen (s.drop start) (j - start)).content ++ (p ++ l.drop (j + seplen)) := by
          rw [htoken, ← drop_drop (i := seplen), ← hrest, drop_left' hlenp, hrest,
            ← Nat.add_sub_cancel' hstart, ← drop_drop, Nat.add_sub_cancel_left, take_append_drop]
        have htlen : (sdsnewlen (s.drop start) (j - start)).content.length = j - start := by
          rw [htoken, length_take, length_drop]
          omega
        rw [← htlen, hcut] at hfree
        rw [if_pos hat, storeToken_ok (by omega), hcut]
        refine Cuts.cons (wf_sdsnewlen (by rw [length_drop]; omega)) hfree ?_
        have hlength : (tokens ++ [sdsnewlen (s.drop start) (j - start)]).length = tokens.length + 1 :=
          length_append
        refine ih _ _ _ _ le_rfl hfit (by omega) (hlength ▸ hslots) (by omega) ?_
        exact fun i hi => absurd hi (by omega)
      · rw [if_neg hat]
        refine ih _ _ _ _ (by omega) (by omega) (by omega) (by omega) (by omega) fun i hi hpre => ?_
        rcases lt_or_eq_of_le (show i ≤ j - start by omega) with hij | rfl
        · exact hfree i hij hpre
        · rw [drop_drop, Nat.add_sub_cancel' hstart] at hpre
          exact hat (hiff.2 hpre)
    · rw [if_neg hturn]
      exact cuts_last (by omega) hroom hfree (by omega)

/-! ## Splitting -/

/-- The tokens are well formed and the string splits into them; the array is never left. -/
theorem sdssplitlen_spec (hlen : len ≤ s.length) (hint : len < 2 ^ 30) (hsep : seplen ≤ sep.length)
    (hpos : 0 < seplen) (hne : 0 < len) :
    ∃ tokens, sdssplitlen s len sep seplen = .ok (some tokens) ∧ (∀ t ∈ tokens, t.Wf) ∧
      Splits (sep.take seplen) (s.take len) (tokens.map Sds.content) := by
  obtain ⟨start, slots, tokens, hloop, hroom, hstart, hwf, hsplits⟩ :=
    splitlenLoop_cuts 0 0 5 [] hlen hint hsep hpos rfl rfl le_rfl (Nat.zero_le _)
      (Nat.le_add_left len _) (by decide) le_rfl fun i hi => absurd hi (Nat.not_lt_zero i)
  rw [nil_append] at hloop hroom
  rw [length_take, min_eq_left hlen] at hstart
  have hrest : len - start ≤ (s.drop start).length := by
    rw [length_drop]
    omega
  refine ⟨tokens ++ [sdsnewlen (s.drop start) (len - start)], ?_, ?_, ?_⟩
  · rw [sdssplitlen, if_neg (by omega), if_neg (by omega)]
    dsimp only
    rw [Int.toNat_natCast, Int.toNat_natCast, hloop]
    change storeToken slots tokens _ >>= _ = _
    rw [storeToken_ok hroom]
    rfl
  · exact forall_mem_append.2 ⟨hwf, forall_mem_singleton.2 (wf_sdsnewlen hrest)⟩
  · rw [map_append, map_singleton, content_sdsnewlen hrest, ← drop_take]
    exact hsplits

/-! ## Joining -/

theorem joinLoop_spec {α : Type} {cat : Sds → α → Sds} {catSep : Sds → Sds} {text : α → Bytes}
    {sep : Bytes} (hcat : ∀ s a, s.Wf → (cat s a).Wf ∧ (cat s a).content = s.content ++ text a)
    (hcatSep : ∀ s, s.Wf → (catSep s).Wf ∧ (catSep s).content = s.content ++ sep) {join : Sds}
    (h : join.Wf) (argv : List α) :
    (joinLoop cat catSep join argv).Wf ∧
      (joinLoop cat catSep join argv).content = join.content ++ sep.intercalate (argv.map text) := by
  induction argv generalizing join with
  | nil => exact ⟨h, (append_nil _).symm⟩
  | cons a argv ih =>
    obtain ⟨hwf, hcontent⟩ := hcat join a h
    rcases argv with _ | ⟨b, argv⟩
    · refine ⟨hwf, hcontent.trans ?_⟩
      rw [map_singleton, intercalate_singleton]
    · obtain ⟨hwf', hcontent'⟩ := hcatSep _ hwf
      obtain ⟨hjoin, hrest⟩ := ih hwf'
      refine ⟨hjoin, hrest.trans ?_⟩
      rw [hcontent', hcontent, map_cons, map_cons, map_cons, intercalate_cons_cons]
      simp only [append_assoc]

theorem sdsjoinsds_spec (argv : List Sds) (sep : Bytes) :
    (sdsjoinsds argv sep).Wf ∧
      (sdsjoinsds argv sep).content = sep.intercalate (argv.map Sds.content) := by
  have hcat : ∀ s t : Sds, s.Wf →
      (sdscatsds s t).Wf ∧ (sdscatsds s t).content = s.content ++ t.content :=
    fun s t hs => ⟨hs.wf_sdscatlen _, hs.content_sdscatlen _⟩
  have hcatSep : ∀ s : Sds, s.Wf → (sdscatlen s sep).Wf ∧ (sdscatlen s sep).content = s.content ++ sep :=
    fun s hs => ⟨hs.wf_sdscatlen _, hs.content_sdscatlen _⟩
  have hjoin := joinLoop_spec hcat hcatSep wf_sdsempty argv
  rwa [content_sdsempty, nil_append] at hjoin

/-! ## Round trips -/

/-- Splitting a string of less than a billion bytes finds no separator inside a token, and joining the
tokens gives the string back. -/
theorem sdsjoinsds_sdssplitlen (s sep : Bytes) (len seplen : ℕ) (hlen : len ≤ s.length)
    (hint : len < 2 ^ 30) (hsep : seplen ≤ sep.length) (hpos : 0 < seplen) (_hseplen : seplen < 2 ^ 31) :
    ∃ tokens, sdssplitlen s len sep seplen = .ok (some tokens) ∧
      (∀ t ∈ tokens, t.Wf ∧ FreeBelow (sep.take seplen) t.content.length t.content) ∧
        (sdsjoinsds tokens (sep.take seplen)).Wf ∧
          (sdsjoinsds tokens (sep.take seplen)).content = s.take len := by
  rcases Nat.eq_zero_or_pos len with rfl | hne
  · refine ⟨[], ?_, fun t ht => absurd ht not_mem_nil, wf_sdsempty, content_sdsempty⟩
    rw [sdssplitlen, if_neg (by omega), if_pos (show ((0 : ℕ) : ℤ) = 0 from rfl)]
    rfl
  · obtain ⟨tokens, hok, hwf, hsplits⟩ := sdssplitlen_spec hlen hint hsep hpos hne
    obtain ⟨hjoin, hcontent⟩ := sdsjoinsds_spec tokens (sep.take seplen)
    refine ⟨tokens, hok, fun t ht => ⟨hwf t ht, ?_⟩, hjoin, hcontent.trans hsplits.intercalate_eq⟩
    exact hsplits.freeBelow (mem_map_of_mem ht)

/-- `"a--b-"` at `"--"`, and joined again. -/
theorem sdsjoinsds_sdssplitlen_dashes :
    ∃ tokens, sdssplitlen [97, 45, 45, 98, 45] 5 [45, 45] 2 = .ok (some tokens) ∧
      (∀ t ∈ tokens, t.Wf ∧ FreeBelow [45, 45] t.content.length t.content) ∧
        (sdsjoinsds tokens [45, 45]).Wf ∧
          (sdsjoinsds tokens [45, 45]).content = [97, 45, 45, 98, 45] :=
  sdsjoinsds_sdssplitlen [97, 45, 45, 98, 45] [45, 45] 5 2 (by decide) (by decide) (by decide)
    (by decide) (by decide)

end RedisCounter
