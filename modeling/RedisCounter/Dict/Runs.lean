import Mathlib.Data.Finmap
import RedisCounter.Dict.Step

/-!
# The dictionary as a finite map

`dictMachine` is what the dictionary is for: a finite map, changed and read one key at a time. The
whole interface refines it over runs of any length and in any order: growing, shrinking, rehashing in
portions, and the pause that a safe iterator puts on it change no answer.
-/

namespace RedisCounter

open List Buckets Run

variable {K V : Type}

/-! ## The abstract machine -/

/-- A finite map, and the number of safe iterators that run. -/
structure DictMap (K V : Type) where
  map : Finmap fun _ : K => V
  iterators : ℕ

theorem dictEntryAt_eq {d : Dict K V} {p : EntryPtr} {he : DictEntry K V} (hat : d.At p he) :
    dictEntryAt d p = some he := by
  unfold Dict.At at hat
  unfold dictEntryAt
  split_ifs at hat ⊢ with htable
  · obtain ⟨chain, hchain, hpos⟩ := hat
    rw [hchain]
    exact hpos
  · obtain ⟨chain, hchain, hpos⟩ := hat
    rw [hchain]
    exact hpos

section Machine

variable [DecidableEq K]

/-- One call on the finite map. -/
def dictMachine (s : DictMap K V) : DictCall K V → DictMap K V × DictReply K V
  | .add key val =>
    if key ∈ s.map then (s, .flag false) else ({ s with map := s.map.insert key val }, .flag true)
  | .replace key val => ({ s with map := s.map.insert key val }, .flag (key ∉ s.map))
  | .addOrFind key val =>
    let val := (s.map.lookup key).getD val
    ({ s with map := s.map.insert key val }, .entry (some ⟨key, val⟩))
  | .overwrite key val =>
    if key ∈ s.map then ({ s with map := s.map.insert key val }, .flag true) else (s, .flag false)
  | .fetch key => (s, .value (s.map.lookup key))
  | .delete key => ({ s with map := s.map.erase key }, .flag (key ∈ s.map))
  | .unlink key => ({ s with map := s.map.erase key }, .entry ((s.map.lookup key).map (⟨key, ·⟩)))
  | .size => (s, .count s.map.keys.card)
  | .resize => (s, .done)
  | .expand _ => (s, .done)
  | .rehash _ => (s, .done)
  | .rehashMilliseconds _ _ => (s, .done)
  | .empty => (⟨∅, 0⟩, .done)
  | .iterate => ({ s with iterators := s.iterators + 1 }, .done)
  | .release => ({ s with iterators := s.iterators - 1 }, .done)

/-! ## The refinement -/

/-- The dictionary is sound and reads as the map. -/
structure Represents (T : DictType K) (d : Dict K V) (s : DictMap K V) : Prop where
  sound : d.Sound T
  get : d.get = fun k => s.map.lookup k
  iterators : d.iterators = s.iterators

namespace Represents

variable {T : DictType K} {d d' : Dict K V} {s : DictMap K V} {key : K} {val : V}

theorem create : Represents T (dictCreate : Dict K V) ⟨∅, 0⟩ where
  sound := Dict.sound_dictCreate
  get := by
    funext k
    rw [Finmap.lookup_empty]
    rfl
  iterators := rfl

theorem rehashed (h : Represents T d s) (hd : Dict.Rehashed T d d') : Represents T d' s where
  sound := hd.sound
  get := by
    rw [← h.get]
    exact (toFun_perm h.sound.nodup hd.perm.symm).symm
  iterators := hd.iterators.trans h.iterators

theorem insert (h : Represents T d s) (hd : d'.Sound T)
    (hget : d'.get = Function.update d.get key (some val)) (hit : d'.iterators = d.iterators) :
    Represents T d' { s with map := s.map.insert key val } where
  sound := hd
  get := by
    rw [hget, h.get]
    funext k
    rcases eq_or_ne k key with rfl | hk
    · rw [Function.update_self, Finmap.lookup_insert]
    · rw [Function.update_of_ne hk, Finmap.lookup_insert_of_ne _ hk]
  iterators := hit.trans h.iterators

theorem erase (h : Represents T d s) (hd : d'.Sound T)
    (hget : d'.get = Function.update d.get key none) (hit : d'.iterators = d.iterators) :
    Represents T d' { s with map := s.map.erase key } where
  sound := hd
  get := by
    rw [hget, h.get]
    funext k
    rcases eq_or_ne k key with rfl | hk
    · rw [Function.update_self, Finmap.lookup_erase]
    · rw [Function.update_of_ne hk, Finmap.lookup_erase_ne hk]
  iterators := hit.trans h.iterators

theorem mem_map_iff (h : Represents T d s) (key : K) : key ∈ s.map ↔ key ∈ d.entries.keys := by
  rw [← not_iff_not, ← Finmap.lookup_eq_none, ← Dict.get_eq_none_iff, h.get]

theorem lookup_eq_of_mem (h : Represents T d s) (hmem : ⟨key, val⟩ ∈ d.entries) :
    s.map.lookup key = some val := by
  rw [← congrFun h.get key]
  exact (toFun_eq_some_iff h.sound.nodup).2 hmem

theorem keys_card (h : Represents T d s) : dictSize d = s.map.keys.card := by
  have hkeys : s.map.keys = d.entries.keys.toFinset := by
    ext key
    rw [Finmap.mem_keys, List.mem_toFinset]
    exact h.mem_map_iff key
  rw [h.sound.dictSize_eq, hkeys, List.toFinset_card_of_nodup h.sound.nodup, keys, length_map]

/-- Erasing a key that is not there changes nothing. -/
theorem erase_absent (h : Represents T d s) (hkey : key ∉ d.entries.keys) (hd : Dict.Rehashed T d d') :
    Represents T d' { s with map := s.map.erase key } := by
  have hnone : d'.get key = none := by
    rw [(h.rehashed hd).get, ← h.get]
    exact Dict.get_eq_none_iff.2 hkey
  refine (h.rehashed hd).erase hd.sound ?_ rfl
  rw [← hnone, Function.update_eq_self]

/-- Inserting the value that is there changes nothing. -/
theorem insert_same (h : Represents T d s) (hmem : ⟨key, val⟩ ∈ d.entries) :
    Represents T d { s with map := s.map.insert key val } := by
  have hsome : d.get key = some val := (toFun_eq_some_iff h.sound.nodup).2 hmem
  refine h.insert h.sound ?_ rfl
  rw [← hsome, Function.update_eq_self]

/-! ## One call -/

theorem setVal (h : Represents T d s) {p : EntryPtr} {val : V} (hat : d.At p ⟨key, val⟩) (val' : V) :
    Represents T (dictSetVal d p val') { s with map := s.map.insert key val' } := by
  obtain ⟨hsound, hit, pre, post, hentries, hentries'⟩ := h.sound.dictSetVal_spec hat val'
  refine h.insert hsound ?_ hit
  have hnodup := h.sound.nodup
  rw [hentries] at hnodup
  rw [Dict.get, Dict.get, hentries, hentries']
  exact toFun_replace hnodup

/-- The call is answered as on the map, and leaves a dictionary that represents the map's. -/
def Simulates (T : DictType K) (d : Dict K V) (s : DictMap K V) (c : DictCall K V) : Prop :=
  ∃ d', dictCall T d c = .ok (d', (dictMachine s c).2) ∧ Represents T d' (dictMachine s c).1

theorem step_add (h : Represents T d s) (key : K) (val : V) : Simulates T d s (.add key val) := by
  obtain ⟨d', existing, entry, hadd, hd⟩ := h.sound.dictAddRawExisting_spec key val
  have hstep : dictCall T d (.add key val) = .ok (d', .flag entry.isSome) := by
    simp only [dictCall, dictAdd, Dict.dictAddRaw_eq, hadd, bind, Except.bind]
    rfl
  rw [Simulates, hstep, dictMachine]
  cases hd with
  | new p hkey sound perm iterators hat =>
    rw [if_neg (by rwa [h.mem_map_iff])]
    exact ⟨d', rfl, h.insert sound ((toFun_perm sound.nodup perm).trans toFun_cons) iterators⟩
  | old p val' rehashed hat =>
    rw [if_pos ((h.mem_map_iff key).2 ((rehashed.perm.map _).mem_iff.1
      (mem_keys_of_mem hat.mem_entries)))]
    exact ⟨d', rfl, h.rehashed rehashed⟩

theorem step_replace (h : Represents T d s) (key : K) (val : V) :
    Simulates T d s (.replace key val) := by
  obtain ⟨d', existing, entry, hadd, hd⟩ := h.sound.dictAddRawExisting_spec key val
  cases hd with
  | new p hkey sound perm iterators hat =>
    refine ⟨d', ?_, h.insert sound ((toFun_perm sound.nodup perm).trans toFun_cons) iterators⟩
    simp only [dictCall, dictReplace, hadd, bind, Except.bind, dictMachine, h.mem_map_iff, hkey]
    rfl
  | old p val' rehashed hat =>
    have hkey : key ∈ d.entries.keys :=
      (rehashed.perm.map _).mem_iff.1 (mem_keys_of_mem hat.mem_entries)
    refine ⟨dictSetVal d' p val, ?_, (h.rehashed rehashed).setVal hat val⟩
    simp only [dictCall, dictReplace, hadd, bind, Except.bind, dictMachine, h.mem_map_iff, hkey]
    rfl

theorem step_addOrFind (h : Represents T d s) (key : K) (val : V) :
    Simulates T d s (.addOrFind key val) := by
  obtain ⟨d', existing, entry, hadd, hd⟩ := h.sound.dictAddRawExisting_spec key val
  cases hd with
  | new p hkey sound perm iterators hat =>
    have hnone : s.map.lookup key = none :=
      Finmap.lookup_eq_none.2 (by rwa [h.mem_map_iff])
    rw [Simulates, dictMachine, hnone, Option.getD_none]
    refine ⟨d', ?_, h.insert sound ((toFun_perm sound.nodup perm).trans toFun_cons) iterators⟩
    simp only [dictCall, dictAddOrFind, hadd, bind, Except.bind, pure, Except.pure]
    simp [dictEntryAt_eq hat]
  | old p val' rehashed hat =>
    have hsome : s.map.lookup key = some val' :=
      (h.rehashed rehashed).lookup_eq_of_mem hat.mem_entries
    rw [Simulates, dictMachine, hsome, Option.getD_some]
    refine ⟨d', ?_, (h.rehashed rehashed).insert_same hat.mem_entries⟩
    simp only [dictCall, dictAddOrFind, hadd, bind, Except.bind, pure, Except.pure]
    simp [dictEntryAt_eq hat]

theorem step_overwrite (h : Represents T d s) (key : K) (val : V) :
    Simulates T d s (.overwrite key val) := by
  obtain ⟨d', r, hfind, hd, hr⟩ := h.sound.dictFind_spec key
  have h' := h.rehashed hd
  rw [Simulates, dictMachine]
  cases hr with
  | absent habs =>
    rw [if_neg (by rwa [h'.mem_map_iff])]
    refine ⟨d', ?_, h'⟩
    simp only [dictCall, hfind, bind, Except.bind]
    rfl
  | present p val' hat =>
    rw [if_pos ((h'.mem_map_iff key).2 (mem_keys_of_mem hat.mem_entries))]
    refine ⟨dictSetVal d' p val, ?_, h'.setVal hat val⟩
    simp only [dictCall, hfind, bind, Except.bind]
    rfl

theorem step_fetch (h : Represents T d s) (key : K) : Simulates T d s (.fetch key) := by
  obtain ⟨d', r, hfind, hd, hr⟩ := h.sound.dictFind_spec key
  have h' := h.rehashed hd
  refine ⟨d', ?_, h'⟩
  have hval : s.map.lookup key = r.map fun x => x.2.2 := by
    cases hr with
    | absent habs => exact Finmap.lookup_eq_none.2 (by rwa [h'.mem_map_iff])
    | present p val hat => exact h'.lookup_eq_of_mem hat.mem_entries
  simp only [dictCall, dictFetchValue, hfind, bind, Except.bind, dictMachine, hval]
  rfl

theorem step_unlink (h : Represents T d s) (key : K) : Simulates T d s (.unlink key) := by
  obtain ⟨d', he, hdel, hd⟩ := h.sound.dictGenericDelete_spec key
  have hstep : dictCall T d (.unlink key) = .ok (d', .entry he) := by
    simp only [dictCall, dictUnlink, hdel, bind, Except.bind]
    rfl
  rw [Simulates, hstep, dictMachine]
  cases hd with
  | absent hkey rehashed =>
    refine ⟨d', ?_, h.erase_absent hkey rehashed⟩
    rw [Finmap.lookup_eq_none.2 (by rwa [h.mem_map_iff])]
    rfl
  | present val sound perm iterators =>
    refine ⟨d', ?_, h.erase sound (toFun_of_perm_cons h.sound.nodup perm) iterators⟩
    rw [h.lookup_eq_of_mem (perm.mem_iff.2 (mem_cons_self ..))]
    rfl

/-- A deletion is an unlinking whose entry is not handed out. -/
theorem step_delete (h : Represents T d s) (key : K) : Simulates T d s (.delete key) := by
  obtain ⟨d', hunlink, h'⟩ := h.step_unlink key
  obtain ⟨d1, he, hdel, -⟩ := h.sound.dictGenericDelete_spec key
  have hstep : dictCall T d (.unlink key) = .ok (d1, .entry he) := by
    simp only [dictCall, dictUnlink, hdel, bind, Except.bind]
    rfl
  rw [hstep] at hunlink
  cases hunlink
  refine ⟨d', ?_, h'⟩
  have hflag : ((s.map.lookup key).map (⟨key, ·⟩) : Option (DictEntry K V)).isSome
      = decide (key ∈ s.map) := by
    rw [Option.isSome_map, Bool.eq_iff_iff, Finmap.lookup_isSome, decide_eq_true_iff]
  simp only [dictCall, dictDelete, hdel, bind, Except.bind, dictMachine, pure, Except.pure]
  rw [← hflag]

/-- The count of buckets stays an `int`, as the table has no more. -/
theorem step_rehashMilliseconds (h : Represents T d s) (ms : ℤ) (clock : ℕ → ℤ)
    (hint : d.ht0.size < 2 ^ 31) : Simulates T d s (.rehashMilliseconds ms clock) := by
  obtain ⟨d', m, hrun, hd, -, -, -, hcount⟩ := h.sound.dictRehashFor_spec ms clock (d.ht0.size + 1) 0
    (fun i _ => by omega)
  have hm : m * 100 < 2 ^ 31 := by omega
  refine ⟨d', ?_, h.rehashed hd⟩
  simp only [dictCall, dictRehashMilliseconds, hrun, bind, Except.bind, if_pos hm]
  rfl

theorem step_rehash (h : Represents T d s) (n : ℕ) (hint : n * 10 < 2 ^ 31) :
    Simulates T d s (.rehash n) := by
  obtain ⟨d', more, hrehash, hp⟩ := h.sound.dictRehashMore_spec n
  refine ⟨d', ?_, h.rehashed hp.rehashed⟩
  simp only [dictCall, if_pos hint, hrehash, bind, Except.bind]
  rfl

/-- A second table, or the error that leaves the dictionary as it is. -/
theorem resized (h : Represents T d s) {r : Option (Dict K V)}
    (hr : ∀ d', r = some d' → Dict.Resized T d d') : Represents T (r.getD d) s := by
  cases r with
  | none => exact h
  | some d' => exact h.rehashed (hr d' rfl).rehashed

/-- Only the number of iterators changes. -/
theorem set_iterators (h : Represents T d s) (n : ℕ) :
    Represents T { d with iterators := n } { s with iterators := n } where
  sound := ⟨h.sound.ht0, h.sound.ht1, h.sound.nodup, h.sound.idle, h.sound.moved, h.sound.tables⟩
  get := h.get
  iterators := rfl

theorem step (h : Represents T d s) (hfit : d.Fits) {c : DictCall K V} (hallow : DictAllowed d c) :
    Simulates T d s c := by
  cases c with
  | add key val => exact h.step_add key val
  | replace key val => exact h.step_replace key val
  | addOrFind key val => exact h.step_addOrFind key val
  | overwrite key val => exact h.step_overwrite key val
  | fetch key => exact h.step_fetch key
  | delete key => exact h.step_delete key
  | unlink key => exact h.step_unlink key
  | size =>
    refine ⟨d, ?_, h⟩
    rw [dictCall, dictMachine, h.keys_card]
    rfl
  | resize => exact ⟨_, rfl, h.resized fun _ hr => h.sound.dictResize_spec hr⟩
  | expand size => exact ⟨_, rfl, h.resized fun _ hr => h.sound.dictExpand_spec hr⟩
  | rehash n => exact h.step_rehash n hallow
  | rehashMilliseconds ms clock => exact h.step_rehashMilliseconds ms clock hallow
  | empty =>
    refine ⟨dictCreate, ?_, create⟩
    rw [dictCall, h.sound.dictEmpty_eq]
    rfl
  | iterate =>
    have hlt : d.iterators + 1 < 2 ^ 64 := hallow
    refine ⟨{ d with iterators := s.iterators + 1 }, ?_, h.set_iterators _⟩
    rw [dictCall, Dict.dictIterStart_safe, Nat.mod_eq_of_lt hlt, h.iterators]
    rfl
  | release =>
    have hpos : d.iterators ≠ 0 := hallow
    have hlt := hfit.iterators
    have hless : (d.iterators + (2 ^ 64 - 1)) % 2 ^ 64 = s.iterators - 1 := by
      rw [← h.iterators]
      omega
    refine ⟨{ d with iterators := s.iterators - 1 }, ?_, h.set_iterators _⟩
    rw [dictCall, Dict.dictReleaseIterator_started, hless]
    rfl

end Represents

/-! ## Whole runs -/

/-- Only a new iterator adds to the count. -/
theorem dictMachine_iterators_lt {d : Dict K V} {s : DictMap K V} {c : DictCall K V}
    (hallow : DictAllowed d c) (hit : d.iterators = s.iterators) (hlt : d.iterators < 2 ^ 64) :
    (dictMachine s c).1.iterators < 2 ^ 64 := by
  rw [hit] at hlt
  cases c with
  | add key val =>
    rw [dictMachine]
    split_ifs
    · exact hlt
    · exact hlt
  | overwrite key val =>
    rw [dictMachine]
    split_ifs
    · exact hlt
    · exact hlt
  | empty => exact Nat.two_pow_pos 64
  | iterate =>
    have hallow : d.iterators + 1 < 2 ^ 64 := hallow
    rwa [hit] at hallow
  | release => exact (Nat.sub_le _ _).trans_lt hlt
  | _ => exact hlt

section Runs

variable {T : DictType K} {d : Dict K V}

/-- An admissible call is answered as on the map, and what it leaves fits. -/
theorem Represents.dictStep_spec {s : DictMap K V} (h : Represents T d s) (hfit : d.Fits)
    {c : DictCall K V} (hallow : DictAllowed d c) :
    ∃ d', dictStep T d c = .ok (d', (dictMachine s c).2) ∧
      Represents T d' (dictMachine s c).1 ∧ d'.Fits := by
  obtain ⟨d', hcall, h'⟩ := h.step hfit hallow
  have hit := dictMachine_iterators_lt hallow h.iterators hfit.iterators
  rw [← h'.iterators] at hit
  have hfit' := hfit.shaped (h.sound.dictCall_shaped hallow (Nat.zero_le _) (.inl rfl) hcall) hit
  exact ⟨d', hfit'.dictStep_eq hcall, h', hfit'⟩

/-- Every sound dictionary reads as some finite map. -/
theorem Dict.Sound.represents (h : d.Sound T) :
    Represents T d ⟨d.entries.toFinmap, d.iterators⟩ where
  sound := h
  get := by
    funext k
    exact (Finmap.dlookup_list_toFinmap k d.entries).symm
  iterators := rfl

theorem Dict.Ready.dictStep_spec (h : d.Ready T) {c : DictCall K V} (hallow : DictAllowed d c) :
    ∃ d' r, dictStep T d c = .ok (d', r) ∧ d'.Ready T := by
  obtain ⟨d', hstep, h', hfit'⟩ := h.sound.represents.dictStep_spec h.fits hallow
  exact ⟨d', _, hstep, h'.sound, hfit'⟩

theorem Dict.Ready.of_dictStep (h : d.Ready T) {c : DictCall K V} (hallow : DictAllowed d c)
    {d' : Dict K V} {r : DictReply K V} (hstep : dictStep T d c = .ok (d', r)) : d'.Ready T := by
  obtain ⟨d1, r1, hstep1, h1⟩ := h.dictStep_spec hallow
  rw [hstep1] at hstep
  cases hstep
  exact h1

/-- Every run of admissible calls leaves a sound dictionary whose tables fit. -/
theorem Dict.Made.ready (h : d.Made T) : d.Ready T := by
  obtain ⟨calls, replies, hcalls, hrun⟩ := h
  exact inv_of_along (Dict.Ready T) (fun d c d' r hd hallow hstep => hd.of_dictStep hallow hstep) hcalls
    Dict.ready_dictCreate hrun

end Runs

/-- Over any run of admissible calls the dictionary answers as a finite map does, whatever rehashes,
resizes and paused rehashes lie between; no call runs off a table, fails an assertion, or makes a table
or a count that its type cannot hold. -/
theorem dictStep_refines (T : DictType K) (calls : List (DictCall K V))
    (hcalls : Along (dictStep T) DictAllowed dictCreate calls) :
    ∃ d', run (dictStep T) dictCreate calls = .ok (d', (arun dictMachine ⟨∅, 0⟩ calls).2) ∧
      Represents T d' (arun dictMachine ⟨∅, 0⟩ calls).1 := by
  obtain ⟨d', hrun, h', -⟩ := simulation_along (fun d s => Represents T d s ∧ d.Fits)
    (fun d s c h hallow => h.1.dictStep_spec h.2 (c := c) hallow) hcalls ⟨.create, Dict.fits_dictCreate⟩
  exact ⟨d', hrun, h'⟩

end Machine

/-- Numbers that are their own hash. -/
def natDictType : DictType ℕ where
  hashFunction := UInt64.ofNat
  keyCompare key1 key2 := key1 == key2
  keyCompare_iff := by simp

/-- A deletion and an insertion under an iterator, then a resize. -/
theorem dictStep_refines_paused :
    ∃ d', run (dictStep natDictType) dictCreate [.replace 1 10, .iterate, .replace 2 20, .delete 1,
        .release, .expand 8, .rehash 100, .fetch 2, .size]
      = .ok (d', [.flag true, .done, .flag true, .flag true, .done, .done, .done, .value (some 20),
        .count 1]) := by
  obtain ⟨d', hrun, -⟩ := dictStep_refines natDictType
    [.replace 1 10, .iterate, .replace 2 20, .delete 1, .release, .expand 8, .rehash 100, .fetch 2,
      .size]
    (by decide +kernel)
  exact ⟨d', hrun⟩

/-- Five keys: the fifth has just started a rehash from 4 to 8 buckets. -/
def fiveKeys : Dict ℕ ℕ where
  ht0 := ⟨[[⟨4, 40⟩], [⟨1, 10⟩], [⟨2, 20⟩], [⟨3, 30⟩]], 4, 3, 4⟩
  ht1 := ⟨[[], [⟨9, 90⟩], [], [], [], [], [], []], 8, 7, 1⟩
  rehashidx := some 0
  iterators := 0

theorem made_fiveKeys : fiveKeys.Made natDictType :=
  ⟨[.add 1 10, .add 2 20, .add 3 30, .add 4 40, .add 9 90], replicate 5 (.flag true),
    by decide +kernel, rfl⟩

end RedisCounter
