import Mathlib.Algebra.Order.Group.Nat
import RedisCounter.Dict.Basic
import RedisCounter.Lib.Buckets

/-!
# One bucket array

What holds of each of the two tables at any time, and what a search, an insertion at the head of a
chain and an overwrite do to the entries of a table for which it holds.
-/

namespace RedisCounter

open List Buckets

variable {K V : Type}

/-- The bucket a key belongs to: its hash and the size mask. -/
def Dictht.index (T : DictType K) (ht : Dictht K V) (key : K) : ℕ :=
  (T.hashFunction key).toNat &&& ht.sizemask

/-- The entries of a table, bucket by bucket. -/
def Dictht.entries (ht : Dictht K V) : List (DictEntry K V) := ht.table.flatten

/-- A bucket array of the recorded size, which is a power of two from 4 on unless there is no array;
every entry in the bucket of its key; `used` counts the entries. -/
structure Dictht.Inv (T : DictType K) (ht : Dictht K V) : Prop where
  length : ht.table.length = ht.size
  size_pow : ht.size ≠ 0 → ∃ n ≥ 2, ht.size = 2 ^ n
  sizemask : ht.size ≠ 0 → ht.sizemask = ht.size - 1
  used : ht.used = ht.entries.length
  placed : Placed (fun he => ht.index T he.1) ht.table

namespace Dictht

variable {T : DictType K} {ht : Dictht K V} {key : K} {val : V}

theorem inv_dictReset : (dictReset : Dictht K V).Inv T where
  length := rfl
  size_pow h := absurd rfl h
  sizemask h := absurd rfl h
  used := rfl
  placed := placed_replicate _ 0

@[simp] theorem entries_dictReset : (dictReset : Dictht K V).entries = [] := rfl

/-- A new array of empty buckets. -/
theorem inv_replicate {n : ℕ} (hn : 2 ≤ n) :
    (⟨replicate (2 ^ n) [], 2 ^ n, 2 ^ n - 1, 0⟩ : Dictht K V).Inv T where
  length := length_replicate
  size_pow _ := ⟨n, hn, rfl⟩
  sizemask _ := rfl
  used := by simp [entries]
  placed := placed_replicate _ _

theorem Inv.size_ne_zero (h : ht.Inv T) (hu : ht.used ≠ 0) : ht.size ≠ 0 := by
  intro hs
  have hnil : ht.table = [] := by
    rw [← length_eq_zero_iff, h.length, hs]
  rw [h.used, entries, hnil] at hu
  exact hu rfl

/-- A key's bucket is inside the array. -/
theorem Inv.index_lt (h : ht.Inv T) (hs : ht.size ≠ 0) (key : K) : ht.index T key < ht.size := by
  obtain ⟨n, -, hn⟩ := h.size_pow hs
  have hpos := Nat.two_pow_pos n
  rw [index, h.sizemask hs, hn, Nat.and_two_pow_sub_one_eq_mod]
  exact Nat.mod_lt _ hpos

theorem Inv.exists_chain (h : ht.Inv T) (hs : ht.size ≠ 0) (key : K) :
    ∃ chain, ht.table[ht.index T key]? = some chain := by
  have hlt := h.index_lt hs key
  rw [← h.length] at hlt
  exact ⟨_, getElem?_eq_getElem hlt⟩

theorem entries_eq_nil_iff (h : ht.Inv T) : ht.entries = [] ↔ ht.used = 0 := by
  rw [h.used, length_eq_zero_iff]

/-! ## Searching -/

/-- The entry at position `pos` of bucket `idx`. -/
def At (ht : Dictht K V) (idx pos : ℕ) (he : DictEntry K V) : Prop :=
  ∃ chain, ht.table[idx]? = some chain ∧ chain[pos]? = some he

theorem At.mem_entries {idx pos : ℕ} {he : DictEntry K V} (h : ht.At idx pos he) :
    he ∈ ht.entries := by
  obtain ⟨chain, hchain, hpos⟩ := h
  exact mem_flatten_of_mem_chain hchain (mem_of_getElem? hpos)

/-- A search stays in bounds. It ends at an entry of the key, or the table has none. -/
theorem Inv.dictSearch_spec (h : ht.Inv T) (hs : ht.size ≠ 0) (key : K) :
    (dictSearch T ht key = .ok (ht.index T key, none) ∧ key ∉ ht.entries.keys) ∨
      ∃ pos val, dictSearch T ht key = .ok (ht.index T key, some (pos, ⟨key, val⟩)) ∧
        ht.At (ht.index T key) pos ⟨key, val⟩ := by
  obtain ⟨chain, hchain⟩ := h.exists_chain hs key
  have heq : dictSearch T ht key = .ok (ht.index T key,
      (chain.findIdx? fun he => T.keyCompare key he.1).bind fun pos => chain[pos]?.map (pos, ·)) := by
    rw [index] at hchain
    rw [dictSearch, hchain]
    rfl
  rcases hfind : chain.findIdx? fun he => T.keyCompare key he.1 with _ | pos
  · left
    refine ⟨by rw [heq, hfind]; rfl, fun hmem => ?_⟩
    obtain ⟨val, hval⟩ := exists_of_mem_keys hmem
    have hin := h.placed.mem_chain hchain hval rfl
    have hne := findIdx?_eq_none_iff.1 hfind _ hin
    rw [(T.keyCompare_iff key key).2 rfl] at hne
    exact Bool.noConfusion hne
  · right
    obtain ⟨hlt, hcmp, -⟩ := findIdx?_eq_some_iff_getElem.1 hfind
    have hkey : key = chain[pos].1 := (T.keyCompare_iff _ _).1 hcmp
    have hpos : chain[pos]? = some ⟨key, chain[pos].2⟩ := by
      rw [getElem?_eq_getElem hlt, hkey]
    refine ⟨pos, chain[pos].2, ?_, chain, hchain, hpos⟩
    rw [heq, hfind, Option.bind_some, hpos, Option.map_some]

/-! ## Inserting -/

/-- A new entry in the bucket of its key. -/
theorem Inv.dictInsertAt_spec (h : ht.Inv T) (hs : ht.size ≠ 0) (he : DictEntry K V) :
    ∃ ht', dictInsertAt ht (ht.index T he.1) he = .ok ht' ∧ ht'.Inv T ∧ ht'.size = ht.size ∧
      ht'.entries ~ he :: ht.entries := by
  obtain ⟨chain, hchain⟩ := h.exists_chain hs he.1
  have hperm := flatten_set_cons_perm hchain he
  refine ⟨{ ht with
    table := ht.table.set (ht.index T he.1) (he :: chain), used := ht.used + 1 }, ?_, ?_, rfl, hperm⟩
  · rw [dictInsertAt, hchain]
    rfl
  · refine ⟨?_, h.size_pow, h.sizemask, ?_, ?_⟩
    · rw [length_set]
      exact h.length
    · have hlen := hperm.length_eq
      rw [length_cons] at hlen
      exact (congrArg (· + 1) h.used).trans hlen.symm
    · apply Placed.set h.placed
      intro a ha
      rcases mem_cons.1 ha with rfl | ha
      · rfl
      · exact h.placed hchain a ha

/-! ## Overwriting a value -/

theorem dicthtSetVal_spec {idx pos : ℕ} (h : ht.Inv T) (hat : ht.At idx pos ⟨key, val⟩) (val' : V) :
    (dicthtSetVal ht idx pos val').Inv T ∧
      ∃ pre post, ht.entries = pre ++ ⟨key, val⟩ :: post ∧
        (dicthtSetVal ht idx pos val').entries = pre ++ ⟨key, val'⟩ :: post := by
  obtain ⟨chain, hchain, hpos⟩ := hat
  obtain ⟨pre, post, hl, hl'⟩ :=
    exists_flatten_modify hchain hpos fun he => (⟨he.1, val'⟩ : DictEntry K V)
  refine ⟨⟨?_, h.size_pow, h.sizemask, ?_, ?_⟩, pre, post, hl, hl'⟩
  · rw [dicthtSetVal, length_modify]
    exact h.length
  · have hlen : (dicthtSetVal ht idx pos val').entries.length = ht.entries.length := by
      rw [entries, entries, dicthtSetVal, hl, hl']
      simp
    rw [hlen]
    exact h.used
  · intro i b hb a ha
    -- the entries of the modified chain are those of the old one, one of them with another value
    rw [dicthtSetVal, getElem?_modify, Option.map_eq_map, Option.map_eq_some_iff] at hb
    obtain ⟨c, hc, rfl⟩ := hb
    have hold := h.placed hc
    split_ifs at ha with hi
    · obtain ⟨j, hj⟩ := mem_iff_getElem?.1 ha
      rw [getElem?_modify, Option.map_eq_map, Option.map_eq_some_iff] at hj
      obtain ⟨he, hhe, rfl⟩ := hj
      have hidx := hold he (mem_of_getElem? hhe)
      split_ifs
      · exact hidx
      · exact hidx
    · exact hold a ha

end Dictht

end RedisCounter
