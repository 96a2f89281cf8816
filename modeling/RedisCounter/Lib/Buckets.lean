import Mathlib.Data.List.Sigma
import Mathlib.Logic.Function.Basic
import Mathlib.Tactic.Common

/-!
# Bucket arrays and association lists

A bucket array is a list of chains, and its entries are the concatenation of the chains. Replacing
one chain changes the entries only at that chain's place, and an entry whose chain is determined by
an index function is found in that chain or nowhere. The last section reads a list of key-value
pairs without repeated keys as a partial function: reordering it changes nothing, consing a fresh
key or replacing one value is a `Function.update`.
-/

namespace Buckets

open List

/-! ## Replacing one chain -/

section Chains

variable {α : Type*} {l : List (List α)} {i : ℕ} {b : List α}

/-- The entries before and after a chain do not depend on what the chain is replaced by. -/
theorem exists_flatten_set (h : l[i]? = some b) :
    ∃ pre post, l.flatten = pre ++ b ++ post ∧
      ∀ b', (l.set i b').flatten = pre ++ b' ++ post := by
  obtain ⟨hlt, hb⟩ := List.getElem?_eq_some_iff.1 h
  refine ⟨(l.take i).flatten, (l.drop (i + 1)).flatten, ?_, fun b' => ?_⟩
  · conv_lhs => rw [← take_append_drop i l, drop_eq_getElem_cons hlt, hb]
    simp
  · rw [set_eq_take_append_cons_drop, if_pos hlt]
    simp

/-- Consing onto one chain conses onto the entries, up to their order. -/
theorem flatten_set_cons_perm (h : l[i]? = some b) (a : α) :
    (l.set i (a :: b)).flatten ~ a :: l.flatten := by
  obtain ⟨pre, post, hl, hset⟩ := exists_flatten_set h
  rw [hset, hl, append_assoc, append_assoc]
  exact perm_middle

/-- Emptying one chain takes exactly its entries away. -/
theorem flatten_set_nil_perm (h : l[i]? = some b) : b ++ (l.set i []).flatten ~ l.flatten := by
  obtain ⟨pre, post, hl, hset⟩ := exists_flatten_set h
  rw [hset, hl, append_nil, ← append_assoc]
  exact perm_append_comm.append_right post

/-- Changing one entry in place. -/
theorem exists_flatten_modify {j : ℕ} {a : α} (h : l[i]? = some b) (hj : b[j]? = some a)
    (f : α → α) :
    ∃ pre post, l.flatten = pre ++ a :: post ∧
      (l.modify i fun c => c.modify j f).flatten = pre ++ f a :: post := by
  obtain ⟨hi, hb⟩ := List.getElem?_eq_some_iff.1 h
  obtain ⟨hlt, ha⟩ := List.getElem?_eq_some_iff.1 hj
  obtain ⟨pre, post, hl, hset⟩ := exists_flatten_set h
  have hmod : (l.modify i fun c => c.modify j f) = l.set i (b.modify j f) := by
    rw [modify_eq_take_cons_drop hi, set_eq_take_append_cons_drop, if_pos hi, hb]
  refine ⟨pre ++ b.take j, b.drop (j + 1) ++ post, ?_, ?_⟩
  · rw [hl]
    conv_lhs => rw [← take_append_drop j b, drop_eq_getElem_cons hlt, ha]
    simp
  · rw [hmod, hset, modify_eq_take_cons_drop hlt, ha]
    simp

/-- Taking one entry out of a chain takes it out of the entries. -/
theorem exists_flatten_eraseIdx {j : ℕ} {a : α} (h : l[i]? = some b) (hj : b[j]? = some a) :
    ∃ pre post, l.flatten = pre ++ a :: post ∧
      (l.modify i fun c => c.eraseIdx j).flatten = pre ++ post := by
  obtain ⟨hi, hb⟩ := List.getElem?_eq_some_iff.1 h
  obtain ⟨hlt, ha⟩ := List.getElem?_eq_some_iff.1 hj
  obtain ⟨pre, post, hl, hset⟩ := exists_flatten_set h
  have hmod : (l.modify i fun c => c.eraseIdx j) = l.set i (b.eraseIdx j) := by
    rw [modify_eq_take_cons_drop hi, set_eq_take_append_cons_drop, if_pos hi, hb]
  refine ⟨pre ++ b.take j, b.drop (j + 1) ++ post, ?_, ?_⟩
  · rw [hl]
    conv_lhs => rw [← take_append_drop j b, drop_eq_getElem_cons hlt, ha]
    simp
  · rw [hmod, hset, eraseIdx_eq_take_drop_succ]
    simp

end Chains

section Filter

variable {α : Type*}

/-- Two filters that keep nothing in common make one, up to the order. -/
theorem filter_append_filter_perm {p q : α → Prop} [DecidablePred p] [DecidablePred q]
    {l : List α} (h : ∀ a, p a → ¬ q a) :
    l.filter (fun a => p a) ++ l.filter (fun a => q a) ~ l.filter fun a => p a ∨ q a := by
  induction l with
  | nil => exact Perm.refl _
  | cons a l ih =>
    by_cases hp : p a
    · simpa [hp, h a hp] using ih
    · by_cases hq : q a
      · simpa [hp, hq] using perm_middle.trans (ih.cons a)
      · simpa [hp, hq] using ih

end Filter

/-! ## Entries in the chain their index names -/

section Placed

variable {α : Type*} {idx : α → ℕ} {l : List (List α)} {i : ℕ} {b : List α}

/-- Every entry sits in the chain that `idx` names. -/
def Placed (idx : α → ℕ) (l : List (List α)) : Prop :=
  ∀ ⦃i b⦄, l[i]? = some b → ∀ a ∈ b, idx a = i

theorem placed_replicate (idx : α → ℕ) (n : ℕ) : Placed idx (replicate n []) := by
  intro i b h a ha
  rw [getElem?_replicate] at h
  split_ifs at h
  cases h
  simp at ha

/-- An entry is found in the chain its index names. -/
theorem Placed.mem_chain (hp : Placed idx l) (h : l[i]? = some b) {a : α} (ha : a ∈ l.flatten)
    (hi : idx a = i) : a ∈ b := by
  obtain ⟨c, hc, hac⟩ := mem_flatten.1 ha
  obtain ⟨j, hj⟩ := mem_iff_getElem?.1 hc
  -- the chain it was found in is the one its index names
  have hij : i = j := hi.symm.trans (hp hj a hac)
  rw [hij, hj] at h
  cases h
  exact hac

theorem mem_flatten_of_mem_chain (h : l[i]? = some b) {a : α} (ha : a ∈ b) : a ∈ l.flatten :=
  mem_flatten.2 ⟨b, mem_of_getElem? h, ha⟩

/-- A chain holds exactly the entries whose index names it. -/
theorem Placed.filter_flatten (hp : Placed idx l) (h : l[i]? = some b) :
    (l.flatten.filter fun a => idx a = i) = b := by
  obtain ⟨hi, hb⟩ := List.getElem?_eq_some_iff.1 h
  have hcut : l = l.take i ++ b :: l.drop (i + 1) := by
    conv_lhs => rw [← take_append_drop i l, drop_eq_getElem_cons hi, hb]
  -- the entries before and behind the chain have other indices
  have hother : ∀ c (j : ℕ), l[j]? = some c → j ≠ i → ∀ a ∈ c, ¬ idx a = i := by
    intro c j hc hj a ha hia
    exact hj ((hp hc a ha).symm.trans hia)
  have hpre : ((l.take i).flatten.filter fun a => idx a = i) = [] := by
    rw [filter_eq_nil_iff]
    intro a ha
    obtain ⟨c, hc, hac⟩ := mem_flatten.1 ha
    obtain ⟨j, hj⟩ := mem_iff_getElem?.1 hc
    rw [getElem?_take] at hj
    split_ifs at hj with hji
    simpa using hother c j hj (Nat.ne_of_lt hji) a hac
  have hpost : ((l.drop (i + 1)).flatten.filter fun a => idx a = i) = [] := by
    rw [filter_eq_nil_iff]
    intro a ha
    obtain ⟨c, hc, hac⟩ := mem_flatten.1 ha
    obtain ⟨j, hj⟩ := mem_iff_getElem?.1 hc
    rw [getElem?_drop] at hj
    simpa using hother c _ hj (by omega) a hac
  have hmid : (b.filter fun a => idx a = i) = b :=
    filter_eq_self.2 fun a ha => by simpa using hp h a ha
  conv_lhs => rw [hcut]
  rw [flatten_append, flatten_cons, filter_append, filter_append, hpre, hpost, hmid, nil_append,
    append_nil]

theorem Placed.set (hp : Placed idx l) (hb : ∀ a ∈ b, idx a = i) : Placed idx (l.set i b) := by
  intro j c hc a ha
  rw [getElem?_set] at hc
  split_ifs at hc with hij hlt
  · cases hc
    exact (hb a ha).trans hij
  · exact hp hc a ha

/-- A chain behind only empty chains exists as long as any entry is left. -/
theorem exists_chain_of_flatten_ne_nil (h : l.flatten ≠ []) :
    ∃ (i : ℕ) (a : α) (c : List α), l[i]? = some (a :: c) := by
  obtain ⟨a, ha⟩ := exists_mem_of_ne_nil _ h
  obtain ⟨c, hc, hac⟩ := mem_flatten.1 ha
  obtain ⟨i, hi⟩ := mem_iff_getElem?.1 hc
  cases c with
  | nil => simp at hac
  | cons x c => exact ⟨i, x, c, hi⟩

end Placed

/-! ## Association lists as partial functions -/

section Assoc

variable {K V : Type*} {l l' : List (Sigma fun _ : K => V)} {k : K} {v : V}

theorem nodupKeys_cons_of_perm (hl : l.NodupKeys) (hk : k ∉ l.keys) (h : l' ~ ⟨k, v⟩ :: l) :
    l'.NodupKeys :=
  (perm_nodupKeys h).2 (nodupKeys_cons.2 ⟨hk, hl⟩)

/-- A key that no two entries have is found in the chain it is in. -/
theorem find?_chain {l : List (List (Sigma fun _ : K => V))} {b : List (Sigma fun _ : K => V)}
    {p : List (Sigma fun _ : K => V) → Bool} (hl : l.flatten.NodupKeys) (hb : b ∈ l)
    (hp : ∀ c, p c = true ↔ k ∈ c.keys) (hk : k ∈ b.keys) : l.find? p = some b := by
  induction l with
  | nil => cases hb
  | cons c l ih =>
    rw [flatten_cons, NodupKeys, keys, map_append, nodup_append] at hl
    rw [find?_cons]
    rcases mem_cons.1 hb with rfl | hmem
    · rw [(hp b).2 hk]
    · -- the key is in a later chain, so not in this one
      have hc : k ∉ c.keys := by
        intro hkc
        obtain ⟨v, hv⟩ := exists_of_mem_keys hk
        have hin : ⟨k, v⟩ ∈ l.flatten := mem_flatten_of_mem hmem hv
        exact hl.2.2 k hkc k (mem_keys_of_mem hin) rfl
      rw [Bool.eq_false_iff.2 fun h => hc ((hp c).1 h)]
      exact ih hl.2.1 hmem

variable {pre post : List (Sigma fun _ : K => V)} {v' : V}

/-- Replacing one value keeps the keys. -/
theorem keys_replace :
    (pre ++ ⟨k, v'⟩ :: post : List (Sigma fun _ : K => V)).keys
      = (pre ++ ⟨k, v⟩ :: post : List (Sigma fun _ : K => V)).keys := by
  simp [keys]

variable [DecidableEq K]

/-- The partial function a list of key-value pairs stands for. -/
def toFun (l : List (Sigma fun _ : K => V)) (k : K) : Option V := l.dlookup k

theorem toFun_eq_none_iff : toFun l k = none ↔ k ∉ l.keys := dlookup_eq_none

theorem toFun_eq_some_iff (hl : l.NodupKeys) : toFun l k = some v ↔ ⟨k, v⟩ ∈ l :=
  mem_dlookup_iff hl

/-- The order of the pairs does not matter. -/
theorem toFun_perm (hl : l.NodupKeys) (h : l ~ l') : toFun l = toFun l' :=
  funext fun k => perm_dlookup k hl h

/-- A fresh key in front is an update. -/
theorem toFun_cons : toFun (⟨k, v⟩ :: l) = Function.update (toFun l) k (some v) := by
  funext k'
  rcases eq_or_ne k' k with rfl | hk
  · rw [Function.update_self]
    exact dlookup_cons_eq l k' v
  · rw [Function.update_of_ne hk]
    exact dlookup_cons_ne l ⟨k, v⟩ hk

/-- Replacing one value is an update. -/
theorem toFun_replace (hl : (pre ++ ⟨k, v⟩ :: post).NodupKeys) :
    toFun (pre ++ ⟨k, v'⟩ :: post) = Function.update (toFun (pre ++ ⟨k, v⟩ :: post)) k (some v') := by
  have hl' : (pre ++ ⟨k, v'⟩ :: post).NodupKeys := by
    rw [NodupKeys, keys_replace]
    exact hl
  calc toFun (pre ++ ⟨k, v'⟩ :: post)
      = toFun (⟨k, v'⟩ :: (pre ++ post)) := toFun_perm hl' perm_middle
    _ = Function.update (toFun (pre ++ post)) k (some v') := toFun_cons
    _ = Function.update (toFun (⟨k, v⟩ :: (pre ++ post))) k (some v') := by
        rw [toFun_cons, Function.update_idem]
    _ = Function.update (toFun (pre ++ ⟨k, v⟩ :: post)) k (some v') := by
        rw [toFun_perm hl perm_middle]

/-- Taking the one pair of a key away is an update. -/
theorem toFun_of_perm_cons (hl : l.NodupKeys) (h : l ~ ⟨k, v⟩ :: l') :
    toFun l' = Function.update (toFun l) k none := by
  have hnd := (perm_nodupKeys h).1 hl
  have hk : toFun l' k = none := toFun_eq_none_iff.2 (nodupKeys_cons.1 hnd).1
  rw [toFun_perm hl h, toFun_cons, Function.update_idem, ← hk, Function.update_eq_self]

/-- What holds of every value still does after a value with it has been set. -/
theorem forall_of_update {P : V → Prop} {f : K → Option V} (hv : P v)
    (hf : ∀ k' v', f k' = some v' → P v') (k' : K) (v' : V)
    (h : Function.update f k (some v) k' = some v') : P v' := by
  rcases eq_or_ne k' k with rfl | hne
  · rw [Function.update_self] at h
    cases h
    exact hv
  · rw [Function.update_of_ne hne] at h
    exact hf k' v' h

end Assoc

end Buckets
