import RedisCounter.Db.Basic
import RedisCounter.Dict.Siphash

/-!
# The hash of a key

The model of the database takes any function of a key's bytes in place of `dictSdsHash`. The function
the code has is one: it reads the bytes that the header counts and nothing of what lies behind them, so
two strings that `dictSdsKeyCompare` takes for the same key have the same hash, whatever their headers
and their free space.
-/

namespace RedisCounter

/-- `dictGenHashFunction`, with `dict_hash_function_seed`: the length is an `int`, and then a
`size_t`. -/
def dictGenHashFunction (build : SipBuild) (seed key : Bytes) (len : ℤ) : UInt64 :=
  siphash build key (len.bmod (2 ^ 32) % (2 ^ 64 : ℕ)).toNat seed

/-- `dictGenCaseHashFunction` -/
def dictGenCaseHashFunction (build : SipBuild) (seed buf : Bytes) (len : ℤ) : UInt64 :=
  siphashNocase build buf (len.bmod (2 ^ 32) % (2 ^ 64 : ℕ)).toNat seed

def dictSdsHash (build : SipBuild) (seed : Bytes) (key : Sds) : UInt64 :=
  dictGenHashFunction build seed key.buf (sdslen key)

/-- The hash function of `dbDictType`, as a function of the key's bytes. -/
def keyHash (build : SipBuild) (seed key : Bytes) : UInt64 := siphash build key key.length seed

variable {build : SipBuild} {seed : Bytes} {s s1 s2 : Sds} {key key1 key2 : Key}

theorem dictKey_eq_ok (h : dictKey s = .ok key) : key.1 = s.content := by
  rw [dictKey] at h
  split_ifs at h
  cases h
  rfl

theorem dictSdsHash_eq (h : s.Wf) (hkey : dictKey s = .ok key) :
    dictSdsHash build seed s = keyHash build seed key.1 := by
  have hcontent := dictKey_eq_ok hkey
  have hlen : (sdslen s : ℤ) < 2 ^ 31 := by
    have hlt := key.2
    rw [hcontent, h.content_length] at hlt
    exact_mod_cast hlt
  have hint : ((sdslen s : ℤ).bmod (2 ^ 32) % (2 ^ 64 : ℕ)).toNat = sdslen s := by
    rw [Int.bmod_eq_of_le (by omega) (by omega)]
    omega
  rw [dictSdsHash, dictGenHashFunction, hint, siphash_take, keyHash, siphash_take build key.1, hcontent,
    h.content_length, Sds.content, List.take_take, min_self]
  rfl

/-- The code's hash function is one that `dbDictType` can be given, and strings that are taken for the
same key have the same hash. -/
theorem dictSdsHash_compare (h1 : s1.Wf) (h2 : s2.Wf) (hkey1 : dictKey s1 = .ok key1)
    (hkey2 : dictKey s2 = .ok key2) :
    dictSdsHash build seed s1 = (dbDictType (keyHash build seed)).hashFunction key1 ∧
      (dictSdsKeyCompare key1 key2 = true → dictSdsHash build seed s1 = dictSdsHash build seed s2) := by
  refine ⟨dictSdsHash_eq h1 hkey1, fun hcompare => ?_⟩
  rw [dictSdsHash_eq h1 hkey1, dictSdsHash_eq h2 hkey2, (dictSdsKeyCompare_iff ..).1 hcompare]

/-- A key, and the same key with free space behind it, under a larger header. -/
theorem dictSdsHash_compare_room :
    dictSdsHash .unaligned (List.replicate 16 0) (sdsnew [107, 101, 121])
      = dictSdsHash .unaligned (List.replicate 16 0) (sdsMakeRoomFor (sdsnew [107, 101, 121]) 300) := by
  have hwf := wf_sdsnew [107, 101, 121]
  have hgrown := hwf.makeRoom 300
  have hkey : dictKey (sdsnew [107, 101, 121]) = .ok ⟨[107, 101, 121], by decide⟩ := rfl
  have hkey' : dictKey (sdsMakeRoomFor (sdsnew [107, 101, 121]) 300) = .ok ⟨[107, 101, 121], by decide⟩ :=
    rfl
  exact (dictSdsHash_compare hwf (hgrown.wf hwf) hkey hkey').2 rfl

end RedisCounter
