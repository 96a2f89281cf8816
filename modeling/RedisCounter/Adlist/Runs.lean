import RedisCounter.Adlist.Specs
import RedisCounter.Sds.Number

/-!
# Runs of calls on lists that share a heap

Any number of lists live on one heap; nodes are added, removed, moved within a list and from one to
another, copied and walked over in any order. Each list is what the same calls make of a sequence of
nodes, no two lists share a node, and the heap holds the nodes of the lists and nothing else: no node is
lost, and none is freed twice or used after it has been freed.
-/

namespace RedisCounter

open Function List DoublyLinked Run

variable {ι α : Type} [DecidableEq ι] [DecidableEq α]

/-! ## The lists and their calls -/

/-- The heap, the list headers, and an iterator for each list. -/
structure Lists (ι α : Type) where
  mem : ListMem α
  lists : ι → AdList α
  iters : ι → ListIter

inductive ListCall (ι α : Type)
  | addHead (i : ι) (value : α)
  | addTail (i : ι) (value : α)
  | insert (i : ι) (node : ℕ) (value : α) (after : Bool)
  | del (i : ι) (node : ℕ)
  | empty (i : ι)
  | rotate (i : ι)
  | join (i j : ι)
  /-- `listDup` of `i`; what it returns becomes the list `j`, unless it is `NULL`. -/
  | dup (i j : ι)
  | search (i : ι) (key : α)
  | index (i : ι) (index : ℤ)
  /-- `listNodeValue` of a node of `i`. -/
  | value (i : ι) (node : ℕ)
  | rewind (i : ι)
  | rewindTail (i : ι)
  | next (i : ι)
  | length (i : ι)

inductive ListReply (α : Type)
  | done
  | node (p : Option ℕ)
  | value (v : Option α)
  | flag (b : Bool)
  | count (n : ℕ)
deriving DecidableEq

/-- After a call on the list `i`. -/
def Lists.put (s : Lists ι α) (i : ι) (r : ListMem α × AdList α) : Lists ι α :=
  { s with mem := r.1, lists := update s.lists i r.2 }

def listStep (s : Lists ι α) : ListCall ι α → Except ListFault (Lists ι α × ListReply α)
  | .addHead i value => do pure (s.put i (← listAddNodeHead s.mem (s.lists i) value), .done)
  | .addTail i value => do pure (s.put i (← listAddNodeTail s.mem (s.lists i) value), .done)
  | .insert i node value after => do
    pure (s.put i (← listInsertNode s.mem (s.lists i) (some node) value after), .done)
  | .del i node => do pure (s.put i (← listDelNode s.mem (s.lists i) (some node)), .done)
  | .empty i => do pure (s.put i (← listEmpty s.mem (s.lists i)), .done)
  | .rotate i => do pure (s.put i (← listRotate s.mem (s.lists i)), .done)
  | .join i j => do
    let (m, l, o) ← listJoin s.mem (s.lists i) (s.lists j)
    pure ((s.put i (m, l)).put j (m, o), .done)
  | .dup i j => do
    let (m, copy) ← listDup s.mem (s.lists i)
    match copy with
    | none => pure ({ s with mem := m }, .flag false)
    | some copy => pure (s.put j (m, copy), .flag true)
  | .search i key => do pure (s, .node (← listSearchKey s.mem (s.lists i) key))
  | .index i index => do pure (s, .node (← listIndex s.mem (s.lists i) index))
  | .value _ node => do pure (s, .value (some (← listDeref s.mem (some node)).value))
  | .rewind i => pure ({ s with iters := update s.iters i (listRewind (s.lists i)) }, .done)
  | .rewindTail i => pure ({ s with iters := update s.iters i (listRewindTail (s.lists i)) }, .done)
  | .next i => do
    let (iter, p) ← listNext s.mem (s.iters i)
    pure ({ s with iters := update s.iters i iter }, .node p)
  | .length i => pure (s, .count (s.lists i).len)

/-! ## Sequences of nodes -/

/-- What the lists are to their owner. -/
structure NodeLists (ι α : Type) where
  nodes : ι → Nodes α
  methods : ι → ListMethods α
  iters : ι → ListIter
  fresh : ℕ
  freed : List α

/-- The list `i` gets these methods and the nodes `l`, after `n` allocations and calls of `free` on
`vs`. -/
def NodeLists.edit (a : NodeLists ι α) (i : ι) (methods : ListMethods α) (l : Nodes α) (n : ℕ)
    (vs : List α) : NodeLists ι α where
  nodes := update a.nodes i l
  methods := update a.methods i methods
  iters := a.iters
  fresh := a.fresh + n
  freed := a.freed ++ vs

/-- A node goes beside the one with this address. -/
def insertBeside (node : ℕ) (new : ℕ × α) (after : Bool) : Nodes α → Nodes α
  | [] => []
  | x :: l =>
    if x.1 = node then (if after then x :: new :: l else new :: x :: l)
    else x :: insertBeside node new after l

/-- The iterator behind the node it is at. -/
def nextIter (l : Nodes α) (iter : ListIter) : ListIter :=
  match iter.next with
  | none => iter
  | some node =>
    { iter with next := first ((iter.direction.order l).dropWhile fun x => x.1 ≠ node).tail none }

def listMachine (a : NodeLists ι α) : ListCall ι α → NodeLists ι α × ListReply α
  | .addHead i value => (a.edit i (a.methods i) ((a.fresh, value) :: a.nodes i) 1 [], .done)
  | .addTail i value => (a.edit i (a.methods i) (a.nodes i ++ [(a.fresh, value)]) 1 [], .done)
  | .insert i node value after =>
    (a.edit i (a.methods i) (insertBeside node (a.fresh, value) after (a.nodes i)) 1 [], .done)
  | .del i node =>
    (a.edit i (a.methods i) ((a.nodes i).filter fun x => x.1 ≠ node) 0
      ((a.methods i).frees (((a.nodes i).filter fun x => x.1 = node).map Prod.snd)), .done)
  | .empty i => (a.edit i (a.methods i) [] 0 ((a.methods i).frees ((a.nodes i).map Prod.snd)), .done)
  | .rotate i => (a.edit i (a.methods i) (rotateNodes (a.nodes i)) 0 [], .done)
  | .join i j =>
    ({ a with nodes := update (update a.nodes i (a.nodes i ++ a.nodes j)) j [] }, .done)
  | .dup i j =>
    match copies (a.methods i) ((a.nodes i).map Prod.snd) with
    | (vs, true) => (a.edit j (a.methods i) (numbered a.fresh vs) vs.length [], .flag true)
    | (vs, false) =>
      (a.edit j (a.methods j) [] vs.length ((a.methods i).frees vs), .flag false)
  | .search i key => (a, .node (findNode (a.methods i) (a.nodes i) key))
  | .index i index => (a, .node (nodeAt (a.nodes i) index))
  | .value i node => (a, .value (((a.nodes i).find? fun x => x.1 = node).map Prod.snd))
  | .rewind i =>
    ({ a with iters := update a.iters i ⟨first (a.nodes i) none, .startHead⟩ }, .done)
  | .rewindTail i =>
    ({ a with iters := update a.iters i ⟨last (a.nodes i) none, .startTail⟩ }, .done)
  | .next i => ({ a with iters := update a.iters i (nextIter (a.nodes i) (a.iters i)) },
      .node (a.iters i).next)
  | .length i => (a, .count (a.nodes i).length)

/-- What the functions ask of their callers: a node of the list it is said to be of, two different
lists to join, a place without nodes for a copy, an index that a `long` holds and that can be negated in
one, and an iterator whose node has not been removed. -/
def ListAllowed (a : NodeLists ι α) : ListCall ι α → Prop
  | .insert i node _ _ | .del i node | .value i node => node ∈ addrs (a.nodes i)
  | .join i j => i ≠ j
  | .dup _ j => a.nodes j = []
  | .index _ index => LONG_MIN < index ∧ index ≤ LONG_MAX
  | .next i => ∀ node, (a.iters i).next = some node → node ∈ addrs (a.nodes i)
  | _ => True

/-! ## The heap holds the lists -/

omit [DecidableEq α] in
/-- A node of a list, between what is in front of it and what is behind it. -/
theorem exists_split {l : Nodes α} {node : ℕ} (hl : (addrs l).Nodup) (hnode : node ∈ addrs l) :
    ∃ l1 v l2, l = l1 ++ (node, v) :: l2 ∧ node ∉ addrs l1 ∧ node ∉ addrs l2 := by
  obtain ⟨⟨node, v⟩, hx, rfl⟩ := mem_map.1 hnode
  obtain ⟨l1, l2, rfl⟩ := append_of_mem hx
  rw [addrs, map_append, map_cons, nodup_append, nodup_cons] at hl
  exact ⟨l1, v, l2, rfl, fun h1 => hl.2.2 _ h1 _ (mem_cons_self ..) rfl, hl.2.1.1⟩

structure Stores (s : Lists ι α) (a : NodeLists ι α) : Prop where
  holds : ∀ i, (s.lists i).Holds s.mem.cells (a.nodes i)
  methods : ∀ i, (s.lists i).toListMethods = a.methods i
  iters : s.iters = a.iters
  fresh : s.mem.fresh = a.fresh
  freed : s.mem.freed = a.freed
  below : ∀ i, ∀ x ∈ addrs (a.nodes i), x < s.mem.fresh
  apart : ∀ i j, i ≠ j → ∀ x ∈ addrs (a.nodes i), x ∉ addrs (a.nodes j)
  noLeak : ∀ x, (∀ i, x ∉ addrs (a.nodes i)) → s.mem.cells x = none

namespace Stores

variable {s : Lists ι α} {a : NodeLists ι α} {i j : ι} {node : ℕ}

omit [DecidableEq ι] [DecidableEq α] in
theorem owned (h : Stores s a) (i : ι) : (s.lists i).Owned s.mem (a.nodes i) where
  toHolds := h.holds i
  below := h.below i
  unused x hx := h.noLeak x fun j hj => Nat.not_le.2 (h.below j x hj) hx

omit [DecidableEq α] in
/-- An edit of one list leaves the others. -/
theorem edit (h : Stores s a) {list list' : AdList α} {m' : ListMem α} {l' : Nodes α} {n : ℕ}
    {vs : List α} (he : Edited s.mem list (a.nodes i) m' list' l' n vs) :
    Stores (s.put i (m', list')) (a.edit i list.toListMethods l' n vs) := by
  -- a node of another list was there before, and is in neither sequence
  have hother : ∀ k, k ≠ i → ∀ x ∈ addrs (a.nodes k), x ∉ addrs (a.nodes i) ∧ x ∉ addrs l' := by
    intro k hk x hx
    refine ⟨h.apart k i hk x hx, fun hx' => ?_⟩
    rcases he.made x hx' with hxi | ⟨hle, -⟩
    · exact h.apart k i hk x hx hxi
    · exact Nat.not_le.2 (h.below k x hx) hle
  refine ⟨fun k => ?_, fun k => ?_, h.iters, ?_, ?_, fun k => ?_, fun k k' hkk => ?_, fun x hx => ?_⟩
  · change (update s.lists i list' k).Holds m'.cells (update a.nodes i l' k)
    by_cases hk : k = i
    · subst hk
      rw [update_self, update_self]
      exact he.holds
    · rw [update_of_ne hk, update_of_ne hk]
      obtain ⟨hhead, htail, hlen, hseg, hnodup⟩ := h.holds k
      refine ⟨hhead, htail, hlen, hseg.congr fun x hx => ?_, hnodup⟩
      exact he.frame x (h.below k x hx) (hother k hk x hx).1
  · change (update s.lists i list' k).toListMethods = update a.methods i list.toListMethods k
    by_cases hk : k = i
    · subst hk
      rw [update_self, update_self]
      exact he.methods
    · rw [update_of_ne hk, update_of_ne hk]
      exact h.methods k
  · exact he.fresh.trans (congrArg (· + n) h.fresh)
  · exact he.freed.trans (congrArg (· ++ vs) h.freed)
  · change ∀ x ∈ addrs (update a.nodes i l' k), x < m'.fresh
    intro x hx
    by_cases hk : k = i
    · subst hk
      rw [update_self] at hx
      exact he.below (h.below k) x hx
    · rw [update_of_ne hk] at hx
      exact he.fresh ▸ Nat.lt_add_right n (h.below k x hx)
  · change ∀ x ∈ addrs (update a.nodes i l' k), x ∉ addrs (update a.nodes i l' k')
    intro x hx
    by_cases hk : k = i
    · subst hk
      rw [update_self] at hx
      rw [update_of_ne hkk.symm]
      exact fun hx' => (hother k' hkk.symm x hx').2 hx
    · rw [update_of_ne hk] at hx
      by_cases hk' : k' = i
      · subst hk'
        rw [update_self]
        exact (hother k hk x hx).2
      · rw [update_of_ne hk']
        exact h.apart k k' hkk x hx
  · change m'.cells x = none
    change ∀ k, x ∉ addrs (update a.nodes i l' k) at hx
    have hxi := hx i
    rw [update_self] at hxi
    have hxk : ∀ k, k ≠ i → x ∉ addrs (a.nodes k) := fun k hk => by
      rw [← update_of_ne hk l' a.nodes]
      exact hx k
    by_cases hold : x ∈ addrs (a.nodes i) ∨ s.mem.fresh ≤ x
    · exact he.gone x hxi hold
    · rw [not_or, Nat.not_le] at hold
      rw [he.frame x hold.2 hold.1]
      refine h.noLeak x fun k => ?_
      by_cases hk : k = i
      · exact hk ▸ hold.1
      · exact hxk k hk

omit [DecidableEq α] in
theorem edit_self (h : Stores s a) {list' : AdList α} {m' : ListMem α} {l' : Nodes α} {n : ℕ}
    {vs : List α} (he : Edited s.mem (s.lists i) (a.nodes i) m' list' l' n vs) :
    Stores (s.put i (m', list')) (a.edit i (a.methods i) l' n vs) :=
  h.methods i ▸ h.edit he

/-- One call does to the heap what it does to the sequences of nodes. -/
def Simulates (s : Lists ι α) (a : NodeLists ι α) (c : ListCall ι α) : Prop :=
  ∃ s', listStep s c = .ok (s', (listMachine a c).2) ∧ Stores s' (listMachine a c).1

theorem step_addHead (h : Stores s a) (i : ι) (value : α) : Simulates s a (.addHead i value) := by
  obtain ⟨m', list', hadd, hedited⟩ := (h.owned i).listAddNodeHead value
  rw [h.fresh] at hedited
  refine ⟨s.put i (m', list'), ?_, h.edit_self hedited⟩
  rw [listStep, hadd]
  rfl

theorem step_addTail (h : Stores s a) (i : ι) (value : α) : Simulates s a (.addTail i value) := by
  obtain ⟨m', list', hadd, hedited⟩ := (h.owned i).listAddNodeTail value
  rw [h.fresh] at hedited
  refine ⟨s.put i (m', list'), ?_, h.edit_self hedited⟩
  rw [listStep, hadd]
  rfl

omit [DecidableEq α] in
theorem insertBeside_append {l1 l2 : Nodes α} {v : α} {new : ℕ × α} (h1 : node ∉ addrs l1)
    (after : Bool) :
    insertBeside node new after (l1 ++ (node, v) :: l2)
      = if after then l1 ++ (node, v) :: new :: l2 else l1 ++ new :: (node, v) :: l2 := by
  induction l1 with
  | nil => exact if_pos rfl
  | cons x l1 ih =>
    rw [addrs, map_cons, mem_cons, not_or] at h1
    rw [cons_append, insertBeside, if_neg (Ne.symm h1.1), ih h1.2]
    split_ifs
    · rfl
    · rfl

theorem step_insert (h : Stores s a) (hnode : node ∈ addrs (a.nodes i)) (value : α) (after : Bool) :
    Simulates s a (.insert i node value after) := by
  obtain ⟨l1, v, l2, hl, h1, -⟩ := exists_split (h.holds i).nodup hnode
  have howned := h.owned i
  rw [hl] at howned
  obtain ⟨m', list', hins, hedited⟩ : ∃ m' list',
      listInsertNode s.mem (s.lists i) (some node) value after = .ok (m', list') ∧
        Edited s.mem (s.lists i) (a.nodes i) m' list'
          (insertBeside node (a.fresh, value) after (a.nodes i)) 1 [] := by
    rw [hl, insertBeside_append h1, ← h.fresh]
    cases after with
    | true => exact howned.listInsertNode_after value
    | false => exact howned.listInsertNode_before value
  refine ⟨s.put i (m', list'), ?_, h.edit_self hedited⟩
  rw [listStep, hins]
  rfl

omit [DecidableEq α] in
theorem filter_split {l1 l2 : Nodes α} {v : α} (h1 : node ∉ addrs l1) (h2 : node ∉ addrs l2) :
    (l1 ++ (node, v) :: l2).filter (fun x => x.1 ≠ node) = l1 ++ l2 ∧
      (l1 ++ (node, v) :: l2).filter (fun x => x.1 = node) = [(node, v)] := by
  have hne : ∀ {l : Nodes α}, node ∉ addrs l → ∀ x ∈ l, x.1 ≠ node :=
    fun hl x hx => ne_of_mem_of_not_mem (mem_map_of_mem hx) hl
  have h1 := hne h1
  have h2 := hne h2
  constructor
  · rw [filter_append, filter_cons_of_neg (by simp), filter_eq_self.2 (by simpa using h1),
      filter_eq_self.2 (by simpa using h2)]
  · rw [filter_append, filter_cons_of_pos (by simp), filter_eq_nil_iff.2 (by simpa using h1),
      filter_eq_nil_iff.2 (by simpa using h2)]
    rfl

theorem step_del (h : Stores s a) (hnode : node ∈ addrs (a.nodes i)) : Simulates s a (.del i node) := by
  obtain ⟨l1, v, l2, hl, h1, h2⟩ := exists_split (h.holds i).nodup hnode
  have howned := h.owned i
  rw [hl] at howned
  obtain ⟨m', list', hdel, hedited⟩ := howned.listDelNode
  obtain ⟨hkept, hgone⟩ := filter_split (v := v) h1 h2
  rw [← hkept, ← hl, h.methods i] at hedited
  refine ⟨s.put i (m', list'), ?_, ?_⟩
  · rw [listStep, hdel]
    rfl
  · rw [listMachine, hl, hgone, ← hl]
    exact h.edit_self hedited

theorem step_empty (h : Stores s a) (i : ι) : Simulates s a (.empty i) := by
  obtain ⟨m', list', hempty, hedited⟩ := (h.owned i).listEmpty
  rw [h.methods i] at hedited
  refine ⟨s.put i (m', list'), ?_, h.edit_self hedited⟩
  rw [listStep, hempty]
  rfl

theorem step_rotate (h : Stores s a) (i : ι) : Simulates s a (.rotate i) := by
  obtain ⟨m', list', hrot, hedited⟩ := (h.owned i).listRotate
  refine ⟨s.put i (m', list'), ?_, h.edit_self hedited⟩
  rw [listStep, hrot]
  rfl

theorem step_join (h : Stores s a) (hij : i ≠ j) : Simulates s a (.join i j) := by
  have hnodup : (addrs (a.nodes i ++ a.nodes j)).Nodup := by
    rw [addrs, map_append, nodup_append]
    refine ⟨(h.holds i).nodup, (h.holds j).nodup, fun x hx y hy hxy => ?_⟩
    exact h.apart i j hij x hx (hxy ▸ hy)
  obtain ⟨cells', list', hjoin, hholds, hmethods, hframe⟩ := listJoin_ok (h.owned i) (h.owned j) hnodup
  refine ⟨⟨⟨cells', s.mem.fresh, s.mem.freed⟩, update (update s.lists i list') j
    (listCreate (s.lists j).toListMethods), s.iters⟩, by rw [listStep, hjoin]; rfl, ?_⟩
  -- where a node is now, it was before, unless it has come from `j` to `i`
  have hfrom : ∀ k x, x ∈ addrs (update (update a.nodes i (a.nodes i ++ a.nodes j)) j [] k) →
      k ≠ j ∧ (x ∈ addrs (a.nodes k) ∨ k = i ∧ x ∈ addrs (a.nodes j)) := by
    intro k x hx
    by_cases hkj : k = j
    · subst hkj
      rw [update_self] at hx
      exact absurd hx not_mem_nil
    · rw [update_of_ne hkj] at hx
      refine ⟨hkj, ?_⟩
      by_cases hki : k = i
      · subst hki
        rw [update_self, addrs, map_append, mem_append] at hx
        exact hx.imp_right fun hx => ⟨rfl, hx⟩
      · rw [update_of_ne hki] at hx
        exact .inl hx
  refine ⟨fun k => ?_, fun k => ?_, h.iters, h.fresh, h.freed, fun k x hx => ?_, fun k k' hkk x hx hx' => ?_,
    fun x hx => ?_⟩
  · change (update (update s.lists i list') j (listCreate (s.lists j).toListMethods) k).Holds cells'
      (update (update a.nodes i (a.nodes i ++ a.nodes j)) j [] k)
    by_cases hkj : k = j
    · subst hkj
      rw [update_self, update_self]
      exact ⟨rfl, rfl, rfl, trivial, nodup_nil⟩
    · rw [update_of_ne hkj, update_of_ne hkj]
      by_cases hki : k = i
      · subst hki
        rw [update_self, update_self]
        exact hholds
      · rw [update_of_ne hki, update_of_ne hki]
        obtain ⟨hhead, htail, hlen, hseg, hnodup⟩ := h.holds k
        refine ⟨hhead, htail, hlen, hseg.congr fun x hx => hframe x fun hx' => ?_, hnodup⟩
        rw [addrs, map_append, mem_append] at hx'
        exact hx'.elim (h.apart k i hki x hx) (h.apart k j hkj x hx)
  · change (update (update s.lists i list') j (listCreate (s.lists j).toListMethods) k).toListMethods = _
    by_cases hkj : k = j
    · subst hkj
      rw [update_self]
      exact h.methods k
    · rw [update_of_ne hkj]
      by_cases hki : k = i
      · subst hki
        rw [update_self]
        exact hmethods.trans (h.methods k)
      · rw [update_of_ne hki]
        exact h.methods k
  · exact (hfrom k x hx).2.elim (h.below k x) fun hx => h.below j x hx.2
  · obtain ⟨hkj, hk⟩ := hfrom k x hx
    obtain ⟨hkj', hk'⟩ := hfrom k' x hx'
    rcases hk with hk | ⟨rfl, hk⟩
    · rcases hk' with hk' | ⟨rfl, hk'⟩
      · exact h.apart k k' hkk x hk hk'
      · exact h.apart k j hkj x hk hk'
    · rcases hk' with hk' | ⟨rfl, hk'⟩
      · exact h.apart k' j hkj' x hk' hk
      · exact hkk rfl
  · change ∀ k, x ∉ addrs (update (update a.nodes i (a.nodes i ++ a.nodes j)) j [] k) at hx
    have hxij := hx i
    rw [update_of_ne hij, update_self] at hxij
    refine (hframe x hxij).trans (h.noLeak x fun k => ?_)
    rw [addrs, map_append, mem_append, not_or] at hxij
    by_cases hki : k = i
    · exact hki ▸ hxij.1
    by_cases hkj : k = j
    · exact hkj ▸ hxij.2
    have hxk := hx k
    rwa [update_of_ne hkj, update_of_ne hki] at hxk

omit [DecidableEq α] in
/-- A copy that has been given up leaves the list it was meant for as it is. -/
theorem edit_failed (h : Stores s a) {copy copy' : AdList α} {m' : ListMem α} {n : ℕ} {vs : List α}
    (hj : a.nodes j = []) (he : Edited s.mem copy [] m' copy' [] n vs) :
    Stores { s with mem := m' } (a.edit j (a.methods j) [] n vs) := by
  have hholds : (s.lists j).Holds m'.cells [] := by
    have hold := h.holds j
    rw [hj] at hold
    exact ⟨hold.head, hold.tail, hold.len, trivial, nodup_nil⟩
  have he' : Edited s.mem (s.lists j) (a.nodes j) m' (s.lists j) [] n vs := by
    rw [hj]
    exact ⟨hholds, rfl, he.fresh, he.freed, he.frame, he.gone, he.made⟩
  have hstores := h.edit_self he'
  rwa [Lists.put, update_eq_self] at hstores

theorem step_dup (h : Stores s a) (hj : a.nodes j = []) : Simulates s a (.dup i j) := by
  obtain ⟨m', o, hdup, hdups⟩ := (h.owned i).listDup
  rw [h.methods i] at hdups
  rw [Simulates, listStep, hdup, listMachine, ok_bind]
  generalize copies (a.methods i) ((a.nodes i).map Prod.snd) = r at hdups ⊢
  cases hdups with
  | @copied vs _ copy' he =>
    refine ⟨s.put j (m', copy'), rfl, ?_⟩
    rw [nil_append, h.fresh, ← hj] at he
    exact h.edit he
  | @failed vs _ copy' he =>
    exact ⟨{ s with mem := m' }, rfl, h.edit_failed hj he⟩

theorem step_search (h : Stores s a) (i : ι) (key : α) : Simulates s a (.search i key) := by
  refine ⟨s, ?_, h⟩
  rw [listStep, (h.holds i).listSearchKey, h.methods i]
  rfl

theorem step_index (h : Stores s a) (i : ι) (index : ℤ) : Simulates s a (.index i index) := by
  refine ⟨s, ?_, h⟩
  rw [listStep, (h.holds i).listIndex]
  rfl

theorem step_value (h : Stores s a) (hnode : node ∈ addrs (a.nodes i)) :
    Simulates s a (.value i node) := by
  obtain ⟨l1, v, l2, hl, h1, -⟩ := exists_split (h.holds i).nodup hnode
  have hseg := (h.holds i).seg
  rw [hl] at hseg
  have hfind : (a.nodes i).find? (fun x => x.1 = node) = some (node, v) := by
    have hskip : ∀ x ∈ l1, ¬ (x.1 = node) := fun x hx => ne_of_mem_of_not_mem (mem_map_of_mem hx) h1
    rw [hl, find?_append, find?_eq_none.2 (by simpa using hskip), find?_cons_of_pos (by simp)]
    rfl
  refine ⟨s, ?_, h⟩
  rw [listStep, listDeref_ok hseg.get, listMachine, hfind]
  rfl

omit [DecidableEq α] in
/-- Only an iterator changes. -/
theorem set_iter (h : Stores s a) (i : ι) (iter : ListIter) :
    Stores { s with iters := update s.iters i iter } { a with iters := update a.iters i iter } :=
  ⟨h.holds, h.methods, congrArg (update · i iter) h.iters, h.fresh, h.freed, h.below, h.apart, h.noLeak⟩

theorem step_next (h : Stores s a)
    (hnode : ∀ node, (a.iters i).next = some node → node ∈ addrs (a.nodes i)) :
    Simulates s a (.next i) := by
  have hnext : listNext s.mem (a.iters i) = .ok (nextIter (a.nodes i) (a.iters i), (a.iters i).next) := by
    rcases hiter : a.iters i with ⟨_ | node, direction⟩
    · rfl
    · have hchain := (h.holds i).chain direction
      obtain ⟨hnodup, hmem⟩ : (addrs (direction.order (a.nodes i))).Nodup ∧
          node ∈ addrs (direction.order (a.nodes i)) := by
        have hnodup := (h.holds i).nodup
        have hmem := hnode node (congrArg ListIter.next hiter)
        cases direction with
        | startHead => exact ⟨hnodup, hmem⟩
        | startTail =>
          rw [ListDirection.order, addrs, map_reverse]
          exact ⟨(reverse_perm _).nodup_iff.2 hnodup, mem_reverse.2 hmem⟩
      obtain ⟨o1, v, o2, ho, h1, -⟩ := exists_split hnodup hmem
      -- what the iterator has left starts with its node
      have hleft : (direction.order (a.nodes i)).dropWhile (fun x => x.1 ≠ node) = (node, v) :: o2 := by
        have hskip : ∀ x ∈ o1, decide (x.1 ≠ node) = true := fun x hx =>
          decide_eq_true (ne_of_mem_of_not_mem (mem_map_of_mem hx) h1)
        rw [ho, dropWhile_append_of_pos hskip, dropWhile_cons_of_neg (by simp)]
      rw [ho] at hchain
      rw [nextIter]
      dsimp only
      rw [hleft]
      exact listNext_ok _ hchain.drop
  refine ⟨_, ?_, h.set_iter i (nextIter (a.nodes i) (a.iters i))⟩
  rw [listStep, h.iters, hnext]
  rfl

theorem step (h : Stores s a) {c : ListCall ι α} (hc : ListAllowed a c) : Simulates s a c := by
  cases c with
  | addHead i value => exact h.step_addHead i value
  | addTail i value => exact h.step_addTail i value
  | insert i node value after => exact h.step_insert hc value after
  | del i node => exact h.step_del hc
  | empty i => exact h.step_empty i
  | rotate i => exact h.step_rotate i
  | join i j => exact h.step_join hc
  | dup i j => exact h.step_dup hc
  | search i key => exact h.step_search i key
  | index i index => exact h.step_index i index
  | value i node => exact h.step_value hc
  | rewind i =>
    refine ⟨_, rfl, ?_⟩
    rw [listRewind, (h.holds i).head]
    exact h.set_iter i _
  | rewindTail i =>
    refine ⟨_, rfl, ?_⟩
    rw [listRewindTail, (h.holds i).tail]
    exact h.set_iter i _
  | next i => exact h.step_next hc
  | length i =>
    refine ⟨s, ?_, h⟩
    rw [listStep, listMachine, (h.holds i).len]
    rfl

end Stores

/-! ## Whole runs -/

/-- Lists that have been created and given methods, on an empty heap. -/
def newLists (methods : ι → ListMethods α) : Lists ι α where
  mem := ⟨fun _ => none, 0, []⟩
  lists i := listCreate (methods i)
  iters _ := ⟨none, .startHead⟩

def noNodes (methods : ι → ListMethods α) : NodeLists ι α where
  nodes _ := []
  methods := methods
  iters _ := ⟨none, .startHead⟩
  fresh := 0
  freed := []

omit [DecidableEq ι] [DecidableEq α] in
theorem Stores.new (methods : ι → ListMethods α) : Stores (newLists methods) (noNodes methods) where
  holds _ := ⟨rfl, rfl, rfl, trivial, nodup_nil⟩
  methods _ := rfl
  iters := rfl
  fresh := rfl
  freed := rfl
  below _ _ hx := absurd hx not_mem_nil
  apart _ _ _ _ hx := absurd hx not_mem_nil
  noLeak _ _ := rfl

/-- Over any run of allowed calls on any lists, no pointer is followed that is `NULL` or whose node has
been freed; every reply is right, the `free` methods have been called on the right values in the right
order, and in the end the heap holds the nodes of the lists, each in one list, and no others. -/
theorem listStep_refines (methods : ι → ListMethods α) (calls : List (ListCall ι α))
    (h : Admissible listMachine ListAllowed (noNodes methods) calls) :
    ∃ s, run listStep (newLists methods) calls = .ok (s, (arun listMachine (noNodes methods) calls).2) ∧
      Stores s (arun listMachine (noNodes methods) calls).1 :=
  simulation_run Stores (fun _ _ c hs hc => hs.step (c := c) hc) h (.new methods)

/-- Two lists of numbers: nodes are added on all sides, a copy is made, a node is removed under an
iterator, and the lists are joined. -/
theorem listStep_refines_joined :
    ∃ s, run listStep (newLists fun _ : Bool => ⟨some some, true, none⟩)
        [.addTail true 10, .addHead true 20, .insert true 0 30 false, .dup true false, .rotate false,
          .rewind true, .next true, .del true 1, .next true, .value true 2, .search false 30,
          .join true false, .index true (-1), .length true]
      = .ok (s, [.done, .done, .done, .flag true, .done, .done, .node (some 1), .done, .node (some 2),
        .value (some 30), .node (some 4), .done, .node (some 4), .count 5]) := by
  obtain ⟨s, hrun, -⟩ := listStep_refines (fun _ : Bool => (⟨some some, true, none⟩ : ListMethods ℕ))
    [.addTail true 10, .addHead true 20, .insert true 0 30 false, .dup true false, .rotate false,
      .rewind true, .next true, .del true 1, .next true, .value true 2, .search false 30,
      .join true false, .index true (-1), .length true]
    ⟨trivial, trivial, mem_cons_of_mem _ (mem_cons_self ..), rfl, trivial, trivial,
      fun _ hx => Option.some.inj hx ▸ mem_cons_self .., mem_cons_self ..,
      fun _ hx => Option.some.inj hx ▸ mem_cons_self .., mem_cons_self .., trivial,
      (by decide : true ≠ false), (by decide : LONG_MIN < -1 ∧ -1 ≤ LONG_MAX), trivial, trivial⟩
  exact ⟨s, hrun⟩

end RedisCounter
