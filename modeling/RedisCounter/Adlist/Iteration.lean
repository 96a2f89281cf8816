import RedisCounter.Adlist.Specs

/-!
# A loop that removes nodes from the list it walks over

The comment on `listNext` shows how an iterator is used and says that the node it has just returned may
be removed. `listForeach` is that loop, with a body that removes the nodes some test asks for: in either
direction it meets every node once, in order, and leaves the nodes it was not asked to remove.
-/

namespace RedisCounter

open List DoublyLinked Run

variable {α : Type}

/-- `while ((node = listNext(iter)) != NULL) if (del(node)) listDelNode(list,node);` for at most so many
turns, and the nodes it has met. -/
def listForeach (del : ℕ × α → Bool) :
    ℕ → ListMem α → AdList α → ListIter → Except ListFault (ListMem α × AdList α × Nodes α)
  | 0, _, _, _ => throw .turns
  | n + 1, m, list, iter => do
    let (iter, p) ← listNext m iter
    match p with
    | none => pure (m, list, [])
    | some a =>
      let node ← listDeref m p
      let (m, list) ← if del (a, node.value) then listDelNode m list p else pure (m, list)
      let (m, list, met) ← listForeach del n m list iter
      pure (m, list, (a, node.value) :: met)

/-- `listGetIterator`, `listRewind` and `listRewindTail`. -/
def listGetIterator (list : AdList α) (direction : ListDirection) : ListIter :=
  match direction with
  | .startHead => listRewind list
  | .startTail => listRewindTail list

variable {m : ListMem α} {list : AdList α} {l : Nodes α} {direction : ListDirection}

theorem order_order (direction : ListDirection) (l : Nodes α) :
    direction.order (direction.order l) = l := by
  cases direction with
  | startHead => rfl
  | startTail => exact reverse_reverse l

/-- In either direction, a node that is met lies between two parts of the list. -/
theorem order_split (direction : ListDirection) (o1 o2 : Nodes α) (x : ℕ × α) :
    ∃ l1 l2, direction.order (o1 ++ x :: o2) = l1 ++ x :: l2 ∧ direction.order (o1 ++ o2) = l1 ++ l2 := by
  cases direction with
  | startHead => exact ⟨o1, o2, rfl, rfl⟩
  | startTail =>
    refine ⟨o2.reverse, o1.reverse, ?_, reverse_append ..⟩
    rw [ListDirection.order, reverse_append, reverse_cons, append_assoc, singleton_append]

/-- With `kept` behind it and `rest` before it, the loop meets `rest` and keeps what it is not asked to
remove. -/
theorem listForeach_ok (del : ℕ × α → Bool) {kept rest : Nodes α}
    (h : list.Owned m (direction.order (kept ++ rest))) {n : ℕ} (hn : rest.length < n) :
    ∃ m' list', listForeach del n m list ⟨first rest none, direction⟩ = .ok (m', list', rest) ∧
      Edited m list (direction.order (kept ++ rest)) m' list'
        (direction.order (kept ++ rest.filter fun x => !del x)) 0
        (list.frees ((rest.filter del).map Prod.snd)) := by
  obtain ⟨n, rfl⟩ := Nat.exists_eq_succ_of_ne_zero (Nat.ne_of_gt (Nat.lt_of_le_of_lt (Nat.zero_le _) hn))
  induction rest generalizing m list kept n with
  | nil =>
    refine ⟨m, list, rfl, ?_⟩
    rw [filter_nil, filter_nil, map_nil, ListMethods.frees, ite_self]
    exact .refl h
  | cons x rest ih =>
    obtain ⟨n, rfl⟩ := Nat.exists_eq_succ_of_ne_zero
      (Nat.ne_of_gt (Nat.lt_of_le_of_lt (Nat.zero_le _) (Nat.lt_of_succ_lt_succ hn)))
    have hchain := h.chain direction
    rw [order_order] at hchain
    have hnext : listNext m ⟨some x.1, direction⟩ = .ok (⟨first rest none, direction⟩, some x.1) :=
      listNext_ok _ hchain.drop
    obtain ⟨⟨node, hnode, hvalue, -⟩, -⟩ := hchain.drop
    rw [first, listForeach, hnext, ok_bind]
    dsimp only
    rw [listDeref_ok hnode, ok_bind, hvalue]
    by_cases hdel : del x
    · obtain ⟨l1, l2, hsplit, hrest⟩ := order_split direction kept rest x
      rw [hsplit] at h ⊢
      obtain ⟨m1, list1, hdelnode, hedited⟩ := h.listDelNode
      rw [← hrest] at hedited
      have howned := hedited.owned h
      obtain ⟨m', list', hloop, hedited'⟩ := ih howned n (Nat.lt_of_succ_lt_succ hn)
      refine ⟨m', list', ?_, ?_⟩
      · rw [if_pos hdel, hdelnode, ok_bind, hloop, ok_bind]
        rfl
      · have htrans := hedited.trans hedited'
        rw [hedited.methods, frees_cons] at htrans
        rw [filter_cons_of_neg (by simp [hdel]), filter_cons_of_pos hdel]
        exact htrans
    · have hkept : kept ++ x :: rest = (kept ++ [x]) ++ rest := append_cons ..
      rw [hkept] at h ⊢
      obtain ⟨m', list', hloop, hedited⟩ := ih h n (Nat.lt_of_succ_lt_succ hn)
      refine ⟨m', list', ?_, ?_⟩
      · rw [if_neg hdel]
        change (listForeach del (n + 1) m list ⟨first rest none, direction⟩ >>= _) = _
        rw [hloop, ok_bind]
        rfl
      · rw [filter_cons_of_pos (by simp [hdel]), filter_cons_of_neg hdel, append_cons kept x (filter _ _)]
        exact hedited

/-- In either direction, a loop that removes some of the nodes it is given meets every node of the list
once and in order, never follows a freed pointer, and leaves the other nodes in their order. -/
theorem listForeach_spec (h : list.Owned m l) (direction : ListDirection) (del : ℕ × α → Bool) :
    ∃ m' list', listForeach del (list.len + 1) m list (listGetIterator list direction)
        = .ok (m', list', direction.order l) ∧
      Edited m list l m' list' (l.filter fun x => !del x) 0
        (list.frees (((direction.order l).filter del).map Prod.snd)) := by
  have hiter : listGetIterator list direction = ⟨first (direction.order l) none, direction⟩ := by
    cases direction with
    | startHead => rw [listGetIterator, listRewind, h.head]; rfl
    | startTail => rw [listGetIterator, listRewindTail, h.tail, ← first_reverse]; rfl
  have hlen : (direction.order l).length < list.len + 1 := by
    rw [h.len]
    cases direction with
    | startHead => exact Nat.lt_succ_self _
    | startTail => exact Nat.lt_succ_of_le (Nat.le_of_eq length_reverse)
  have hfilter : direction.order ((direction.order l).filter fun x => !del x)
      = l.filter fun x => !del x := by
    cases direction with
    | startHead => rfl
    | startTail => rw [ListDirection.order, ListDirection.order, filter_reverse, reverse_reverse]
  have howned : list.Owned m (direction.order ([] ++ direction.order l)) := by
    rwa [nil_append, order_order]
  obtain ⟨m', list', hloop, hedited⟩ := listForeach_ok del howned hlen
  rw [nil_append, nil_append, order_order, hfilter] at hedited
  exact ⟨m', list', hiter ▸ hloop, hedited⟩

/-- Three nodes, the outer two of which are removed from the tail on. -/
theorem listForeach_spec_three :
    ∃ (m m' : ListMem ℕ) (list list' : AdList ℕ), list.Owned m [(0, 10), (1, 20), (2, 30)] ∧
      listForeach (fun x => x.2 ≠ 20) (list.len + 1) m list (listGetIterator list .startTail)
        = .ok (m', list', [(2, 30), (1, 20), (0, 10)]) ∧
      list'.Holds m'.cells [(1, 20)] ∧ m'.freed = [30, 10] := by
  have h0 : (listCreate ⟨none, true, none⟩ : AdList ℕ).Owned ⟨fun _ => none, 0, []⟩ [] :=
    ⟨⟨rfl, rfl, rfl, trivial, nodup_nil⟩, fun _ ha => absurd ha not_mem_nil, fun _ _ => rfl⟩
  obtain ⟨m1, list1, -, he1⟩ := h0.listAddNodeTail 10
  have h1 := he1.owned h0
  obtain ⟨m2, list2, -, he2⟩ := h1.listAddNodeTail 20
  have h2 := he2.owned h1
  obtain ⟨m3, list3, -, he3⟩ := h2.listAddNodeTail 30
  have h3 := he3.owned h2
  have hedited := (he1.trans he2).trans he3
  rw [he2.fresh, he1.fresh] at h3 hedited
  obtain ⟨m', list', hloop, hedited'⟩ := listForeach_spec h3 .startTail fun x => x.2 ≠ 20
  refine ⟨m3, m', list3, list', h3, hloop, hedited'.holds, ?_⟩
  rw [hedited'.freed, hedited.freed, hedited.methods]
  rfl

end RedisCounter
