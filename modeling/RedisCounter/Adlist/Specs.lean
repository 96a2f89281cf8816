import RedisCounter.Adlist.Basic
import RedisCounter.Lib.Run

/-!
# What each list function leaves behind

`AdList.Holds` says that a list header describes the nodes of a list on the heap; `Edited` says what a
function may have done to the heap on the way from one list of nodes to another: the nodes that are no
longer in the list have been freed, the ones that are new were not there before, and no other list's node
has been touched.
-/

namespace RedisCounter

open Function List DoublyLinked Run

variable {α : Type}

/-- The nodes of a list, with their addresses. -/
abbrev Nodes (α : Type) := List (ℕ × α)

structure AdList.Holds (list : AdList α) (cells : Heap ℕ α) (l : Nodes α) : Prop where
  head : list.head = first l none
  tail : list.tail = last l none
  len : list.len = l.length
  seg : Seg cells none l none
  nodup : (addrs l).Nodup

/-- The nodes of the list are there, and nothing is where `zmalloc` has not been yet. -/
structure AdList.Owned (list : AdList α) (m : ListMem α) (l : Nodes α) : Prop
    extends list.Holds m.cells l where
  below : ∀ a ∈ addrs l, a < m.fresh
  unused : ∀ a, m.fresh ≤ a → m.cells a = none

/-- From the nodes `l` to the nodes `l'`, with `n` calls of `zmalloc`, and of `free` on `vs`. -/
structure Edited (m : ListMem α) (list : AdList α) (l : Nodes α) (m' : ListMem α) (list' : AdList α)
    (l' : Nodes α) (n : ℕ) (vs : List α) : Prop where
  holds : list'.Holds m'.cells l'
  methods : list'.toListMethods = list.toListMethods
  fresh : m'.fresh = m.fresh + n
  freed : m'.freed = m.freed ++ vs
  frame : ∀ a, a < m.fresh → a ∉ addrs l → m'.cells a = m.cells a
  gone : ∀ a, a ∉ addrs l' → a ∈ addrs l ∨ m.fresh ≤ a → m'.cells a = none
  made : ∀ a ∈ addrs l', a ∈ addrs l ∨ m.fresh ≤ a ∧ a < m'.fresh

/-! ## Following pointers -/

variable {m : ListMem α} {list : AdList α} {l l1 l2 : Nodes α} {x : ℕ × α} {node : ListNode α} {a : ℕ}

theorem listDeref_ok (h : m.cells a = some node) : listDeref m (some a) = .ok node := by
  rw [listDeref]
  split
  · simp_all
  · simp_all
    rfl

theorem exists_deref (h : Live m.cells (some a)) :
    ∃ node, m.cells a = some node ∧ listDeref m (some a) = .ok node := by
  obtain ⟨node, hnode⟩ := Option.ne_none_iff_exists'.1 (h a rfl)
  exact ⟨node, hnode, listDeref_ok hnode⟩

theorem assignPrev_ok {p : Option ℕ} (hp : p ≠ none) (h : Live m.cells p) (q : Option ℕ) :
    assignPrev m p q = .ok { m with cells := setPrev m.cells p q } := by
  obtain ⟨a, rfl⟩ := Option.ne_none_iff_exists'.1 hp
  obtain ⟨node, -, hderef⟩ := exists_deref h
  rw [assignPrev, hderef]
  rfl

theorem assignNext_ok {p : Option ℕ} (hp : p ≠ none) (h : Live m.cells p) (q : Option ℕ) :
    assignNext m p q = .ok { m with cells := setNext m.cells p q } := by
  obtain ⟨a, rfl⟩ := Option.ne_none_iff_exists'.1 hp
  obtain ⟨node, -, hderef⟩ := exists_deref h
  rw [assignNext, hderef]
  rfl

theorem freeNode_ok (h : Live m.cells (some a)) :
    freeNode m (some a) = .ok { m with cells := update m.cells a none } := by
  obtain ⟨node, -, hderef⟩ := exists_deref h
  rw [freeNode, hderef]
  rfl

theorem relinkPrev_ok {p : Option ℕ} (h : Live m.cells p) (q : Option ℕ) :
    relinkPrev m p q = .ok { m with cells := setPrev m.cells p q } := by
  rw [relinkPrev]
  split_ifs with hp
  · exact assignPrev_ok hp h q
  · rw [not_not.1 hp]
    rfl

theorem relinkNext_ok {p : Option ℕ} (h : Live m.cells p) (q : Option ℕ) :
    relinkNext m p q = .ok { m with cells := setNext m.cells p q } := by
  rw [relinkNext]
  split_ifs with hp
  · exact assignNext_ok hp h q
  · rw [not_not.1 hp]
    rfl

/-! ## Edits -/

variable {m' m'' : ListMem α} {list' list'' : AdList α} {l' l'' : Nodes α} {n n' : ℕ} {vs vs' : List α}

theorem Edited.below (he : Edited m list l m' list' l' n vs) (h : ∀ a ∈ addrs l, a < m.fresh) :
    ∀ a ∈ addrs l', a < m'.fresh := by
  intro a ha
  rcases he.made a ha with hal | ⟨-, hlt⟩
  · exact he.fresh ▸ Nat.lt_add_right n (h a hal)
  · exact hlt

theorem Edited.owned (he : Edited m list l m' list' l' n vs) (h : list.Owned m l) :
    list'.Owned m' l' := by
  have hbelow := he.below h.below
  refine ⟨he.holds, hbelow, fun a ha => he.gone a (fun hal => ?_) (.inr ?_)⟩
  · exact Nat.not_le.2 (hbelow a hal) ha
  · exact Nat.le_trans (Nat.le_add_right _ n) (he.fresh ▸ ha)

theorem Edited.trans (he : Edited m list l m' list' l' n vs)
    (he' : Edited m' list' l' m'' list'' l'' n' vs') :
    Edited m list l m'' list'' l'' (n + n') (vs ++ vs') := by
  have hmono : m.fresh ≤ m'.fresh := he.fresh ▸ Nat.le_add_right _ n
  refine ⟨he'.holds, he'.methods.trans he.methods, by rw [he'.fresh, he.fresh, Nat.add_assoc],
    by rw [he'.freed, he.freed, append_assoc], ?_, ?_, ?_⟩
  · intro a hlt ha
    have ha' : a ∉ addrs l' := fun hal => (he.made a hal).elim ha fun hnew => Nat.not_le.2 hlt hnew.1
    rw [he'.frame a (Nat.lt_of_lt_of_le hlt hmono) ha', he.frame a hlt ha]
  · intro a ha'' ha
    by_cases ha' : a ∈ addrs l' ∨ m'.fresh ≤ a
    · exact he'.gone a ha'' ha'
    · rw [not_or, Nat.not_le] at ha'
      rw [he'.frame a ha'.2 ha'.1, he.gone a ha'.1 ha]
  · intro a ha''
    have hmono' : m'.fresh ≤ m''.fresh := he'.fresh ▸ Nat.le_add_right _ n'
    rcases he'.made a ha'' with ha' | ⟨hle, hlt⟩
    · exact (he.made a ha').imp_right fun hnew => ⟨hnew.1, Nat.lt_of_lt_of_le hnew.2 hmono'⟩
    · exact .inr ⟨Nat.le_trans hmono hle, hlt⟩

theorem Edited.refl (h : list.Owned m l) : Edited m list l m list l 0 [] where
  holds := h.toHolds
  methods := rfl
  fresh := rfl
  freed := (append_nil _).symm
  frame _ _ _ := rfl
  gone a ha' ha := h.unused a (ha.resolve_left ha')
  made _ ha := .inl ha

/-! ## Adding nodes -/

/-- A new node between two parts of a list. -/
theorem edited_insert (l1 l2 : Nodes α) (h : list.Owned m l) (hl : l = l1 ++ l2) (value : α)
    (hcells : m'.cells = setPrev (setNext (update m.cells m.fresh
      (some ⟨last l1 none, first l2 none, value⟩)) (last l1 none) (some m.fresh)) (first l2 none)
        (some m.fresh))
    (hfresh : m'.fresh = m.fresh + 1) (hfreed : m'.freed = m.freed)
    (hmethods : list'.toListMethods = list.toListMethods)
    (hhead : list'.head = first (l1 ++ (m.fresh, value) :: l2) none)
    (htail : list'.tail = last (l1 ++ (m.fresh, value) :: l2) none)
    (hlen : list'.len = list.len + 1) :
    Edited m list l m' list' (l1 ++ (m.fresh, value) :: l2) 1 [] := by
  subst hl
  obtain ⟨hs1, hs2⟩ := seg_append.1 h.seg
  have hnew : m.fresh ∉ addrs (l1 ++ l2) := fun hmem => Nat.lt_irrefl _ (h.below _ hmem)
  have haddrs : ∀ a, a ∈ addrs (l1 ++ (m.fresh, value) :: l2) ↔ a = m.fresh ∨ a ∈ addrs (l1 ++ l2) := by
    intro a
    simp only [addrs, map_append, map_cons, mem_append, mem_cons]
    tauto
  have hold : ∀ a, a ≠ m.fresh → a ∉ addrs (l1 ++ l2) → m'.cells a = m.cells a := by
    intro a hne ha
    simp only [addrs, map_append, mem_append, not_or] at ha
    rw [hcells, setPrev_of_ne fun heq => ha.2 (first_mem heq),
      setNext_of_ne fun heq => ha.1 (last_mem heq), update_of_ne hne]
  refine ⟨⟨hhead, htail, ?_, ?_, ?_⟩, hmethods, hfresh, by rw [hfreed, append_nil], ?_, ?_, ?_⟩
  · rw [hlen, h.len, length_append, length_append, length_cons, Nat.add_assoc]
  · rw [hcells]
    exact hs1.insert (x := (m.fresh, value)) hs2 h.nodup hnew
  · have hperm : addrs (l1 ++ (m.fresh, value) :: l2) ~ m.fresh :: addrs (l1 ++ l2) :=
      perm_middle.map Prod.fst
    exact hperm.nodup_iff.2 (nodup_cons.2 ⟨hnew, h.nodup⟩)
  · intro a hlt ha
    exact hold a (Nat.ne_of_lt hlt) ha
  · intro a ha' ha
    rw [haddrs, not_or] at ha'
    rw [hold a ha'.1 ha'.2]
    exact h.unused a (ha.resolve_left ha'.2)
  · intro a ha
    rcases (haddrs a).1 ha with rfl | ha
    · exact .inr ⟨Nat.le_refl _, hfresh ▸ Nat.lt_succ_self _⟩
    · exact .inl ha

theorem AdList.Owned.listAddNodeHead (h : list.Owned m l) (value : α) :
    ∃ m' list', listAddNodeHead m list value = .ok (m', list') ∧
      Edited m list l m' list' ((m.fresh, value) :: l) 1 [] := by
  rw [RedisCounter.listAddNodeHead]
  cases l with
  | nil =>
    refine ⟨_, _, if_pos h.len, ?_⟩
    exact edited_insert [] [] h rfl value rfl rfl rfl rfl rfl rfl rfl
  | cons x l =>
    have hhead : list.head = some x.1 := h.head
    have hlive := (h.seg.live (mem_cons_self ..)).update ⟨none, some x.1, value⟩ m.fresh
    rw [if_neg (by rw [h.len]; exact Nat.succ_ne_zero _), hhead, assignPrev_ok (Option.some_ne_none _) hlive]
    refine ⟨_, _, rfl, ?_⟩
    exact edited_insert [] _ h rfl value rfl rfl rfl rfl rfl h.tail rfl

theorem AdList.Owned.listAddNodeTail (h : list.Owned m l) (value : α) :
    ∃ m' list', listAddNodeTail m list value = .ok (m', list') ∧
      Edited m list l m' list' (l ++ [(m.fresh, value)]) 1 [] := by
  rw [RedisCounter.listAddNodeTail]
  rcases eq_nil_or_concat' l with rfl | ⟨l, x, rfl⟩
  · refine ⟨_, _, if_pos h.len, ?_⟩
    exact edited_insert [] [] h rfl value rfl rfl rfl rfl rfl rfl rfl
  · have htail : list.tail = some x.1 := h.tail.trans (last_snoc ..)
    have hlive := (h.seg.live (last_mem (last_snoc ..))).update ⟨some x.1, none, value⟩ m.fresh
    have hlen : list.len ≠ 0 := by
      rw [h.len, length_append]
      exact Nat.succ_ne_zero _
    rw [if_neg hlen, htail, assignNext_ok (Option.some_ne_none _) hlive]
    refine ⟨_, _, rfl, edited_insert _ [] h (append_nil _).symm value ?_ rfl rfl rfl ?_ ?_ rfl⟩
    · rw [last_snoc]
      rfl
    · rw [h.head, append_assoc, first_append, first_append]
      rfl
    · rw [last_snoc]

theorem listInsertNode_eq {p prev next : Option ℕ} (hold : listDeref m p = .ok node) {after : Bool}
    (hsides : (if after then (p, node.next) else (node.prev, p)) = (prev, next))
    (hprev : Live m.cells prev) (hnext : Live m.cells next) (value : α) :
    listInsertNode m list p value after
      = .ok (⟨setPrev (setNext (update m.cells m.fresh (some ⟨prev, next, value⟩)) prev (some m.fresh))
          next (some m.fresh), m.fresh + 1, m.freed⟩,
        { list with
          head := if ¬ after ∧ list.head = p then some m.fresh else list.head
          tail := if after ∧ list.tail = p then some m.fresh else list.tail
          len := list.len + 1 }) := by
  rw [listInsertNode, hold, ok_bind]
  simp only [hsides]
  rw [relinkNext_ok (hprev.update _ m.fresh), ok_bind,
    relinkPrev_ok ((hnext.update _ m.fresh).setNext _ _)]
  rfl

theorem AdList.Owned.listInsertNode_after (h : list.Owned m (l1 ++ x :: l2)) (value : α) :
    ∃ m' list', listInsertNode m list (some x.1) value true = .ok (m', list') ∧
      Edited m list (l1 ++ x :: l2) m' list' (l1 ++ x :: (m.fresh, value) :: l2) 1 [] := by
  have hx : x.1 ∉ addrs l2 := by
    have hnodup := h.nodup
    rw [addrs, map_append, nodup_append] at hnodup
    exact (nodup_cons.1 hnodup.2.1).1
  obtain ⟨-, hsx, hs2⟩ := seg_append.1 h.seg
  have hlive := h.seg.live (mem_map_of_mem (mem_append_right l1 (mem_cons_self ..)))
  refine ⟨_, _, listInsertNode_eq (listDeref_ok hsx) (if_pos rfl) hlive hs2.live_first value, ?_⟩
  rw [append_cons l1 x (_ :: _)]
  refine edited_insert _ _ h (append_cons ..) value ?_ rfl rfl rfl ?_ ?_ rfl
  · rw [last_snoc]
  · rw [if_neg (fun hc => hc.1 rfl), h.head, append_assoc, first_append, first_append]
    rfl
  · have htail : list.tail = last l2 (some x.1) := h.tail.trans (last_append ..)
    simp only [true_and, htail]
    rw [last_replace hx, last_append]
    rfl

theorem AdList.Owned.listInsertNode_before (h : list.Owned m (l1 ++ x :: l2)) (value : α) :
    ∃ m' list', listInsertNode m list (some x.1) value false = .ok (m', list') ∧
      Edited m list (l1 ++ x :: l2) m' list' (l1 ++ (m.fresh, value) :: x :: l2) 1 [] := by
  have hx : x.1 ∉ addrs l1 := by
    have hnodup := h.nodup
    rw [addrs, map_append, nodup_append] at hnodup
    exact fun hx => hnodup.2.2 _ hx _ (mem_cons_self ..) rfl
  obtain ⟨hs1, hsx, -⟩ := seg_append.1 h.seg
  have hlive := h.seg.live (mem_map_of_mem (mem_append_right l1 (mem_cons_self ..)))
  refine ⟨_, _, listInsertNode_eq (listDeref_ok hsx) (if_neg Bool.false_ne_true) hs1.live_last hlive
    value, ?_⟩
  refine edited_insert _ _ h rfl value rfl rfl rfl rfl ?_ ?_ rfl
  · have hhead : list.head = first l1 (some x.1) := h.head.trans (first_append ..)
    simp only [Bool.false_eq_true, not_false_eq_true, true_and, hhead]
    rw [first_replace hx, first_append]
    rfl
  · dsimp only
    rw [if_neg (fun hc => Bool.false_ne_true hc.1), h.tail, last_append, last_append]
    rfl

/-! ## Removing nodes -/

/-- What `free` is called on when these values go. -/
def ListMethods.frees (methods : ListMethods α) (vs : List α) : List α :=
  if methods.free then vs else []

theorem freeValue_eq (methods : ListMethods α) (m : ListMem α) (value : α) :
    freeValue methods m value = { m with freed := m.freed ++ methods.frees [value] } := by
  rw [freeValue, ListMethods.frees]
  split_ifs
  · rfl
  · rw [append_nil]

theorem AdList.Owned.listDelNode (h : list.Owned m (l1 ++ x :: l2)) :
    ∃ m' list', listDelNode m list (some x.1) = .ok (m', list') ∧
      Edited m list (l1 ++ x :: l2) m' list' (l1 ++ l2) 0 (list.frees [x.2]) := by
  obtain ⟨hs1, hsx, hs2⟩ := seg_append.1 h.seg
  have hlive := h.seg.live (mem_map_of_mem (mem_append_right l1 (mem_cons_self ..)))
  have hnodup : (x.1 :: addrs (l1 ++ l2)).Nodup :=
    ((@perm_middle _ x l1 l2).map Prod.fst).nodup_iff.1 h.nodup
  obtain ⟨hx, hnodup⟩ := nodup_cons.1 hnodup
  have hmem : ∀ a, a ∈ addrs (l1 ++ x :: l2) ↔ a = x.1 ∨ a ∈ addrs (l1 ++ l2) := by
    intro a
    simp only [addrs, map_append, map_cons, mem_append, mem_cons]
    tauto
  have hold : ∀ a ∉ addrs (l1 ++ l2), setPrev (setNext m.cells (last l1 none) (first l2 none))
      (first l2 none) (last l1 none) a = m.cells a := by
    intro a ha
    simp only [addrs, map_append, mem_append, not_or] at ha
    rw [setPrev_of_ne fun heq => ha.2 (first_mem heq), setNext_of_ne fun heq => ha.1 (last_mem heq)]
  refine ⟨⟨update (setPrev (setNext m.cells (last l1 none) (first l2 none)) (first l2 none)
    (last l1 none)) x.1 none, m.fresh, m.freed ++ list.frees [x.2]⟩,
    ⟨list.toListMethods, first (l1 ++ l2) none, last (l1 ++ l2) none, list.len - 1⟩, ?_,
    ⟨⟨rfl, rfl, ?_, ?_, hnodup⟩, rfl, rfl, rfl, ?_, ?_, ?_⟩⟩
  · have hhead : (if last l1 none ≠ none then list.head else first l2 none) = first (l1 ++ l2) none := by
      rw [h.head, first_append, first_append]
      rcases eq_nil_or_concat' l1 with rfl | ⟨l1, y, rfl⟩
      · exact if_neg (not_not.2 rfl)
      · rw [last_snoc, if_pos (Option.some_ne_none _), first_append, first_append]
        rfl
    have htail : (if first l2 none ≠ none then list.tail else last l1 none) = last (l1 ++ l2) none := by
      rw [h.tail, last_append, last_append]
      cases l2 with
      | nil => exact if_neg (not_not.2 rfl)
      | cons y l2 => exact if_pos (Option.some_ne_none _)
    rw [RedisCounter.listDelNode, listDeref_ok hsx, ok_bind]
    dsimp only
    rw [relinkNext_ok hs1.live_last, ok_bind, relinkPrev_ok (hs2.live_first.setNext _ _), ok_bind,
      freeValue_eq, freeNode_ok ((hlive.setNext _ _).setPrev _ _), ok_bind, hhead, htail]
    rfl
  · rw [h.len, length_append, length_append, length_cons]
    rfl
  · exact (hs1.link hs2 hnodup).congr fun a ha => update_of_ne (ne_of_mem_of_not_mem ha hx) _ _
  · intro a _ ha
    rw [hmem, not_or] at ha
    exact (update_of_ne ha.1 ..).trans (hold a ha.2)
  · intro a ha' ha
    by_cases hax : a = x.1
    · subst hax
      exact update_self ..
    · have hnot : a ∉ addrs (l1 ++ x :: l2) := fun hal => ((hmem a).1 hal).elim hax ha'
      exact (update_of_ne hax ..).trans ((hold a ha').trans (h.unused a (ha.resolve_left hnot)))
  · exact fun a ha => .inl ((hmem a).2 (.inr ha))

theorem frees_cons (methods : ListMethods α) (v : α) (vs : List α) :
    methods.frees [v] ++ methods.frees vs = methods.frees (v :: vs) := by
  unfold ListMethods.frees
  split_ifs
  · rfl
  · rfl

/-- The loop frees the nodes from the first to the last, and nothing else. -/
theorem listEmptyLoop_ok (methods : ListMethods α) {p : Option ℕ} (hs : Seg m.cells p l none)
    (hl : (addrs l).Nodup) :
    ∃ cells', listEmptyLoop methods l.length m (first l none)
        = .ok ⟨cells', m.fresh, m.freed ++ methods.frees (l.map Prod.snd)⟩ ∧
      (∀ a ∈ addrs l, cells' a = none) ∧ ∀ a ∉ addrs l, cells' a = m.cells a := by
  induction l generalizing m p with
  | nil =>
    refine ⟨m.cells, ?_, fun a ha => absurd ha not_mem_nil, fun _ _ => rfl⟩
    rw [map_nil, ListMethods.frees, ite_self, append_nil]
    rfl
  | cons x l ih =>
    obtain ⟨hx, hl⟩ := nodup_cons.1 hl
    obtain ⟨cells', hrun, hgone, hkept⟩ :=
      ih (m := ⟨update m.cells x.1 none, m.fresh, m.freed ++ methods.frees [x.2]⟩)
        (hs.2.congr fun a ha => update_of_ne (ne_of_mem_of_not_mem ha hx) _ _) hl
    refine ⟨cells', ?_, ?_, ?_⟩
    · have hfree := freeNode_ok (m := freeValue methods m x.2) (a := x.1)
      rw [freeValue_eq] at hfree
      rw [first, length_cons, listEmptyLoop, listDeref_ok hs.1, ok_bind, freeValue_eq,
        hfree (hs.live (mem_cons_self ..)), ok_bind, hrun, append_assoc, frees_cons]
      rfl
    · rw [addrs, map_cons, forall_mem_cons]
      exact ⟨(hkept x.1 hx).trans (update_self ..), hgone⟩
    · intro a ha
      rw [addrs, map_cons, mem_cons, not_or] at ha
      exact (hkept a ha.2).trans (update_of_ne ha.1 ..)

theorem AdList.Owned.listEmpty (h : list.Owned m l) :
    ∃ m' list', listEmpty m list = .ok (m', list') ∧
      Edited m list l m' list' [] 0 (list.frees (l.map Prod.snd)) := by
  obtain ⟨cells', hrun, hgone, hkept⟩ := listEmptyLoop_ok list.toListMethods h.seg h.nodup
  refine ⟨⟨cells', m.fresh, m.freed ++ list.frees (l.map Prod.snd)⟩, listCreate list.toListMethods, ?_,
    ⟨⟨rfl, rfl, rfl, trivial, nodup_nil⟩, rfl, rfl, rfl, fun a _ ha => hkept a ha, ?_,
      fun a ha => absurd ha not_mem_nil⟩⟩
  · rw [RedisCounter.listEmpty, h.head, h.len, hrun]
    rfl
  · intro a _ ha
    by_cases hal : a ∈ addrs l
    · exact hgone a hal
    · exact (hkept a hal).trans (h.unused a (ha.resolve_left hal))

/-! ## Moving nodes -/

/-- The last node, and then the others. -/
def rotateNodes (l : Nodes α) : Nodes α := l.getLast?.toList ++ l.dropLast

/-- Two nodes or more: the last one goes in front of the others. -/
theorem rotate_seg {cells : Heap ℕ α} (hs : Seg cells none (l ++ [x]) none)
    (hnodup : (addrs (l ++ [x])).Nodup) :
    Seg (setNext (setPrev (setPrev (setNext cells (last l none) none) (first l none) (some x.1))
      (some x.1) none) (some x.1) (first l none)) none (x :: l) none := by
  rw [addrs, map_append, nodup_append] at hnodup
  obtain ⟨hl, -, hdisj⟩ := hnodup
  have hx : x.1 ∉ addrs l := fun hx => hdisj _ hx _ (mem_singleton_self _) rfl
  obtain ⟨hsl, hsx⟩ := seg_snoc.1 hs
  refine ⟨?_, ?_⟩
  · have hcell : setPrev (setNext cells (last l none) none) (first l none) (some x.1) x.1
        = some ⟨last l none, none, x.2⟩ := by
      rw [setPrev_of_ne fun heq => hx (first_mem heq), setNext_of_ne fun heq => hx (last_mem heq), hsx]
    generalize setPrev (setNext cells (last l none) none) (first l none) (some x.1) = cells' at hcell
    rw [setNext, update_self, setPrev, update_self, hcell]
    rfl
  · refine ((hsl.setLast hl none).setFirst hl (some x.1)).congr fun a ha => ?_
    have hne : some x.1 ≠ some a := fun heq => hx (Option.some.inj heq ▸ ha)
    rw [setNext_of_ne hne, setPrev_of_ne hne]

theorem AdList.Owned.listRotate (h : list.Owned m l) :
    ∃ m' list', listRotate m list = .ok (m', list') ∧
      Edited m list l m' list' (rotateNodes l) 0 [] := by
  by_cases hlen : list.len ≤ 1
  · have hl : rotateNodes l = l := by
      rw [h.len] at hlen
      match l, hlen with
      | [], _ => rfl
      | [_], _ => rfl
    rw [hl]
    exact ⟨m, list, if_pos hlen, .refl h⟩
  · obtain ⟨l, x, rfl⟩ : ∃ l' x, l = l' ++ [x] := by
      refine (eq_nil_or_concat' l).resolve_left ?_
      rintro rfl
      exact hlen (h.len ▸ Nat.zero_le 1)
    have hne : l ≠ [] := by
      rintro rfl
      exact hlen (h.len ▸ Nat.le_refl 1)
    have hrot : rotateNodes (l ++ [x]) = x :: l := by simp [rotateNodes]
    have hperm : addrs (l ++ [x]) ~ addrs (x :: l) := (perm_append_singleton x l).map Prod.fst
    obtain ⟨hsl, hsx⟩ := seg_snoc.1 h.seg
    have htail : list.tail = some x.1 := h.tail.trans (last_snoc ..)
    have hhead : list.head = first l none := by
      rw [h.head, first_append]
      exact first_congr hne
    have hlive : Live m.cells (some x.1) := h.seg.live (last_mem (last_snoc ..))
    have hseg := rotate_seg h.seg h.nodup
    have hfirst := first_ne_none (n := none) hne
    have hlast := last_ne_none (p := none) hne
    have hsome := Option.some_ne_none x.1
    refine ⟨⟨setNext (setPrev (setPrev (setNext m.cells (last l none) none) (first l none) (some x.1))
      (some x.1) none) (some x.1) (first l none), m.fresh, m.freed⟩,
      ⟨list.toListMethods, some x.1, last l none, list.len⟩, ?_, ?_⟩
    · rw [RedisCounter.listRotate, if_neg hlen, htail, listDeref_ok hsx, ok_bind]
      dsimp only
      rw [hhead, assignNext_ok hlast hsl.live_last, ok_bind,
        assignPrev_ok hfirst (hsl.live_first.setNext _ _), ok_bind,
        assignPrev_ok hsome ((hlive.setNext _ _).setPrev _ _), ok_bind]
      have hlive' := ((hlive.setNext (last l none) none).setPrev (first l none) (some x.1)).setPrev
        (some x.1) none
      rw [assignNext_ok hsome hlive', ok_bind]
      rfl
    · have hold : ∀ a ∉ addrs (l ++ [x]), setNext (setPrev (setPrev (setNext m.cells (last l none) none)
          (first l none) (some x.1)) (some x.1) none) (some x.1) (first l none) a = m.cells a := by
        intro a ha
        simp only [addrs, map_append, mem_append, not_or] at ha
        have hxa : some x.1 ≠ some a := fun heq => ha.2 (mem_singleton.2 (Option.some.inj heq).symm)
        rw [setNext_of_ne hxa, setPrev_of_ne hxa, setPrev_of_ne fun heq => ha.1 (first_mem heq),
          setNext_of_ne fun heq => ha.1 (last_mem heq)]
      rw [hrot]
      refine ⟨⟨rfl, last_congr hne, ?_, hseg, hperm.nodup_iff.1 h.nodup⟩, rfl, rfl, (append_nil _).symm,
        fun a _ ha => hold a ha, ?_, fun a ha => .inl (hperm.mem_iff.2 ha)⟩
      · rw [h.len, length_append]
        rfl
      · intro a ha' ha
        rw [← hperm.mem_iff] at ha'
        exact (hold a ha').trans (h.unused a (ha.resolve_left ha'))

/-- The second list's nodes go behind the first list's. -/
theorem listJoin_ok {o : AdList α} (h : list.Owned m l1) (ho : o.Owned m l2)
    (hl : (addrs (l1 ++ l2)).Nodup) :
    ∃ cells' list', listJoin m list o
        = .ok (⟨cells', m.fresh, m.freed⟩, list', listCreate o.toListMethods) ∧
      list'.Holds cells' (l1 ++ l2) ∧ list'.toListMethods = list.toListMethods ∧
        ∀ a ∉ addrs (l1 ++ l2), cells' a = m.cells a := by
  have hlink := h.seg.link ho.seg hl
  have hlive : Live m.cells o.head := ho.head ▸ ho.seg.live_first
  have hlive' : Live m.cells list.tail := h.tail ▸ h.seg.live_last
  refine ⟨setNext (setPrev m.cells o.head list.tail) list.tail o.head,
    ⟨list.toListMethods, first (l1 ++ l2) none, last (l1 ++ l2) none, list.len + o.len⟩, ?_, ?_, rfl, ?_⟩
  · have hhead : (if list.tail ≠ none then list.head else o.head) = first (l1 ++ l2) none := by
      rw [first_append, h.head, h.tail, ho.head]
      rcases eq_or_ne l1 [] with rfl | hne
      · exact if_neg (not_not.2 rfl)
      · rw [if_pos (last_ne_none hne)]
        exact first_congr hne
    have htail : (if o.tail ≠ none then o.tail else list.tail) = last (l1 ++ l2) none := by
      rw [last_append, ho.tail, h.tail]
      rcases eq_or_ne l2 [] with rfl | hne
      · exact if_neg (not_not.2 rfl)
      · rw [if_pos (last_ne_none hne)]
        exact last_congr hne
    rw [listJoin, relinkPrev_ok hlive, ok_bind, relinkNext_ok (hlive'.setPrev _ _), ok_bind, hhead, htail]
    rfl
  · rw [setNext_setPrev, ho.head, h.tail]
    refine ⟨rfl, rfl, ?_, hlink, hl⟩
    rw [h.len, ho.len, length_append]
  · intro a ha
    simp only [addrs, map_append, mem_append, not_or] at ha
    rw [ho.head, h.tail, setNext_of_ne fun heq => ha.1 (last_mem heq),
      setPrev_of_ne fun heq => ha.2 (first_mem heq)]

/-! ## Walking over a list -/

/-- The pointer an iterator follows. -/
def ListDirection.step : ListDirection → ListNode α → Option ℕ
  | .startHead => Node.next
  | .startTail => Node.prev

/-- The nodes in the order an iterator meets them. -/
def ListDirection.order : ListDirection → Nodes α → Nodes α
  | .startHead, l => l
  | .startTail, l => l.reverse

theorem AdList.Holds.chain (h : list.Holds m.cells l) (direction : ListDirection) :
    Chain m.cells direction.step (direction.order l) := by
  cases direction with
  | startHead => exact h.seg.chain_next
  | startTail => exact h.seg.chain_prev

theorem listNext_ok (direction : ListDirection) (hc : Chain m.cells direction.step l) :
    listNext m ⟨first l none, direction⟩ = .ok (⟨first l.tail none, direction⟩, first l none) := by
  cases l with
  | nil => rfl
  | cons x l =>
    obtain ⟨⟨node, hnode, -, hstep⟩, -⟩ := hc
    rw [listNext, first, if_pos (Option.some_ne_none _), listDeref_ok hnode, ok_bind, tail_cons, ← hstep]
    cases direction with
    | startHead => rfl
    | startTail => rfl

theorem listWalk_ok {step : ListNode α → Option ℕ} (hc : Chain m.cells step l) (index : ℕ) :
    listWalk m step index (first l none) = .ok (first (l.drop index) none) := by
  induction index generalizing l with
  | zero => rfl
  | succ index ih =>
    cases l with
    | nil => rfl
    | cons x l =>
      obtain ⟨⟨node, hnode, -, hstep⟩, hl⟩ := hc
      rw [first, listWalk, if_pos (Option.some_ne_none _), listDeref_ok hnode, ok_bind, hstep, ih hl,
        drop_succ_cons]

/-- The node at an index, counted from the end if it is negative. -/
def nodeAt (l : Nodes α) (index : ℤ) : Option ℕ :=
  if index < 0 then first (l.reverse.drop (-index - 1).toNat) none else first (l.drop index.toNat) none

theorem AdList.Holds.listIndex (h : list.Holds m.cells l) (index : ℤ) :
    listIndex m list index = .ok (nodeAt l index) := by
  rw [RedisCounter.listIndex, nodeAt, h.head, h.tail, ← first_reverse]
  split_ifs
  · exact listWalk_ok h.seg.chain_prev _
  · exact listWalk_ok h.seg.chain_next _

/-- The first node whose value is the key's. -/
def findNode [DecidableEq α] (methods : ListMethods α) (l : Nodes α) (key : α) : Option ℕ :=
  (l.find? fun x => listMatches methods x.2 key).map Prod.fst

theorem listSearchLoop_ok [DecidableEq α] (methods : ListMethods α) (hc : Chain m.cells Node.next l)
    (key : α) {n : ℕ} (hn : l.length < n) :
    listSearchLoop methods m key n ⟨first l none, .startHead⟩ = .ok (findNode methods l key) := by
  induction l generalizing n with
  | nil =>
    obtain ⟨n, rfl⟩ := Nat.exists_eq_succ_of_ne_zero (Nat.ne_of_gt hn)
    rfl
  | cons x l ih =>
    obtain ⟨n, rfl⟩ := Nat.exists_eq_succ_of_ne_zero (Nat.ne_of_gt (Nat.lt_of_le_of_lt (Nat.zero_le _) hn))
    have hnext : listNext m ⟨some x.1, .startHead⟩ = .ok (⟨first l none, .startHead⟩, some x.1) :=
      listNext_ok .startHead hc
    obtain ⟨⟨node, hnode, hvalue, -⟩, hl⟩ := hc
    rw [first, listSearchLoop, hnext, ok_bind]
    dsimp only
    rw [if_pos (Option.some_ne_none _), listDeref_ok hnode, ok_bind, hvalue, findNode]
    by_cases hmatch : listMatches methods x.2 key
    · rw [if_pos hmatch, find?_cons_of_pos (p := fun y : ℕ × α => listMatches methods y.2 key) hmatch]
      rfl
    · rw [if_neg hmatch, find?_cons_of_neg (p := fun y : ℕ × α => listMatches methods y.2 key) hmatch]
      exact ih hl (Nat.lt_of_succ_lt_succ hn)

theorem AdList.Holds.listSearchKey [DecidableEq α] (h : list.Holds m.cells l) (key : α) :
    listSearchKey m list key = .ok (findNode list.toListMethods l key) := by
  rw [RedisCounter.listSearchKey, listRewind, h.head]
  exact listSearchLoop_ok _ h.seg.chain_next key (h.len ▸ Nat.lt_succ_self _)

/-! ## Copying a list -/

/-- The copies of values up to the first one that cannot be copied, and whether there is none such. -/
def copies (methods : ListMethods α) : List α → List α × Bool
  | [] => ([], true)
  | v :: vs =>
    match dupValue methods v with
    | none => ([], false)
    | some w => (w :: (copies methods vs).1, (copies methods vs).2)

/-- The values in new nodes. -/
def numbered : ℕ → List α → Nodes α
  | _, [] => []
  | a, v :: vs => (a, v) :: numbered (a + 1) vs

/-- From a copy with the nodes `l`, after these copies of values: a list with the new nodes behind them,
or nothing, when everything has been freed again. -/
inductive Dups (m : ListMem α) (copy : AdList α) (l : Nodes α) :
    List α × Bool → ListMem α → Option (AdList α) → Prop
  | copied {vs : List α} {m' : ListMem α} {copy' : AdList α}
      (h : Edited m copy l m' copy' (l ++ numbered m.fresh vs) vs.length []) :
      Dups m copy l (vs, true) m' (some copy')
  | failed {vs : List α} {m' : ListMem α} {copy' : AdList α}
      (h : Edited m copy l m' copy' [] vs.length (copy.frees (l.map Prod.snd ++ vs))) :
      Dups m copy l (vs, false) m' none

theorem Dups.cons {copy copy' : AdList α} {v : α} {r : List α × Bool} {o : Option (AdList α)}
    (he : Edited m copy l m' copy' (l ++ [(m.fresh, v)]) 1 [])
    (hd : Dups m' copy' (l ++ [(m.fresh, v)]) r m'' o) : Dups m copy l (v :: r.1, r.2) m'' o := by
  cases hd with
  | @copied vs _ _ h =>
    have htrans := he.trans h
    rw [he.fresh, append_assoc, Nat.add_comm 1] at htrans
    exact .copied htrans
  | @failed vs _ _ h =>
    have htrans := he.trans h
    rw [map_append, append_assoc, Nat.add_comm 1, he.methods] at htrans
    exact .failed htrans

theorem listDupLoop_ok {copy : AdList α} {rest : Nodes α} (hc : Chain m.cells Node.next rest)
    (hcopy : copy.Owned m l) (hrest : ∀ a ∈ addrs rest, a < m.fresh ∧ a ∉ addrs l) {n : ℕ}
    (hn : rest.length < n) :
    ∃ m' o, listDupLoop n m copy ⟨first rest none, .startHead⟩ = .ok (m', o) ∧
      Dups m copy l (copies copy.toListMethods (rest.map Prod.snd)) m' o := by
  induction rest generalizing m copy l n with
  | nil =>
    obtain ⟨n, rfl⟩ := Nat.exists_eq_succ_of_ne_zero (Nat.ne_of_gt hn)
    refine ⟨m, some copy, rfl, .copied ?_⟩
    rw [numbered, append_nil]
    exact .refl hcopy
  | cons x rest ih =>
    obtain ⟨n, rfl⟩ := Nat.exists_eq_succ_of_ne_zero (Nat.ne_of_gt (Nat.lt_of_le_of_lt (Nat.zero_le _) hn))
    have hnext : listNext m ⟨some x.1, .startHead⟩
        = .ok (⟨first rest none, .startHead⟩, some x.1) := listNext_ok .startHead hc
    obtain ⟨⟨node, hnode, hvalue, -⟩, hchain⟩ := hc
    rw [first, listDupLoop, hnext, ok_bind]
    dsimp only
    rw [if_pos (Option.some_ne_none _), listDeref_ok hnode, ok_bind, hvalue, map_cons, copies]
    cases hdup : dupValue copy.toListMethods x.2 with
    | none =>
      -- the copies made so far are freed
      obtain ⟨m', copy', hempty, hedited⟩ := hcopy.listEmpty
      refine ⟨m', none, ?_, .failed (by rwa [append_nil])⟩
      dsimp only
      rw [hempty]
      rfl
    | some w =>
      obtain ⟨m1, copy1, hadd, hedited⟩ := hcopy.listAddNodeTail w
      have hframe : ∀ a ∈ addrs rest, m1.cells a = m.cells a := by
        intro a ha
        obtain ⟨hlt, hnot⟩ := hrest a (mem_cons_of_mem _ ha)
        exact hedited.frame a hlt hnot
      have hrest1 : ∀ a ∈ addrs rest, a < m1.fresh ∧ a ∉ addrs (l ++ [(m.fresh, w)]) := by
        intro a ha
        obtain ⟨hlt, hnot⟩ := hrest a (mem_cons_of_mem _ ha)
        refine ⟨hedited.fresh ▸ Nat.lt_succ_of_lt hlt, fun hmem => ?_⟩
        rw [addrs, map_append, mem_append] at hmem
        exact hmem.elim hnot fun heq => Nat.ne_of_lt hlt (mem_singleton.1 heq)
      obtain ⟨m', o, hrun, hdups⟩ := ih (hchain.congr hframe) (hedited.owned hcopy) hrest1
        (Nat.lt_of_succ_lt_succ hn)
      refine ⟨m', o, ?_, ?_⟩
      · dsimp only
        rw [hadd, ok_bind]
        exact hrun
      · rw [hedited.methods] at hdups
        exact hdups.cons hedited

theorem AdList.Owned.create (h : list.Owned m l) (methods : ListMethods α) :
    (listCreate methods).Owned m [] :=
  ⟨⟨rfl, rfl, rfl, trivial, nodup_nil⟩, fun _ ha => absurd ha not_mem_nil, h.unused⟩

theorem AdList.Owned.listDup (h : list.Owned m l) :
    ∃ m' o, listDup m list = .ok (m', o) ∧ Dups m (listCreate list.toListMethods) []
      (copies list.toListMethods (l.map Prod.snd)) m' o := by
  rw [RedisCounter.listDup, listRewind, h.head]
  exact listDupLoop_ok h.seg.chain_next (h.create _)
    (fun a ha => ⟨h.below a ha, not_mem_nil⟩) (h.len ▸ Nat.lt_succ_self _)

end RedisCounter
