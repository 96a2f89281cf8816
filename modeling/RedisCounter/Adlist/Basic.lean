import Mathlib.Data.Int.Notation
import RedisCounter.Lib.DoublyLinked

/-!
# Lists of nodes on the heap

The functions of `adlist.c`. An address is a number, `none` is `NULL`, and what the code does not
survive is an error: a pointer that is followed must point to a node that has been made and not yet been
freed. `zmalloc` does not return `NULL`. The values are `void *` pointers that the lists never follow;
what a `free` method is given is recorded in the order of the calls.

`len` is an `unsigned long`: a natural number here, since a heap has fewer nodes.
-/

namespace RedisCounter

open Function DoublyLinked

/-- A list node is a node of a doubly linked list with a machine address. -/
abbrev ListNode (α : Type) := Node ℕ α

/-- The methods of a list that are set. The `free` method returns nothing, so it is only known whether
there is one. -/
structure ListMethods (α : Type) where
  dup : Option (α → Option α)
  free : Bool
  matchMethod : Option (α → α → Bool)

structure AdList (α : Type) extends ListMethods α where
  head : Option ℕ
  tail : Option ℕ
  len : ℕ

/-- `AL_START_HEAD` and `AL_START_TAIL`. -/
inductive ListDirection
  | startHead | startTail
deriving DecidableEq, Repr

structure ListIter where
  next : Option ℕ
  direction : ListDirection
deriving DecidableEq, Repr

inductive ListFault
  /-- `NULL` is followed. -/
  | null
  /-- A pointer is followed to a node that is not there, or not any more. -/
  | dangling
  /-- A loop takes more turns than there are nodes. -/
  | turns
deriving DecidableEq, Repr

/-- The nodes, the next address `zmalloc` returns, and the values that `free` methods were given. -/
structure ListMem (α : Type) where
  cells : Heap ℕ α
  fresh : ℕ
  freed : List α

variable {α : Type}

/-! ## Following pointers -/

def listDeref (m : ListMem α) : Option ℕ → Except ListFault (ListNode α)
  | none => throw .null
  | some a =>
    match m.cells a with
    | none => throw .dangling
    | some node => pure node

/-- `p->prev = q;` -/
def assignPrev (m : ListMem α) (p q : Option ℕ) : Except ListFault (ListMem α) := do
  let _ ← listDeref m p
  pure { m with cells := setPrev m.cells p q }

/-- `p->next = q;` -/
def assignNext (m : ListMem α) (p q : Option ℕ) : Except ListFault (ListMem α) := do
  let _ ← listDeref m p
  pure { m with cells := setNext m.cells p q }

/-- `node = zmalloc(sizeof(*node))` with all its fields assigned. -/
def newNode (m : ListMem α) (node : ListNode α) : ListMem α :=
  { m with cells := update m.cells m.fresh (some node), fresh := m.fresh + 1 }

/-- `zfree(node)`. -/
def freeNode (m : ListMem α) (p : Option ℕ) : Except ListFault (ListMem α) := do
  let _ ← listDeref m p
  match p with
  | none => throw .null
  | some a => pure { m with cells := update m.cells a none }

/-- `if (list->free) list->free(value);` -/
def freeValue (methods : ListMethods α) (m : ListMem α) (value : α) : ListMem α :=
  if methods.free then { m with freed := m.freed ++ [value] } else m

/-! ## Lists -/

/-- `listCreate`, and the methods that are set afterwards. -/
def listCreate (methods : ListMethods α) : AdList α := ⟨methods, none, none, 0⟩

/-- The loop of `listEmpty`, of `len` turns. -/
def listEmptyLoop (methods : ListMethods α) :
    ℕ → ListMem α → Option ℕ → Except ListFault (ListMem α)
  | 0, m, _ => pure m
  | len + 1, m, current => do
    let node ← listDeref m current
    let m ← freeNode (freeValue methods m node.value) current
    listEmptyLoop methods len m node.next

def listEmpty (m : ListMem α) (list : AdList α) : Except ListFault (ListMem α × AdList α) := do
  let m ← listEmptyLoop list.toListMethods list.len m list.head
  pure (m, { list with head := none, tail := none, len := 0 })

def listAddNodeHead (m : ListMem α) (list : AdList α) (value : α) :
    Except ListFault (ListMem α × AdList α) :=
  let node := some m.fresh
  if list.len = 0 then
    pure (newNode m ⟨none, none, value⟩, { list with head := node, tail := node, len := list.len + 1 })
  else do
    let m ← assignPrev (newNode m ⟨none, list.head, value⟩) list.head node
    pure (m, { list with head := node, len := list.len + 1 })

def listAddNodeTail (m : ListMem α) (list : AdList α) (value : α) :
    Except ListFault (ListMem α × AdList α) :=
  let node := some m.fresh
  if list.len = 0 then
    pure (newNode m ⟨none, none, value⟩, { list with head := node, tail := node, len := list.len + 1 })
  else do
    let m ← assignNext (newNode m ⟨list.tail, none, value⟩) list.tail node
    pure (m, { list with tail := node, len := list.len + 1 })

/-- `if (p != NULL) p->prev = q;` -/
def relinkPrev (m : ListMem α) (p q : Option ℕ) : Except ListFault (ListMem α) :=
  if p ≠ none then assignPrev m p q else pure m

/-- `if (p != NULL) p->next = q;` -/
def relinkNext (m : ListMem α) (p q : Option ℕ) : Except ListFault (ListMem α) :=
  if p ≠ none then assignNext m p q else pure m

def listInsertNode (m : ListMem α) (list : AdList α) (oldNode : Option ℕ) (value : α) (after : Bool) :
    Except ListFault (ListMem α × AdList α) := do
  let node := some m.fresh
  let old ← listDeref m oldNode
  let (prev, next) := if after then (oldNode, old.next) else (old.prev, oldNode)
  let tail := if after ∧ list.tail = oldNode then node else list.tail
  let head := if ¬ after ∧ list.head = oldNode then node else list.head
  let m ← relinkNext (newNode m ⟨prev, next, value⟩) prev node
  let m ← relinkPrev m next node
  pure (m, { list with head, tail, len := list.len + 1 })

/-- `listDelNode`. The neighbours of `node` are other nodes, so its fields stay until it is freed. -/
def listDelNode (m : ListMem α) (list : AdList α) (p : Option ℕ) :
    Except ListFault (ListMem α × AdList α) := do
  let node ← listDeref m p
  let head := if node.prev ≠ none then list.head else node.next
  let m ← relinkNext m node.prev node.next
  let tail := if node.next ≠ none then list.tail else node.prev
  let m ← relinkPrev m node.next node.prev
  let m ← freeNode (freeValue list.toListMethods m node.value) p
  pure (m, { list with head, tail, len := list.len - 1 })

/-! ## Walking over a list -/

def listRewind (list : AdList α) : ListIter := ⟨list.head, .startHead⟩

def listRewindTail (list : AdList α) : ListIter := ⟨list.tail, .startTail⟩

/-- `listNext`: the iterator afterwards, and the node it was at. -/
def listNext (m : ListMem α) (iter : ListIter) : Except ListFault (ListIter × Option ℕ) :=
  if iter.next ≠ none then do
    let current ← listDeref m iter.next
    match iter.direction with
    | .startHead => pure ({ iter with next := current.next }, iter.next)
    | .startTail => pure ({ iter with next := current.prev }, iter.next)
  else pure (iter, iter.next)

/-- The copy of a value, by the list's `dup` method if it has one. -/
def dupValue (methods : ListMethods α) (value : α) : Option α :=
  match methods.dup with
  | some dup => dup value
  | none => some value

/-- The loop of `listDup`, for at most so many turns; `none` when a value cannot be copied. -/
def listDupLoop : ℕ → ListMem α → AdList α → ListIter →
    Except ListFault (ListMem α × Option (AdList α))
  | 0, _, _, _ => throw .turns
  | n + 1, m, copy, iter => do
    let (iter, p) ← listNext m iter
    if p ≠ none then
      let node ← listDeref m p
      match dupValue copy.toListMethods node.value with
      | none =>
        -- `listRelease(copy)`
        let (m, _) ← listEmpty m copy
        pure (m, none)
      | some value =>
        let (m, copy) ← listAddNodeTail m copy value
        listDupLoop n m copy iter
    else pure (m, some copy)

def listDup (m : ListMem α) (orig : AdList α) : Except ListFault (ListMem α × Option (AdList α)) :=
  listDupLoop (orig.len + 1) m (listCreate orig.toListMethods) (listRewind orig)

/-- `while(index-- && n) n = n->prev;`, or `n = n->next;`. -/
def listWalk (m : ListMem α) (step : ListNode α → Option ℕ) :
    ℕ → Option ℕ → Except ListFault (Option ℕ)
  | 0, p => pure p
  | index + 1, p =>
    if p ≠ none then do
      let node ← listDeref m p
      listWalk m step index (step node)
    else pure p

def listIndex (m : ListMem α) (list : AdList α) (index : ℤ) : Except ListFault (Option ℕ) :=
  if index < 0 then listWalk m Node.prev (-index - 1).toNat list.tail
  else listWalk m Node.next index.toNat list.head

/-! ## Moving nodes -/

def listRotate (m : ListMem α) (list : AdList α) : Except ListFault (ListMem α × AdList α) :=
  let tail := list.tail
  if list.len ≤ 1 then pure (m, list)
  else do
    -- detach current tail
    let node ← listDeref m tail
    let list := { list with tail := node.prev }
    let m ← assignNext m list.tail none
    -- move it as head
    let m ← assignPrev m list.head tail
    let m ← assignPrev m tail none
    let m ← assignNext m tail list.head
    pure (m, { list with head := tail })

/-- `listJoin(l, o)`: both lists afterwards. -/
def listJoin (m : ListMem α) (l o : AdList α) :
    Except ListFault (ListMem α × AdList α × AdList α) := do
  let m ← relinkPrev m o.head l.tail
  let m ← relinkNext m l.tail o.head
  let head := if l.tail ≠ none then l.head else o.head
  let tail := if o.tail ≠ none then o.tail else l.tail
  pure (m, { l with head, tail, len := l.len + o.len }, { o with head := none, tail := none, len := 0 })

variable [DecidableEq α]

/-- Whether `listSearchKey` takes a value for the key's. -/
def listMatches (methods : ListMethods α) (value key : α) : Bool :=
  match methods.matchMethod with
  | some f => f value key
  | none => key == value

/-- The loop of `listSearchKey`, for at most so many turns. -/
def listSearchLoop (methods : ListMethods α) (m : ListMem α) (key : α) :
    ℕ → ListIter → Except ListFault (Option ℕ)
  | 0, _ => throw .turns
  | n + 1, iter => do
    let (iter, p) ← listNext m iter
    if p ≠ none then
      let node ← listDeref m p
      if listMatches methods node.value key then pure p else listSearchLoop methods m key n iter
    else pure none

def listSearchKey (m : ListMem α) (list : AdList α) (key : α) : Except ListFault (Option ℕ) :=
  listSearchLoop list.toListMethods m key (list.len + 1) (listRewind list)

end RedisCounter
