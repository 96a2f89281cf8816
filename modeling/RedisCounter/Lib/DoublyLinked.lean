import Mathlib.Data.List.Basic
import Mathlib.Data.List.Induction
import Mathlib.Logic.Function.Basic
import Mathlib.Tactic.Common

/-!
# Doubly linked lists on a heap

A heap has a node, or nothing, at every address. `Seg h p l n` says that the nodes of `l` lie on it in
this order, linked both ways, the first one back to `p` and the last one on to `n`. A segment is taken
apart anywhere with `seg_append`, its two ends are relinked with `Seg.setFirst` and `Seg.setLast`, and
everything else on the heap is another's (`Seg.congr`).
-/

namespace DoublyLinked

open Function List

structure Node (A α : Type*) where
  prev : Option A
  next : Option A
  value : α
deriving DecidableEq, Repr

abbrev Heap (A α : Type*) := A → Option (Node A α)

variable {A α : Type*}

/-- The address of the first node of `l`, or of what is behind it. -/
def first : List (A × α) → Option A → Option A
  | [], n => n
  | x :: _, _ => some x.1

/-- The address of the last node of `l`, or of what is in front of it. -/
def last : List (A × α) → Option A → Option A
  | [], p => p
  | x :: l, _ => last l (some x.1)

/-- The nodes of `l`, between `p` and `n`. -/
def Seg (h : Heap A α) : Option A → List (A × α) → Option A → Prop
  | _, [], _ => True
  | p, x :: l, n => h x.1 = some ⟨p, first l n, x.2⟩ ∧ Seg h (some x.1) l n

abbrev addrs (l : List (A × α)) : List A := l.map Prod.fst

variable {h h' : Heap A α} {p p' n n' : Option A} {l l' : List (A × α)} {x : A × α} {a b : A}

/-! ## Taking segments apart -/

theorem first_append (l l' : List (A × α)) (n : Option A) :
    first (l ++ l') n = first l (first l' n) := by
  cases l with
  | nil => rfl
  | cons x l => rfl

theorem last_append (l l' : List (A × α)) (p : Option A) :
    last (l ++ l') p = last l' (last l p) := by
  induction l generalizing p with
  | nil => rfl
  | cons x l ih => exact ih (some x.1)

theorem last_snoc (l : List (A × α)) (x : A × α) (p : Option A) : last (l ++ [x]) p = some x.1 :=
  last_append l [x] p

theorem seg_append :
    Seg h p (l ++ l') n ↔ Seg h p l (first l' n) ∧ Seg h (last l p) l' n := by
  induction l generalizing p with
  | nil => exact ⟨fun hs => ⟨trivial, hs⟩, And.right⟩
  | cons x l ih => rw [cons_append, Seg, Seg, ih, first_append, and_assoc, last]

theorem seg_snoc : Seg h p (l ++ [x]) n ↔ Seg h p l (some x.1) ∧ h x.1 = some ⟨last l p, n, x.2⟩ := by
  rw [seg_append]
  exact and_congr_right' ⟨And.left, fun hx => ⟨hx, trivial⟩⟩

/-- The node in the middle of a segment. -/
theorem Seg.get (hs : Seg h p (l ++ x :: l') n) : h x.1 = some ⟨last l p, first l' n, x.2⟩ :=
  (seg_append.1 hs).2.1

theorem first_mem (h : first l none = some a) : a ∈ addrs l := by
  cases l with
  | nil => cases h
  | cons x l => exact Option.some.inj h ▸ mem_cons_self ..

theorem last_mem (h : last l none = some a) : a ∈ addrs l := by
  rcases eq_nil_or_concat' l with rfl | ⟨l, x, rfl⟩
  · cases h
  · rw [last_snoc] at h
    rw [addrs, map_append]
    exact mem_append_right _ (mem_singleton.2 (Option.some.inj h).symm)

theorem first_ne_none (hl : l ≠ []) : first l n ≠ none := by
  obtain ⟨x, l, rfl⟩ := exists_cons_of_ne_nil hl
  exact Option.some_ne_none _

theorem last_ne_none (hl : l ≠ []) : last l p ≠ none := by
  obtain ⟨l, x, rfl⟩ := (eq_nil_or_concat' l).resolve_left hl
  rw [last_snoc]
  exact Option.some_ne_none _

theorem first_congr (hl : l ≠ []) : first l n = first l n' := by
  obtain ⟨x, l, rfl⟩ := exists_cons_of_ne_nil hl
  rfl

theorem last_congr (hl : l ≠ []) : last l p = last l p' := by
  obtain ⟨l, x, rfl⟩ := (eq_nil_or_concat' l).resolve_left hl
  rw [last_snoc, last_snoc]

/-- There is a node at this address, unless it is nothing. -/
def Live (h : Heap A α) (c : Option A) : Prop := ∀ a, c = some a → h a ≠ none

theorem Seg.live (hs : Seg h p l n) (ha : a ∈ addrs l) : Live h (some a) := by
  obtain ⟨x, hx, rfl⟩ := mem_map.1 ha
  obtain ⟨l1, l2, rfl⟩ := append_of_mem hx
  rintro _ ⟨⟩
  rw [hs.get]
  exact Option.some_ne_none _

theorem Seg.live_first (hs : Seg h p l n) : Live h (first l none) :=
  fun a ha => hs.live (first_mem ha) a rfl

theorem Seg.live_last (hs : Seg h p l n) : Live h (last l none) :=
  fun a ha => hs.live (last_mem ha) a rfl

/-- Who comes first when another node than `a` is put in front of what is behind `l`. -/
theorem first_replace (ha : a ∉ addrs l) (n : Option A) [Decidable (first l (some a) = some a)] :
    (if first l (some a) = some a then n else first l (some a)) = first l n := by
  cases l with
  | nil => exact if_pos rfl
  | cons x l => exact if_neg fun heq => ha (mem_cons.2 (.inl (Option.some.inj heq).symm))

theorem last_replace (ha : a ∉ addrs l) (p : Option A) [Decidable (last l (some a) = some a)] :
    (if last l (some a) = some a then p else last l (some a)) = last l p := by
  rcases eq_nil_or_concat' l with rfl | ⟨l, x, rfl⟩
  · exact if_pos rfl
  · have hlast : ∀ d, last (l ++ [x]) d = some x.1 := fun d => last_snoc l x d
    rw [hlast p, ← hlast (some a)]
    exact if_neg fun heq => ha (last_mem ((hlast none).trans ((hlast (some a)).symm.trans heq)))

/-- The nodes of `l` are met in this order by who follows `step` from the first one. -/
def Chain (h : Heap A α) (step : Node A α → Option A) : List (A × α) → Prop
  | [] => True
  | x :: l => (∃ node, h x.1 = some node ∧ node.value = x.2 ∧ step node = first l none) ∧
      Chain h step l

theorem Seg.chain_next (hs : Seg h p l none) : Chain h Node.next l := by
  induction l generalizing p with
  | nil => trivial
  | cons x l ih => exact ⟨⟨_, hs.1, rfl, rfl⟩, ih hs.2⟩

theorem first_reverse (l : List (A × α)) : first l.reverse none = last l none := by
  rcases eq_nil_or_concat' l with rfl | ⟨l, x, rfl⟩
  · rfl
  · rw [reverse_concat, last_snoc]
    rfl

theorem Seg.chain_prev (hs : Seg h none l n) : Chain h Node.prev l.reverse := by
  induction l using reverseRecOn generalizing n with
  | nil => trivial
  | append_singleton l x ih =>
    rw [seg_snoc] at hs
    rw [reverse_concat]
    exact ⟨⟨_, hs.2, rfl, (first_reverse l).symm⟩, ih hs.1⟩

theorem Chain.drop {step : Node A α → Option A} (hc : Chain h step (l ++ l')) : Chain h step l' := by
  induction l with
  | nil => exact hc
  | cons x l ih => exact ih hc.2

theorem Chain.congr {step : Node A α → Option A} (hc : Chain h step l)
    (heq : ∀ a ∈ addrs l, h' a = h a) : Chain h' step l := by
  induction l with
  | nil => trivial
  | cons x l ih =>
    obtain ⟨hx, hl⟩ := forall_mem_cons.1 heq
    obtain ⟨node, hnode, hstep⟩ := hc.1
    exact ⟨⟨node, hx.trans hnode, hstep⟩, ih hc.2 hl⟩

/-- A segment depends on its own nodes only. -/
theorem Seg.congr (hs : Seg h p l n) (heq : ∀ a ∈ addrs l, h' a = h a) : Seg h' p l n := by
  induction l generalizing p with
  | nil => trivial
  | cons x l ih =>
    obtain ⟨hx, hl⟩ := forall_mem_cons.1 heq
    exact ⟨hx.trans hs.1, ih hs.2 hl⟩

/-! ## Links -/

variable [DecidableEq A]

/-- `a->prev = p;` if there is an `a`. -/
def setPrev (h : Heap A α) : Option A → Option A → Heap A α
  | none, _ => h
  | some a, p => update h a ((h a).map fun node => { node with prev := p })

/-- `a->next = n;` if there is an `a`. -/
def setNext (h : Heap A α) : Option A → Option A → Heap A α
  | none, _ => h
  | some a, n => update h a ((h a).map fun node => { node with next := n })

theorem setPrev_of_ne {c : Option A} (hne : c ≠ some b) : setPrev h c p b = h b := by
  cases c with
  | none => rfl
  | some a => exact update_of_ne (fun heq => hne (congrArg some heq.symm)) _ _

theorem setNext_of_ne {c : Option A} (hne : c ≠ some b) : setNext h c n b = h b := by
  cases c with
  | none => rfl
  | some a => exact update_of_ne (fun heq => hne (congrArg some heq.symm)) _ _

/-- Relinking makes no node and removes none. -/
theorem setPrev_eq_none {c : Option A} : setPrev h c p b = none ↔ h b = none := by
  by_cases hc : c = some b
  · subst hc
    rw [setPrev, update_self, Option.map_eq_none_iff]
  · rw [setPrev_of_ne hc]

theorem setNext_eq_none {c : Option A} : setNext h c n b = none ↔ h b = none := by
  by_cases hc : c = some b
  · subst hc
    rw [setNext, update_self, Option.map_eq_none_iff]
  · rw [setNext_of_ne hc]

theorem Live.setPrev {c : Option A} (hc : Live h c) (d p : Option A) :
    Live (DoublyLinked.setPrev h d p) c := fun a ha hnone => hc a ha (setPrev_eq_none.1 hnone)

theorem Live.setNext {c : Option A} (hc : Live h c) (d n : Option A) :
    Live (DoublyLinked.setNext h d n) c := fun a ha hnone => hc a ha (setNext_eq_none.1 hnone)

theorem Live.update {c : Option A} (hc : Live h c) (node : Node A α) (b : A) :
    Live (Function.update h b (some node)) c := by
  intro a ha
  by_cases hab : a = b
  · subst hab
    rw [update_self]
    exact Option.some_ne_none node
  · rw [update_of_ne hab]
    exact hc a ha

/-- The first node is linked back to another place. -/
theorem Seg.setFirst (hs : Seg h p l n) (hl : (addrs l).Nodup) (p' : Option A) :
    Seg (setPrev h (first l none) p') p' l n := by
  cases l with
  | nil => trivial
  | cons x l =>
    obtain ⟨hx, -⟩ := nodup_cons.1 hl
    refine ⟨?_, hs.2.congr fun a ha => setPrev_of_ne ?_⟩
    · rw [first, setPrev, update_self, hs.1]
      rfl
    · rintro heq
      exact hx (Option.some.inj heq ▸ ha)

/-- The last node is linked on to another place. -/
theorem Seg.setLast (hs : Seg h p l n) (hl : (addrs l).Nodup) (n' : Option A) :
    Seg (setNext h (last l none) n') p l n' := by
  rcases eq_nil_or_concat' l with rfl | ⟨l, x, rfl⟩
  · trivial
  · rw [seg_snoc] at hs ⊢
    have hx : x.1 ∉ addrs l := by
      rw [addrs, map_append, nodup_append] at hl
      exact fun hx => hl.2.2 _ hx _ (mem_singleton_self _) rfl
    rw [last_snoc]
    refine ⟨hs.1.congr fun a ha => setNext_of_ne ?_, ?_⟩
    · rintro heq
      exact hx (Option.some.inj heq ▸ ha)
    · rw [setNext, update_self, hs.2]
      rfl

theorem setNext_setPrev (h : Heap A α) (a b p n : Option A) :
    setNext (setPrev h a p) b n = setPrev (setNext h b n) a p := by
  rcases a with _ | a
  · rfl
  rcases b with _ | b
  · rfl
  by_cases hab : a = b
  · subst hab
    simp only [setNext, setPrev, update_self, update_idem, Option.map_map]
    rfl
  · simp only [setNext, setPrev]
    rw [update_of_ne (Ne.symm hab), update_of_ne hab, update_comm hab]

/-! ## Edits -/

/-- Two segments are linked to each other. -/
theorem Seg.link (hs : Seg h p l n') (hs' : Seg h p' l' n) (hl : (addrs (l ++ l')).Nodup) :
    Seg (setPrev (setNext h (last l none) (first l' n)) (first l' none) (last l p)) p (l ++ l') n := by
  rw [addrs, map_append, nodup_append] at hl
  obtain ⟨hl1, hl2, hdisj⟩ := hl
  rw [seg_append]
  constructor
  · refine (hs.setLast hl1 _).congr fun a ha => setPrev_of_ne fun heq => ?_
    exact hdisj a ha a (first_mem heq) rfl
  · refine Seg.setFirst (hs'.congr fun a ha => setNext_of_ne fun heq => ?_) hl2 _
    exact hdisj a (last_mem heq) a ha rfl

/-- A new node goes between two segments. -/
theorem Seg.insert (hs : Seg h p l n') (hs' : Seg h p' l' n) (hl : (addrs (l ++ l')).Nodup)
    (hx : x.1 ∉ addrs (l ++ l')) :
    Seg (setPrev (setNext (update h x.1 (some ⟨last l p, first l' n, x.2⟩)) (last l none) (some x.1))
      (first l' none) (some x.1)) p (l ++ x :: l') n := by
  rw [addrs, map_append, mem_append, not_or] at hx
  rw [addrs, map_append, nodup_append] at hl
  obtain ⟨hl1, hl2, hdisj⟩ := hl
  have hnew : ∀ a ∈ addrs l ++ addrs l', update h x.1 (some ⟨last l p, first l' n, x.2⟩) a = h a := by
    intro a ha
    refine update_of_ne ?_ _ _
    rintro rfl
    exact (mem_append.1 ha).elim hx.1 hx.2
  rw [seg_append, Seg]
  refine ⟨?_, ?_, ?_⟩
  · have hseg := Seg.setLast (hs.congr fun a ha => hnew a (mem_append_left _ ha)) hl1 (some x.1)
    refine hseg.congr fun a ha => setPrev_of_ne fun heq => ?_
    exact hdisj a ha a (first_mem heq) rfl
  · rw [setPrev_of_ne fun heq => hx.2 (first_mem heq), setNext_of_ne fun heq => hx.1 (last_mem heq),
      update_self]
  · refine Seg.setFirst (hs'.congr fun a ha => ?_) hl2 _
    rw [setNext_of_ne fun heq => hdisj a (last_mem heq) a ha rfl]
    exact hnew a (mem_append_right _ ha)

end DoublyLinked
