import Mathlib.Data.List.Induction
import Mathlib.Data.Nat.Notation
import Mathlib.Tactic.Common

/-!
# Quoted literals in a text

A text is read left to right. A quote opens a literal, which runs to the next quote; two quotes in a row
inside a literal stand for one and do not end it. What is outside the literals is code. The reading is a
fold of a step function over the text.

A template puts texts between quotes as they are. It reads as it was meant exactly when none of these
texts has a quote.
-/

namespace Literal

variable {α : Type*}

/-- A piece of a text: code, or a literal with what it stands for. -/
inductive Piece (α : Type*)
  | code (t : List α)
  | literal (d : List α)
deriving DecidableEq, Repr

/-- Where the scan is: in code, in a literal, or behind a quote that ends a literal unless another one
follows. -/
inductive Mode (α : Type*)
  | code (t : List α)
  | literal (d : List α)
  | closing (d : List α)

/-- The pieces that are complete, and the one being read. -/
structure Scan (α : Type*) where
  pieces : List (Piece α)
  mode : Mode α

/-- Code in front of the next piece; there is no empty piece of code. -/
def addCode (ps : List (Piece α)) : List α → List (Piece α)
  | [] => ps
  | c :: t => ps ++ [.code (c :: t)]

/-- The pieces at the end of the text. A literal that is still open has no end. -/
def finish (s : Scan α) : Option (List (Piece α)) :=
  match s.mode with
  | .code t => some (addCode s.pieces t)
  | .literal _ => none
  | .closing d => some (s.pieces ++ [.literal d])

section

variable [DecidableEq α] (q : α)

/-- One character `c`, with `q` for the quote. -/
def step (s : Scan α) (c : α) : Scan α :=
  match s.mode with
  | .code t =>
    if c = q then ⟨addCode s.pieces t, .literal []⟩ else ⟨s.pieces, .code (t ++ [c])⟩
  | .literal d =>
    if c = q then ⟨s.pieces, .closing d⟩ else ⟨s.pieces, .literal (d ++ [c])⟩
  | .closing d =>
    if c = q then ⟨s.pieces, .literal (d ++ [q])⟩ else ⟨s.pieces ++ [.literal d], .code [c]⟩

/-- The pieces of a text read from the middle of a scan on. -/
def lexFrom (s : Scan α) (p : List α) : Option (List (Piece α)) := finish (p.foldl (step q) s)

/-- The pieces of a text. -/
def lex (p : List α) : Option (List (Piece α)) := lexFrom q ⟨[], .code []⟩ p

/-! ## Templates -/

/-- Code and a text between quotes, some times, and code at the end. -/
def render : List (List α × List α) → List α → List α
  | [], tail => tail
  | (u, w) :: fs, tail => u ++ q :: (w ++ q :: render fs tail)

end

/-- The pieces a template is meant to have. -/
def shape : List (List α × List α) → List α → List (Piece α)
  | [], tail => addCode [] tail
  | (u, w) :: fs, tail => .code u :: .literal w :: shape fs tail

/-- The code of a template: no quote, and some of it in front of each text. -/
structure IsTemplate (q : α) (fs : List (List α × List α)) (tail : List α) : Prop where
  code : ∀ f ∈ fs, f.1 ≠ [] ∧ q ∉ f.1
  tail : q ∉ tail

theorem IsTemplate.head?_render {q : α} {fs : List (List α × List α)} {tail : List α}
    (h : IsTemplate q fs tail) : (render q fs tail).head? ≠ some q := by
  rcases fs with _ | ⟨⟨u, w⟩, fs⟩
  · intro hq
    exact h.tail (List.mem_of_mem_head? hq)
  · obtain ⟨hne, hu⟩ := h.code (u, w) (List.mem_cons_self ..)
    obtain ⟨c, u, rfl⟩ := List.exists_cons_of_ne_nil hne
    intro hq
    exact hu (List.mem_of_mem_head? hq)

/-! ## Reading on -/

theorem prefix_addCode (ps : List (Piece α)) (t : List α) : ps <+: addCode ps t := by
  cases t with
  | nil => exact List.prefix_rfl
  | cons c t => exact List.prefix_append _ _

/-- What the pieces behind `ps` begin with. -/
theorem eq_of_append_singleton {ps rest : List (Piece α)} {x y : Piece α}
    (h : ps ++ [x] <+: ps ++ y :: rest) : y = x := by
  rw [List.prefix_append_right_inj, List.cons_prefix_cons] at h
  exact h.1.symm

section

variable [DecidableEq α] {q : α} {ps rest out : List (Piece α)} {d w p r x : List α}

theorem lexFrom_cons (s : Scan α) (c : α) (p : List α) :
    lexFrom q s (c :: p) = lexFrom q (step q s c) p := rfl

@[simp] theorem step_literal_quote : step q ⟨ps, .literal d⟩ q = ⟨ps, .closing d⟩ := if_pos rfl

theorem step_literal {c : α} (hc : c ≠ q) : step q ⟨ps, .literal d⟩ c = ⟨ps, .literal (d ++ [c])⟩ :=
  if_neg hc

@[simp] theorem step_closing_quote : step q ⟨ps, .closing d⟩ q = ⟨ps, .literal (d ++ [q])⟩ :=
  if_pos rfl

theorem step_closing {c : α} (hc : c ≠ q) :
    step q ⟨ps, .closing d⟩ c = ⟨ps ++ [.literal d], .code [c]⟩ := if_neg hc

theorem prefix_step (s : Scan α) (c : α) : s.pieces <+: (step q s c).pieces := by
  unfold step
  split <;> split_ifs
  · exact prefix_addCode _ _
  all_goals first | exact List.prefix_rfl | exact List.prefix_append _ _

/-- Complete pieces stay. -/
theorem prefix_of_lexFrom {s : Scan α} (h : lexFrom q s p = some out) : s.pieces <+: out := by
  induction p generalizing s with
  | nil =>
    rcases s with ⟨ps, _ | _ | _⟩
    · cases h
      exact prefix_addCode _ _
    · cases h
    · cases h
      exact List.prefix_append _ _
  | cons c p ih => exact (prefix_step s c).trans (ih h)

/-- Behind a closing quote code begins, unless the literal goes on with another quote. -/
theorem lexFrom_closing (hp : p.head? ≠ some q) :
    lexFrom q ⟨ps, .closing d⟩ p = lexFrom q ⟨ps ++ [.literal d], .code []⟩ p := by
  cases p with
  | nil => rfl
  | cons c p =>
    have hc : c ≠ q := fun heq => hp (by rw [List.head?_cons, heq])
    rw [lexFrom_cons, lexFrom_cons, step_closing hc]
    simp [step, hc]

/-- The literal being read is the next piece, and keeps what it has. -/
theorem literal_grows (p : List α) : ∀ d x : List α,
    (lexFrom q ⟨ps, .literal d⟩ p = some (ps ++ .literal x :: rest) → d <+: x) ∧
      (lexFrom q ⟨ps, .closing d⟩ p = some (ps ++ .literal x :: rest) → d <+: x) := by
  induction p with
  | nil =>
    intro d x
    refine ⟨fun h => (by cases h), fun h => ?_⟩
    have hpieces : ps ++ [.literal d] = ps ++ .literal x :: rest := Option.some.inj h
    simp only [List.append_cancel_left_eq, List.cons.injEq, Piece.literal.injEq] at hpieces
    obtain rfl : d = x := hpieces.1
    exact List.prefix_rfl
  | cons c p ih =>
    intro d x
    rw [lexFrom_cons, lexFrom_cons]
    by_cases hc : c = q
    · subst hc
      rw [step_literal_quote, step_closing_quote]
      exact ⟨(ih d x).2, fun h => (List.prefix_append d [c]).trans ((ih _ x).1 h)⟩
    · rw [step_literal hc, step_closing hc]
      refine ⟨fun h => (List.prefix_append d [c]).trans ((ih _ x).1 h), fun h => ?_⟩
      obtain rfl : x = d := Piece.literal.inj (eq_of_append_singleton (prefix_of_lexFrom h))
      exact List.prefix_rfl

/-- A literal ends at a quote that no other quote follows. -/
theorem eq_of_closing (hr : r.head? ≠ some q)
    (h : lexFrom q ⟨ps, .closing d⟩ r = some (ps ++ .literal x :: rest)) : x = d := by
  rw [lexFrom_closing hr] at h
  exact Piece.literal.inj (eq_of_append_singleton (prefix_of_lexFrom h))

theorem closing_ne (hr : r.head? ≠ some q) (hx : x ≠ []) :
    lexFrom q ⟨ps, .closing d⟩ r ≠ some (ps ++ .literal (d ++ x) :: rest) := by
  intro h
  exact hx (List.append_right_eq_self.1 (eq_of_closing hr h))

/-- A character that is no quote does not stand for one. -/
theorem literal_ne {c : α} (hc : c ≠ q) :
    lexFrom q ⟨ps, .literal d⟩ (c :: p) ≠ some (ps ++ .literal (d ++ q :: x) :: rest) := by
  intro h
  rw [lexFrom_cons, step_literal hc] at h
  have hgrows := (literal_grows p _ _).1 h
  rw [List.prefix_append_right_inj, List.cons_prefix_cons] at hgrows
  exact hc hgrows.1

/-- A literal that has lost a quote of the text it is made from never catches up with the text: of two
quotes in a row it keeps one, and at one alone it ends. -/
theorem literal_ne_of_lost (hr : r.head? ≠ some q) (w : List α) : ∀ (d : List α) (k : ℕ),
    lexFrom q ⟨ps, .literal d⟩ (w ++ q :: r)
      ≠ some (ps ++ .literal (d ++ q :: (List.replicate k q ++ w)) :: rest) := by
  induction w using List.twoStepInduction with
  | nil =>
    intro d k h
    rw [List.nil_append, lexFrom_cons, step_literal_quote] at h
    exact closing_ne hr (List.cons_ne_nil _ _) h
  | singleton c =>
    intro d k h
    by_cases hc : c = q
    · -- with the closing quote it is a pair, and the literal runs on into the code
      subst hc
      rw [List.cons_append, List.nil_append, lexFrom_cons, lexFrom_cons, step_literal_quote,
        step_closing_quote] at h
      have hrun : d ++ c :: (List.replicate k c ++ [c]) = (d ++ [c]) ++ c :: List.replicate k c := by
        rw [← List.replicate_succ', List.replicate_succ]
        simp
      rw [hrun] at h
      cases r with
      | nil => cases h
      | cons y r => exact literal_ne (fun hy => hr (by rw [hy, List.head?_cons])) h
    · exact literal_ne hc h
  | cons_cons c y w ih _ =>
    intro d k h
    by_cases hc : c = q
    · subst hc
      rw [List.cons_append, List.cons_append, lexFrom_cons, step_literal_quote] at h
      by_cases hy : y = c
      · subst hy
        have hmove : ∀ l : List α, List.replicate k y ++ y :: l = List.replicate (k + 1) y ++ l := by
          intro l
          rw [List.replicate_succ', List.append_assoc, List.singleton_append]
        have hpair : d ++ y :: (List.replicate k y ++ y :: y :: w)
            = (d ++ [y]) ++ y :: (List.replicate (k + 1) y ++ w) := by
          rw [hmove, List.append_assoc, List.singleton_append, ← hmove w]
          rfl
        rw [lexFrom_cons, step_closing_quote, hpair] at h
        exact ih (d ++ [y]) (k + 1) h
      · exact closing_ne (by simpa using hy) (List.cons_ne_nil _ _) h
    · exact literal_ne hc h

/-- A literal that stands for the text between its quotes has no quote. -/
theorem not_mem_of_literal (hr : r.head? ≠ some q)
    (h : lexFrom q ⟨ps, .literal d⟩ (w ++ q :: r) = some (ps ++ .literal (d ++ w) :: rest)) :
    q ∉ w := by
  induction w generalizing d with
  | nil => exact List.not_mem_nil
  | cons c w ih =>
    by_cases hc : c = q
    · exfalso
      subst hc
      rw [List.cons_append, lexFrom_cons, step_literal_quote] at h
      rcases w with _ | ⟨y, w⟩
      · rw [List.nil_append, lexFrom_cons, step_closing_quote] at h
        cases r with
        | nil => cases h
        | cons y r =>
          have hy : y ≠ c := fun hy => hr (by rw [hy, List.head?_cons])
          rw [lexFrom_cons, step_literal hy] at h
          have hlen := ((literal_grows r _ _).1 h).length_le
          simp at hlen
      · by_cases hy : y = c
        · subst hy
          rw [List.cons_append, lexFrom_cons, step_closing_quote] at h
          have hpair : d ++ y :: y :: w = (d ++ [y]) ++ y :: (List.replicate 0 y ++ w) := by simp
          rw [hpair] at h
          exact literal_ne_of_lost hr w (d ++ [y]) 0 h
        · exact closing_ne (by simpa using hy) (List.cons_ne_nil _ _) h
    · have hnext : d ++ c :: w = (d ++ [c]) ++ w := by simp
      rw [List.cons_append, lexFrom_cons, step_literal hc, hnext] at h
      exact List.not_mem_cons_of_ne_of_not_mem (Ne.symm hc) (ih h)

/-! ## Reading a template -/

/-- Characters that are no quote, in code and in a literal. -/
theorem lexFrom_append {M : List α → Mode α}
    (hM : ∀ (d : List α) (c : α), c ≠ q → step q ⟨ps, M d⟩ c = ⟨ps, M (d ++ [c])⟩) (hw : q ∉ w) :
    lexFrom q ⟨ps, M d⟩ (w ++ p) = lexFrom q ⟨ps, M (d ++ w)⟩ p := by
  induction w generalizing d with
  | nil => simp
  | cons c w ih =>
    rw [List.mem_cons, not_or] at hw
    obtain ⟨hc, hw⟩ := hw
    rw [List.cons_append, lexFrom_cons, hM d c (Ne.symm hc), ih hw, List.append_assoc,
      List.singleton_append]

theorem lexFrom_code_append (hw : q ∉ w) :
    lexFrom q ⟨ps, .code d⟩ (w ++ p) = lexFrom q ⟨ps, .code (d ++ w)⟩ p :=
  lexFrom_append (fun _ _ hc => if_neg hc) hw

theorem lexFrom_literal_append (hw : q ∉ w) :
    lexFrom q ⟨ps, .literal d⟩ (w ++ p) = lexFrom q ⟨ps, .literal (d ++ w)⟩ p :=
  lexFrom_append (fun _ _ hc => if_neg hc) hw

/-- A template reads as it is meant exactly when no text in it has a quote. -/
theorem lexFrom_render_iff {fs : List (List α × List α)} {tail : List α} (h : IsTemplate q fs tail)
    (ps : List (Piece α)) :
    lexFrom q ⟨ps, .code []⟩ (render q fs tail) = some (ps ++ shape fs tail) ↔
      ∀ f ∈ fs, q ∉ f.2 := by
  induction fs generalizing ps with
  | nil =>
    have htail : lexFrom q ⟨ps, .code []⟩ (tail ++ []) = lexFrom q ⟨ps, .code ([] ++ tail)⟩ [] :=
      lexFrom_code_append h.tail
    rw [List.append_nil, List.nil_append] at htail
    have hshape : lexFrom q ⟨ps, .code tail⟩ [] = some (ps ++ shape [] tail) := by
      cases tail <;> simp [lexFrom, finish, shape, addCode]
    simp [render, htail, hshape]
  | cons f fs ih =>
    obtain ⟨u, w⟩ := f
    obtain ⟨hne, hu⟩ := h.code (u, w) (List.mem_cons_self ..)
    have hrest : IsTemplate q fs tail := ⟨fun f hf => h.code f (List.mem_cons_of_mem _ hf), h.tail⟩
    -- the code in front of the literal
    have hstep : step q ⟨ps, .code u⟩ q = ⟨ps ++ [.code u], .literal []⟩ := by
      obtain ⟨c, u, rfl⟩ := List.exists_cons_of_ne_nil hne
      exact if_pos rfl
    have hopen : lexFrom q ⟨ps, .code []⟩ (render q ((u, w) :: fs) tail)
        = lexFrom q ⟨ps ++ [.code u], .literal []⟩ (w ++ q :: render q fs tail) := by
      rw [render, lexFrom_code_append hu, lexFrom_cons, List.nil_append, hstep]
    have hshape : ps ++ shape ((u, w) :: fs) tail
        = (ps ++ [.code u]) ++ .literal ([] ++ w) :: shape fs tail := by
      simp [shape]
    have hnext : (ps ++ [.code u]) ++ .literal ([] ++ w) :: shape fs tail
        = ((ps ++ [.code u]) ++ [.literal ([] ++ w)]) ++ shape fs tail := List.append_cons ..
    rw [hopen, hshape]
    constructor
    · intro hlex
      have hw := not_mem_of_literal hrest.head?_render hlex
      rw [lexFrom_literal_append hw, lexFrom_cons, step_literal_quote,
        lexFrom_closing hrest.head?_render, hnext] at hlex
      exact List.forall_mem_cons.2 ⟨hw, (ih hrest _).1 hlex⟩
    · intro hfs
      obtain ⟨hw, hfs⟩ := List.forall_mem_cons.1 hfs
      rw [lexFrom_literal_append hw, lexFrom_cons, step_literal_quote,
        lexFrom_closing hrest.head?_render, hnext]
      exact (ih hrest _).2 hfs

theorem lex_render_iff {fs : List (List α × List α)} {tail : List α} (h : IsTemplate q fs tail) :
    lex q (render q fs tail) = some (shape fs tail) ↔ ∀ f ∈ fs, q ∉ f.2 :=
  lexFrom_render_iff h []

end

end Literal
