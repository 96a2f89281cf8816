import Mathlib.Algebra.Group.Basic
import Mathlib.Tactic.Common

/-!
# Runs of a machine whose steps can fail

`Run.run` feeds a list of inputs to a step function and collects the outputs; the first error ends
the run. Three rules carry a fact about one step to whole runs: an invariant that may speak of the
inputs so far (`ends_run`), a condition on the steps that a run has taken (`Along`), and a
simulation of a machine that cannot fail, where what a step assumes may depend on the state that the
abstract machine has reached (`simulation_run`) or that the machine itself has (`simulation_along`).
-/

namespace Run

variable {σ ι ο ε α : Type*}

/-- The parts of a computation that returns. -/
theorem bind_eq_ok.{u, v} {ε : Type u} {α β : Type v} {x : Except ε α} {f : α → Except ε β} {b : β}
    (h : (x >>= f) = .ok b) : ∃ a, x = .ok a ∧ f a = .ok b := by
  cases x with
  | error e => cases h
  | ok a => exact ⟨a, rfl, h⟩

theorem ok_bind.{u, v} {ε : Type u} {α β : Type v} (a : α) (f : α → Except ε β) :
    (Except.ok a >>= f) = f a := rfl

/-- Feed the inputs one by one and collect the outputs. -/
def run (step : σ → ι → Except ε (σ × ο)) : σ → List ι → Except ε (σ × List ο)
  | s, [] => pure (s, [])
  | s, i :: is => do
    let (s, o) ← step s i
    let (s, os) ← run step s is
    pure (s, o :: os)

/-- The result has `P`, or the error has `Q`. -/
def Ends (P : α → Prop) (Q : ε → Prop) : Except ε α → Prop
  | .ok a => P a
  | .error e => Q e

@[simp] theorem ends_map {β : Type*} {P : β → Prop} {Q : ε → Prop} {x : Except ε α} {f : α → β} :
    Ends P Q (x.map f) ↔ Ends (fun a => P (f a)) Q x := by
  cases x with
  | error e => exact Iff.rfl
  | ok a => exact Iff.rfl

-- so that what a concrete run ends with can be decided
instance decidableEnds {P : α → Prop} {Q : ε → Prop} [∀ a, Decidable (P a)] [∀ e, Decidable (Q e)] :
    ∀ x : Except ε α, Decidable (Ends P Q x)
  | .ok a => inferInstanceAs (Decidable (P a))
  | .error e => inferInstanceAs (Decidable (Q e))

variable {step : σ → ι → Except ε (σ × ο)}

@[simp] theorem run_nil (s : σ) : run step s [] = .ok (s, []) := rfl

theorem exists_of_ends {P : σ → List ο → Prop} {s : σ} {is : List ι}
    (h : Ends (fun r => P r.1 r.2) (fun _ => False) (run step s is)) :
    ∃ s' os, run step s is = .ok (s', os) ∧ P s' os := by
  rcases hrun : run step s is with e | ⟨s', os⟩
  · rw [hrun] at h
    exact h.elim
  · rw [hrun] at h
    exact ⟨s', os, rfl, h⟩

theorem run_cons_ok {s s' : σ} {i : ι} {o : ο} (h : step s i = .ok (s', o)) (is : List ι) :
    run step s (i :: is) = (run step s' is).map fun r => (r.1, o :: r.2) := by
  simp only [run, h, bind, Except.bind]
  cases run step s' is <;> rfl

theorem run_cons_error {s : σ} {i : ι} {e : ε} (h : step s i = .error e) (is : List ι) :
    run step s (i :: is) = .error e := by
  simp only [run, h, bind, Except.bind]

/-- A run whose inputs are read as others. -/
theorem run_map {κ : Type*} (f : κ → ι) (s : σ) (is : List κ) :
    run step s (is.map f) = run (fun s i => step s (f i)) s is := by
  induction is generalizing s with
  | nil => rfl
  | cons i is ih =>
    simp only [List.map_cons, run, ih]

/-- A run over one more input. -/
theorem run_snoc {s s' s'' : σ} {is : List ι} {os : List ο} {i : ι} {o : ο}
    (h : run step s is = .ok (s', os)) (hi : step s' i = .ok (s'', o)) :
    run step s (is ++ [i]) = .ok (s'', os ++ [o]) := by
  induction is generalizing s os with
  | nil =>
    cases h
    rw [List.nil_append, run_cons_ok hi]
    rfl
  | cons j is ih =>
    rcases hj : step s j with e | ⟨s1, o1⟩
    · rw [run_cons_error hj] at h
      cases h
    · rw [run_cons_ok hj] at h
      rcases hrest : run step s1 is with e | ⟨s2, os'⟩
      · rw [hrest] at h
        cases h
      · rw [hrest] at h
        cases h
        rw [List.cons_append, run_cons_ok hj, ih hrest]
        rfl

/-- A run that ends well passed through its first step. -/
theorem run_cons_eq_ok {s s' : σ} {i : ι} {is : List ι} {os : List ο}
    (h : run step s (i :: is) = .ok (s', os)) :
    ∃ s1 o os', step s i = .ok (s1, o) ∧ run step s1 is = .ok (s', os') ∧ os = o :: os' := by
  rcases hi : step s i with e | ⟨s1, o⟩
  · rw [run_cons_error hi] at h
    cases h
  · rw [run_cons_ok hi] at h
    rcases hrest : run step s1 is with e | ⟨s2, os'⟩
    · rw [hrest] at h
      cases h
    · rw [hrest] at h
      cases h
      exact ⟨s1, o, os', rfl, hrest, rfl⟩

/-! ## Invariants -/

/-- What one step preserves, or fails with, a run preserves or fails with. The invariant may speak
of the inputs taken so far. -/
theorem ends_run (Inv : List ι → σ → Prop) {Q : ε → Prop}
    (hstep : ∀ past s i, Inv past s → Ends (fun r => Inv (past ++ [i]) r.1) Q (step s i))
    (is : List ι) (past : List ι) (s : σ) (h : Inv past s) :
    Ends (fun r => Inv (past ++ is) r.1) Q (run step s is) := by
  induction is generalizing past s with
  | nil => simpa [Ends] using h
  | cons i is ih =>
    have hi := hstep past s i h
    rcases hs : step s i with e | ⟨s1, o⟩
    · rw [hs] at hi
      rw [run_cons_error hs]
      exact hi
    · rw [hs] at hi
      have hrest := ih (past ++ [i]) s1 hi
      rw [List.append_assoc, List.singleton_append] at hrest
      rw [run_cons_ok hs]
      exact ends_map.2 hrest

/-- If every step on an admitted input succeeds, keeps the invariant and puts out something with `P`,
so does every run. -/
theorem ok_run_outs (Inv : σ → Prop) (P : ο → Prop) {C : ι → Prop}
    (hstep : ∀ s i, Inv s → C i → ∃ s' o, step s i = .ok (s', o) ∧ Inv s' ∧ P o) {is : List ι}
    {s : σ} (hC : ∀ i ∈ is, C i) (h : Inv s) :
    ∃ s' os, run step s is = .ok (s', os) ∧ Inv s' ∧ ∀ o ∈ os, P o := by
  induction is generalizing s with
  | nil => exact ⟨s, [], rfl, h, fun o ho => absurd ho List.not_mem_nil⟩
  | cons i is ih =>
    obtain ⟨s1, o, hi, h1, ho⟩ := hstep s i h (hC i (List.mem_cons_self ..))
    obtain ⟨s', os, hrest, h', hos⟩ := ih (fun j hj => hC j (List.mem_cons_of_mem i hj)) h1
    refine ⟨s', o :: os, ?_, h', List.forall_mem_cons.2 ⟨ho, hos⟩⟩
    rw [run_cons_ok hi, hrest]
    rfl

/-- If every step on an admitted input succeeds and keeps the invariant, so does every run. -/
theorem ok_run (Inv : σ → Prop) {C : ι → Prop}
    (hstep : ∀ s i, Inv s → C i → ∃ s' o, step s i = .ok (s', o) ∧ Inv s') {is : List ι} {s : σ}
    (hC : ∀ i ∈ is, C i) (h : Inv s) : ∃ s' os, run step s is = .ok (s', os) ∧ Inv s' := by
  have hstep' : ∀ s i, Inv s → C i → ∃ s' o, step s i = .ok (s', o) ∧ Inv s' ∧ True := by
    intro s i hs hi
    obtain ⟨s', o, hok, h'⟩ := hstep s i hs hi
    exact ⟨s', o, hok, h', trivial⟩
  obtain ⟨s', os, hrun, h', -⟩ := ok_run_outs Inv (fun _ => True) hstep' hC h
  exact ⟨s', os, hrun, h'⟩

/-- An invariant of the steps holds at the end of a run. -/
theorem inv_of_run (Inv : σ → Prop) (hstep : ∀ s i s' o, Inv s → step s i = .ok (s', o) → Inv s')
    {is : List ι} {s s' : σ} {os : List ο} (h : Inv s) (hrun : run step s is = .ok (s', os)) :
    Inv s' := by
  induction is generalizing s os with
  | nil =>
    cases hrun
    exact h
  | cons i is ih =>
    obtain ⟨s1, o, os', hi, hrest, -⟩ := run_cons_eq_ok hrun
    exact ih (hstep s i s1 o h hi) hrest

/-- Every step that a run takes meets `C` in the state it is taken in. -/
def Along (step : σ → ι → Except ε (σ × ο)) (C : σ → ι → Prop) : σ → List ι → Prop
  | _, [] => True
  | s, i :: is => C s i ∧ ∀ s' o, step s i = .ok (s', o) → Along step C s' is

-- the steps are computed once, so a condition along a concrete run can be decided
instance decidableAlong (C : σ → ι → Prop) [∀ s i, Decidable (C s i)] :
    ∀ (s : σ) (is : List ι), Decidable (Along step C s is)
  | _, [] => .isTrue trivial
  | s, i :: is =>
    match h : step s i with
    | .error _ => decidable_of_iff (C s i) (by simp [Along, h])
    | .ok r =>
      have := decidableAlong C r.1 is
      decidable_of_iff (C s i ∧ Along step C r.1 is) (by simp [Along, h, Prod.ext_iff])

theorem along_cons_ok {C : σ → ι → Prop} {s s' : σ} {i : ι} {o : ο} (h : step s i = .ok (s', o))
    {is : List ι} : Along step C s (i :: is) ↔ C s i ∧ Along step C s' is := by
  simp [Along, h]

/-- Every state of a run has `P`, the first and the last included. -/
def Throughout (step : σ → ι → Except ε (σ × ο)) (P : σ → Prop) : σ → List ι → Prop
  | s, [] => P s
  | s, i :: is => P s ∧ ∀ s' o, step s i = .ok (s', o) → Throughout step P s' is

theorem Throughout.head {P : σ → Prop} {s : σ} {is : List ι} (h : Throughout step P s is) : P s := by
  cases is with
  | nil => exact h
  | cons i is => exact h.1

-- as for `Along`
instance decidableThroughout (P : σ → Prop) [∀ s, Decidable (P s)] :
    ∀ (s : σ) (is : List ι), Decidable (Throughout step P s is)
  | s, [] => inferInstanceAs (Decidable (P s))
  | s, i :: is =>
    match h : step s i with
    | .error _ => decidable_of_iff (P s) (by simp [Throughout, h])
    | .ok r =>
      have := decidableThroughout P r.1 is
      decidable_of_iff (P s ∧ Throughout step P r.1 is) (by simp [Throughout, h, Prod.ext_iff])

/-- Along a run whose steps all meet `C` and whose states all have `P`, if such steps succeed and keep
an invariant of the inputs so far, then so does the run. -/
theorem ok_run_along {C : σ → ι → Prop} {P : σ → Prop} (Inv : List ι → σ → Prop)
    (hstep : ∀ past s i, P s → C s i → Inv past s →
      ∃ s' o, step s i = .ok (s', o) ∧ (P s' → Inv (past ++ [i]) s'))
    {is : List ι} {s : σ} (hC : Along step C s is) (hP : Throughout step P s is) (past : List ι)
    (h : Inv past s) : ∃ s' os, run step s is = .ok (s', os) ∧ P s' ∧ Inv (past ++ is) s' := by
  induction is generalizing past s with
  | nil => exact ⟨s, [], rfl, hP, by rwa [List.append_nil]⟩
  | cons i is ih =>
    obtain ⟨s1, o, hi, h1⟩ := hstep past s i hP.1 hC.1 h
    have hP1 := hP.2 s1 o hi
    obtain ⟨s', os, hrest, hP', h'⟩ := ih (hC.2 s1 o hi) hP1 (past ++ [i]) (h1 hP1.head)
    refine ⟨s', o :: os, ?_, hP', by rwa [List.append_assoc] at h'⟩
    rw [run_cons_ok hi, hrest]
    rfl

/-- The same where the invariant is kept whatever the next state is. -/
theorem ok_run_throughout {C : σ → ι → Prop} {P : σ → Prop} (Inv : List ι → σ → Prop)
    (hstep : ∀ past s i, P s → C s i → Inv past s →
      ∃ s' o, step s i = .ok (s', o) ∧ Inv (past ++ [i]) s')
    {is : List ι} {s : σ} (hC : Along step C s is) (hP : Throughout step P s is) (past : List ι)
    (h : Inv past s) : ∃ s' os, run step s is = .ok (s', os) ∧ P s' ∧ Inv (past ++ is) s' := by
  have hstep' : ∀ past s i, P s → C s i → Inv past s →
      ∃ s' o, step s i = .ok (s', o) ∧ (P s' → Inv (past ++ [i]) s') := by
    intro past s i hs hi hinv
    obtain ⟨s', o, hok, h'⟩ := hstep past s i hs hi hinv
    exact ⟨s', o, hok, fun _ => h'⟩
  exact ok_run_along Inv hstep' hC hP past h

/-- An invariant of the steps that meet `C` holds at the end of a run whose steps all do. -/
theorem inv_of_along {C : σ → ι → Prop} (Inv : σ → Prop)
    (hstep : ∀ s i s' o, Inv s → C s i → step s i = .ok (s', o) → Inv s')
    {is : List ι} {s s' : σ} {os : List ο} (hC : Along step C s is) (h : Inv s)
    (hrun : run step s is = .ok (s', os)) : Inv s' := by
  induction is generalizing s os with
  | nil =>
    cases hrun
    exact h
  | cons i is ih =>
    obtain ⟨s1, o, os', hi, hrest, -⟩ := run_cons_eq_ok hrun
    exact ih (hC.2 s1 o hi) (hstep s i s1 o h hC.1 hi) hrest

/-- If every step that meets `C` succeeds and keeps an invariant, so does a run whose steps all do. -/
theorem ok_of_along {C : σ → ι → Prop} (Inv : σ → Prop)
    (hstep : ∀ s i, Inv s → C s i → ∃ s' o, step s i = .ok (s', o) ∧ Inv s') {is : List ι} {s : σ}
    (hC : Along step C s is) (h : Inv s) : ∃ s' os, run step s is = .ok (s', os) ∧ Inv s' := by
  induction is generalizing s with
  | nil => exact ⟨s, [], rfl, h⟩
  | cons i is ih =>
    obtain ⟨s1, o, hi, h1⟩ := hstep s i h hC.1
    obtain ⟨s', os, hrest, h'⟩ := ih (hC.2 s1 o hi) h1
    refine ⟨s', o :: os, ?_, h'⟩
    rw [run_cons_ok hi, hrest]
    rfl

/-- Conditions that agree wherever an invariant holds agree along whole runs, when the steps that
meet them keep the invariant. -/
theorem along_iff {C D : σ → ι → Prop} (Inv : σ → Prop) (hiff : ∀ s i, Inv s → (C s i ↔ D s i))
    (hstep : ∀ s i s' o, Inv s → D s i → step s i = .ok (s', o) → Inv s') {is : List ι} {s : σ}
    (h : Inv s) : Along step C s is ↔ Along step D s is := by
  induction is generalizing s with
  | nil => exact Iff.rfl
  | cons i is ih =>
    rw [Along, Along, hiff s i h]
    apply and_congr_right
    intro hD
    exact forall₃_congr fun s' o hok => ih (hstep s i s' o h hD hok)

/-! ## What a run makes of the inputs before it -/

variable {ρ : Type*}

/-- Each output is right for its input, read as an `r`, and for the readings before it. -/
inductive Outs (Out : List ρ → ρ → ο → Prop) : List ρ → List ρ → List ο → Prop
  | nil {past : List ρ} : Outs Out past [] []
  | cons {past : List ρ} {r : ρ} {rs : List ρ} {o : ο} {os : List ο} (ho : Out past r o)
      (hos : Outs Out (past ++ [r]) rs os) : Outs Out past (r :: rs) (o :: os)

/-- What holds at every place of a list, of the element there and of those before it. -/
theorem forall_split_cons {P : List ρ → ρ → Prop} {r : ρ} {rs : List ρ} :
    (∀ past x rest, r :: rs = past ++ x :: rest → P past x) ↔
      P [] r ∧ ∀ past x rest, rs = past ++ x :: rest → P (r :: past) x := by
  constructor
  · intro h
    exact ⟨h [] r rs rfl, fun past x rest heq => h (r :: past) x rest (by rw [heq, List.cons_append])⟩
  · rintro ⟨hr, hrs⟩ past x rest heq
    rcases past with _ | ⟨y, past⟩
    · obtain ⟨rfl, -⟩ := List.cons.inj heq
      exact hr
    · obtain ⟨rfl, htail⟩ := List.cons.inj heq
      exact hrs past x rest htail

/-- If a right output has `A` exactly when its input has `B` after those before it, all outputs have
`A` exactly when all inputs have `B`. -/
theorem Outs.forall_mem_iff {Out : List ρ → ρ → ο → Prop} {A : ο → Prop} {B : List ρ → ρ → Prop}
    {rs : List ρ} {os : List ο} (h : Outs Out [] rs os)
    (hiff : ∀ past r o, Out past r o → (A o ↔ B past r)) :
    (∀ o ∈ os, A o) ↔ ∀ past r rest, rs = past ++ r :: rest → B past r := by
  have hfrom : ∀ {past : List ρ} {rs : List ρ} {os : List ο}, Outs Out past rs os →
      ((∀ o ∈ os, A o) ↔ ∀ past' r rest, rs = past' ++ r :: rest → B (past ++ past') r) := by
    intro past rs os h
    induction h with
    | nil => simp
    | @cons past r rs o os ho _ ih =>
      rw [List.forall_mem_cons, hiff past r o ho, ih,
        forall_split_cons (P := fun past' => B (past ++ past'))]
      simp
  simpa using hfrom h

/-- A run of inputs that can be read keeps an invariant of the readings so far, and every output is
right for the readings before it. -/
theorem history_run (Inv : List ρ → σ → Prop) (Out : List ρ → ρ → ο → Prop) {R : ι → ρ → Prop}
    (hstep : ∀ past s i r s' o, Inv past s → R i r → step s i = .ok (s', o) →
      Inv (past ++ [r]) s' ∧ Out past r o) {is : List ι} {rs : List ρ} (hR : List.Forall₂ R is rs)
    {past : List ρ} {s s' : σ} {os : List ο} (h : Inv past s)
    (hrun : run step s is = .ok (s', os)) : Inv (past ++ rs) s' ∧ Outs Out past rs os := by
  induction hR generalizing past s os with
  | nil =>
    cases hrun
    exact ⟨by rwa [List.append_nil], .nil⟩
  | @cons i r is rs hi _ ih =>
    obtain ⟨s1, o, os', hok, hrest, rfl⟩ := run_cons_eq_ok hrun
    obtain ⟨h1, ho⟩ := hstep past s i r s1 o h hi hok
    obtain ⟨h', hos⟩ := ih h1 hrest
    rw [List.append_assoc, List.singleton_append] at h'
    exact ⟨h', .cons ho hos⟩

/-! ## Simulation of a machine that cannot fail -/

/-- The run of the abstract machine. -/
def arun (astep : α → ι → α × ο) : α → List ι → α × List ο
  | a, [] => (a, [])
  | a, i :: is =>
    let (a, o) := astep a i
    let (a, os) := arun astep a is
    (a, o :: os)

/-- What every step assumes holds along the abstract run. -/
def Admissible (astep : α → ι → α × ο) (C : α → ι → Prop) : α → List ι → Prop
  | _, [] => True
  | a, i :: is => C a i ∧ Admissible astep C (astep a i).1 is

theorem arun_append_fst {astep : α → ι → α × ο} (a : α) (is js : List ι) :
    (arun astep a (is ++ js)).1 = (arun astep (arun astep a is).1 js).1 := by
  induction is generalizing a with
  | nil => rfl
  | cons i is ih => exact ih (astep a i).1

theorem length_arun {astep : α → ι → α × ο} (a : α) (is : List ι) :
    (arun astep a is).2.length = is.length := by
  induction is generalizing a with
  | nil => rfl
  | cons i is ih => exact congrArg (· + 1) (ih (astep a i).1)

theorem admissible_append {astep : α → ι → α × ο} {C : α → ι → Prop} {a : α} {is js : List ι} :
    Admissible astep C a (is ++ js) ↔
      Admissible astep C a is ∧ Admissible astep C (arun astep a is).1 js := by
  induction is generalizing a with
  | nil => simp [Admissible, arun]
  | cons i is ih =>
    rw [List.cons_append, Admissible, Admissible, ih, and_assoc]
    rfl

/-- If each step of the machine succeeds, stays related to the step of the abstract machine and puts
out the same, then so does each run. -/
theorem simulation_run {astep : α → ι → α × ο} {C : α → ι → Prop} (R : σ → α → Prop)
    (hstep : ∀ s a i, R s a → C a i →
      ∃ s', step s i = .ok (s', (astep a i).2) ∧ R s' (astep a i).1)
    {is : List ι} {s : σ} {a : α} (hC : Admissible astep C a is) (h : R s a) :
    ∃ s', run step s is = .ok (s', (arun astep a is).2) ∧ R s' (arun astep a is).1 := by
  induction is generalizing s a with
  | nil => exact ⟨s, rfl, h⟩
  | cons i is ih =>
    obtain ⟨s1, hi, h1⟩ := hstep s a i h hC.1
    obtain ⟨s', hrest, h'⟩ := ih hC.2 h1
    refine ⟨s', ?_, h'⟩
    rw [run_cons_ok hi, hrest]
    rfl

/-- The same where what a step assumes is a condition on the machine's own state. -/
theorem simulation_along {astep : α → ι → α × ο} {C : σ → ι → Prop} (R : σ → α → Prop)
    (hstep : ∀ s a i, R s a → C s i →
      ∃ s', step s i = .ok (s', (astep a i).2) ∧ R s' (astep a i).1)
    {is : List ι} {s : σ} {a : α} (hC : Along step C s is) (h : R s a) :
    ∃ s', run step s is = .ok (s', (arun astep a is).2) ∧ R s' (arun astep a is).1 := by
  induction is generalizing s a with
  | nil => exact ⟨s, rfl, h⟩
  | cons i is ih =>
    obtain ⟨s1, hi, h1⟩ := hstep s a i h hC.1
    obtain ⟨s', hrest, h'⟩ := ih (hC.2 s1 _ hi) h1
    refine ⟨s', ?_, h'⟩
    rw [run_cons_ok hi, hrest]
    rfl

end Run
