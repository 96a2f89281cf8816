import Mathlib.Data.List.Infix
import Mathlib.Tactic.Common

/-!
# Splitting at a separator of any length

`Splits sep s ts` says that `ts` is what a reader finds between the separators of `s` who goes from
left to right and takes each separator where it first can. There is one such list; joined with the
separator it gives `s` back, and a joined list splits into itself when no separator starts inside one
of its members, not even one that ends in the separator behind it.
-/

namespace Splitting

open List

variable {α : Type*}

/-- No separator starts at one of the first `n` positions. -/
def FreeBelow (sep : List α) (n : ℕ) (l : List α) : Prop := ∀ j < n, ¬ sep <+: l.drop j

inductive Splits (sep : List α) : List α → List (List α) → Prop
  | last {s : List α} (free : FreeBelow sep s.length s) : Splits sep s [s]
  | cons {t s : List α} {ts : List (List α)} (free : FreeBelow sep t.length (t ++ (sep ++ s)))
      (rest : Splits sep s ts) : Splits sep (t ++ (sep ++ s)) (t :: ts)

variable {sep s t : List α} {ts ts' : List (List α)} {n : ℕ}

theorem FreeBelow.of_append {l l' : List α} (h : FreeBelow sep n (l ++ l')) : FreeBelow sep n l := by
  intro j hj hpre
  refine h j hj (hpre.trans ?_)
  rw [drop_append]
  exact prefix_append ..

theorem Splits.ne_nil (h : Splits sep s ts) : ts ≠ [] := by
  cases h with
  | last free => exact cons_ne_nil _ _
  | cons free rest => exact cons_ne_nil _ _

/-- Joined with the separator, the tokens are the string. -/
theorem Splits.intercalate_eq (h : Splits sep s ts) : sep.intercalate ts = s := by
  induction h with
  | last free => exact intercalate_singleton
  | @cons t s ts free rest ih =>
    obtain ⟨t', ts, rfl⟩ := exists_cons_of_ne_nil rest.ne_nil
    rw [intercalate_cons_cons, ih, append_assoc]

/-- No token contains the separator. -/
theorem Splits.freeBelow (h : Splits sep s ts) (ht : t ∈ ts) : FreeBelow sep t.length t := by
  induction h with
  | last free =>
    rw [mem_singleton] at ht
    exact ht ▸ free
  | cons free rest ih =>
    rcases mem_cons.1 ht with rfl | ht
    · exact free.of_append
    · exact ih ht

/-- The first separator of a string has one place. -/
theorem eq_of_freeBelow {t' s' : List α} (h : t ++ (sep ++ s) = t' ++ (sep ++ s'))
    (ht : FreeBelow sep t.length (t ++ (sep ++ s)))
    (ht' : FreeBelow sep t'.length (t' ++ (sep ++ s'))) : t = t' ∧ s = s' := by
  have hat : ∀ {t s : List α}, sep <+: (t ++ (sep ++ s)).drop t.length := by
    intro t s
    rw [drop_left]
    exact prefix_append ..
  have hlength : t.length = t'.length := by
    apply le_antisymm
    · exact Nat.not_lt.1 fun hlt => ht _ hlt (h ▸ hat)
    · exact Nat.not_lt.1 fun hlt => ht' _ hlt (h ▸ hat)
  obtain ⟨htt, hss⟩ := append_inj h hlength
  exact ⟨htt, append_cancel_left hss⟩

theorem Splits.unique (hsep : sep ≠ []) (h : Splits sep s ts) (h' : Splits sep s ts') : ts = ts' := by
  have hlast : ∀ {t s : List α}, ¬ FreeBelow sep (t ++ (sep ++ s)).length (t ++ (sep ++ s)) := by
    intro t s hfree
    refine hfree t.length ?_ ?_
    · have := length_pos_iff.2 hsep
      rw [length_append, length_append]
      omega
    · rw [drop_left]
      exact prefix_append ..
  induction h generalizing ts' with
  | @last s free =>
    generalize hs : s = s' at h'
    cases h' with
    | last free' => rfl
    | cons free' rest' => exact absurd (hs ▸ free) hlast
  | @cons t s ts free rest ih =>
    generalize hs : t ++ (sep ++ s) = s' at h'
    cases h' with
    | last free' => exact absurd (hs.symm ▸ free') hlast
    | cons free' rest' =>
      obtain ⟨rfl, rfl⟩ := eq_of_freeBelow hs free free'
      rw [ih rest']

end Splitting
