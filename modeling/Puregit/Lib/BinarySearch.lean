import Mathlib.Order.Lattice
import Mathlib.Tactic.Ring

/-! # Binary search over a table

`search row needle fuel lo hi` looks for `needle` among the rows from `lo` up to `hi`,
which halve at every step; `hi - lo` steps are enough.  What it finds is there, whether
the table is sorted or not; what a sorted table holds, it finds.
-/
namespace Puregit
namespace BinarySearch

variable {α : Type} [LinearOrder α]

/-- A row between `lo` and `hi` that holds `needle`. -/
def search (row : Nat → α) (needle : α) : Nat → Nat → Nat → Option Nat
  | 0, _, _ => none
  | fuel + 1, lo, hi =>
    if lo < hi then
      let mid := (lo + hi) / 2
      if row mid < needle then search row needle fuel (mid + 1) hi
      else if needle < row mid then search row needle fuel lo mid
      else some mid
    else none

variable {row : Nat → α} {needle : α}

/-- **What is found is there.** -/
theorem search_sound {fuel lo hi i : Nat} (h : search row needle fuel lo hi = some i) :
    lo ≤ i ∧ i < hi ∧ row i = needle := by
  induction fuel generalizing lo hi with
  | zero => cases h
  | succ fuel ih =>
    unfold search at h
    by_cases hlt : lo < hi
    · rw [if_pos hlt] at h
      simp only at h
      by_cases hless : row ((lo + hi) / 2) < needle
      · rw [if_pos hless] at h
        obtain ⟨hlo, hhi, hrow⟩ := ih h
        exact ⟨by omega, hhi, hrow⟩
      rw [if_neg hless] at h
      by_cases hgreater : needle < row ((lo + hi) / 2)
      · rw [if_pos hgreater] at h
        obtain ⟨hlo, hhi, hrow⟩ := ih h
        exact ⟨hlo, by omega, hrow⟩
      · rw [if_neg hgreater] at h
        cases h
        exact ⟨by omega, by omega, le_antisymm (not_lt.mp hgreater) (not_lt.mp hless)⟩
    · rw [if_neg hlt] at h
      cases h

/-- **What a sorted table holds is found.** -/
theorem search_complete {fuel lo hi i : Nat} (hsorted : ∀ a b, a < b → b < hi → row a < row b)
    (hlo : lo ≤ i) (hhi : i < hi) (hrow : row i = needle) (hfuel : hi - lo ≤ fuel) :
    search row needle fuel lo hi = some i := by
  induction fuel generalizing lo hi with
  | zero => omega
  | succ fuel ih =>
    rw [search, if_pos (by omega : lo < hi)]
    simp only
    by_cases hless : row ((lo + hi) / 2) < needle
    · have hmid : (lo + hi) / 2 < i := by
        refine Nat.lt_of_not_le fun hle => ?_
        rcases hle.eq_or_lt with heq | hlt
        · rw [← heq, hrow] at hless
          exact lt_irrefl _ hless
        · have habove := hsorted i _ hlt (by omega)
          rw [hrow] at habove
          exact lt_asymm hless habove
      rw [if_pos hless]
      exact ih hsorted (by omega) hhi (by omega)
    rw [if_neg hless]
    by_cases hgreater : needle < row ((lo + hi) / 2)
    · have hmid : i < (lo + hi) / 2 := by
        refine Nat.lt_of_not_le fun hle => ?_
        rcases hle.eq_or_lt with heq | hlt
        · rw [heq, hrow] at hgreater
          exact lt_irrefl _ hgreater
        · have hbelow := hsorted _ i hlt hhi
          rw [hrow] at hbelow
          exact lt_asymm hgreater hbelow
      rw [if_pos hgreater]
      exact ih (fun a b hab hb => hsorted a b hab (by omega)) hlo hmid (by omega)
    · rw [if_neg hgreater]
      have heq : row ((lo + hi) / 2) = needle := le_antisymm (not_lt.mp hgreater) (not_lt.mp hless)
      rcases lt_trichotomy ((lo + hi) / 2) i with hlt | hmid | hlt
      · have hbelow := hsorted _ i hlt hhi
        rw [heq, hrow] at hbelow
        exact absurd hbelow (lt_irrefl _)
      · rw [hmid]
      · have habove := hsorted i _ hlt (by omega)
        rw [heq, hrow] at habove
        exact absurd habove (lt_irrefl _)

end BinarySearch
end Puregit
