import Mathlib.Data.List.Basic
import Mathlib.Order.Lattice

/-! # Longest common subsequences

`lcsLen` is the recurrence behind the usual table; `isLcsLength_lcsLen` says that it
computes the length of a longest common subsequence.
-/
namespace Puregit
variable {α : Type} [DecidableEq α]

/-- The length of a longest common subsequence, by comparing the heads. -/
def lcsLen : List α → List α → Nat
  | [], _ => 0
  | _ :: _, [] => 0
  | a :: as, b :: bs =>
      if a = b then lcsLen as bs + 1 else max (lcsLen as (b :: bs)) (lcsLen (a :: as) bs)
termination_by as bs => as.length + bs.length

/-- `n` is the length of a longest common subsequence. -/
def IsLcsLength (as bs : List α) (n : Nat) : Prop :=
  (∃ s : List α, s.Sublist as ∧ s.Sublist bs ∧ s.length = n) ∧
    ∀ s : List α, s.Sublist as → s.Sublist bs → s.length ≤ n

@[simp] theorem lcsLen_nil_left (bs : List α) : lcsLen [] bs = 0 := by rw [lcsLen]

@[simp] theorem lcsLen_nil_right (as : List α) : lcsLen as [] = 0 := by
  cases as <;> rw [lcsLen]

theorem lcsLen_cons (a b : α) (as bs : List α) : lcsLen (a :: as) (b :: bs) =
    if a = b then lcsLen as bs + 1 else max (lcsLen as (b :: bs)) (lcsLen (a :: as) bs) := by
  rw [lcsLen]

/-- No common subsequence is longer. -/
theorem length_le_lcsLen (as bs : List α) : ∀ s : List α, s.Sublist as → s.Sublist bs →
    s.length ≤ lcsLen as bs := by
  fun_induction lcsLen as bs with
  | case1 bs =>
      intro s hs _
      rw [List.sublist_nil.mp hs]
      exact Nat.le_refl 0
  | case2 a as =>
      intro s _ hs
      rw [List.sublist_nil.mp hs]
      exact Nat.le_refl 0
  | case3 as b bs ih =>
      intro s hs ht
      cases s with
      | nil => exact Nat.zero_le _
      | cons c s =>
          -- whatever the head is matched with, the rest is common to the tails
          have htail := ih s hs.tail ht.tail
          exact Nat.succ_le_succ htail
  | case4 a as b bs hne ihas ihbs =>
      intro s hs ht
      cases s with
      | nil => exact Nat.zero_le _
      | cons c s =>
          rcases List.sublist_cons_iff.mp hs with hs' | ⟨r, hr, -⟩
          · exact (ihas _ hs' ht).trans (le_max_left _ _)
          · cases hr
            rcases List.sublist_cons_iff.mp ht with ht' | ⟨r, hr, -⟩
            · exact (ihbs _ hs ht').trans (le_max_right _ _)
            · cases hr
              exact absurd rfl hne

theorem exists_lcs (as bs : List α) :
    ∃ s : List α, s.Sublist as ∧ s.Sublist bs ∧ s.length = lcsLen as bs := by
  fun_induction lcsLen as bs with
  | case1 bs => exact ⟨[], List.Sublist.refl _, List.nil_sublist _, rfl⟩
  | case2 a as => exact ⟨[], List.nil_sublist _, List.Sublist.refl _, rfl⟩
  | case3 as b bs ih =>
      obtain ⟨s, hs, ht, hlen⟩ := ih
      exact ⟨b :: s, hs.cons_cons b, ht.cons_cons b, by rw [List.length_cons, hlen]⟩
  | case4 a as b bs hne ihas ihbs =>
      rcases le_total (lcsLen as (b :: bs)) (lcsLen (a :: as) bs) with hle | hle
      · obtain ⟨s, hs, ht, hlen⟩ := ihbs
        exact ⟨s, hs, ht.cons b, by rw [hlen, max_eq_right hle]⟩
      · obtain ⟨s, hs, ht, hlen⟩ := ihas
        exact ⟨s, hs.cons a, ht, by rw [hlen, max_eq_left hle]⟩

/-- **The recurrence computes the length of a longest common subsequence.** -/
theorem isLcsLength_lcsLen (as bs : List α) : IsLcsLength as bs (lcsLen as bs) :=
  ⟨exists_lcs as bs, length_le_lcsLen as bs⟩

end Puregit
