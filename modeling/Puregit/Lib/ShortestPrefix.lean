import Mathlib.Data.List.Infix
import Mathlib.Data.List.Basic

/-! # Shortest prefixes

Among texts of one length, a prefix names a text if no other text has it.  `shortest` makes a prefix
longer, from a least length on, for as long as a listed text has it as well.

`shortest_eq_length` says when all of the text is needed, and `shortest_apart` when the prefix names
the text among others than those that were listed.
-/
namespace Puregit.ShortestPrefix
variable {α : Type} [DecidableEq α]

/-- Whether another listed text has the first `n` letters. -/
def Shared (all : List (List α)) (s : List α) (n : Nat) : Prop := ∃ t ∈ all, t ≠ s ∧ s.take n <+: t

instance (all : List (List α)) (s : List α) (n : Nat) : Decidable (Shared all s n) :=
  inferInstanceAs (Decidable (∃ t ∈ all, t ≠ s ∧ s.take n <+: t))

/-- Makes a length greater while another text shares the prefix, `left` times at most. -/
def grow (all : List (List α)) (s : List α) : Nat → Nat → Nat
  | 0, n => n
  | left + 1, n => if Shared all s n then grow all s left (n + 1) else n

/-- The length of the shortest prefix, of at least `least` letters, that no other listed text
has. -/
def shortest (all : List (List α)) (s : List α) (least : Nat) : Nat :=
  grow all s (s.length - least) least

variable {all : List (List α)} {s : List α}

omit [DecidableEq α] in
/-- A longer prefix is shared by fewer texts. -/
theorem Shared.mono {m n : Nat} (hmn : m ≤ n) (h : Shared all s n) : Shared all s m := by
  obtain ⟨t, ht, hne, hstart⟩ := h
  exact ⟨t, ht, hne, (List.take_prefix_take_left hmn).trans hstart⟩

/-- What the loop leaves: the lengths before its end are shared, and its end is not, unless the loop
could go no further. -/
theorem grow_spec (left n : Nat) : n ≤ grow all s left n ∧ grow all s left n ≤ n + left ∧
    (∀ k, n ≤ k → k < grow all s left n → Shared all s k) ∧
    (grow all s left n < n + left → ¬ Shared all s (grow all s left n)) := by
  induction left generalizing n with
  | zero => exact ⟨le_rfl, le_rfl, fun k hn hk => absurd hk hn.not_gt, fun h =>
    absurd h (lt_irrefl n)⟩
  | succ left ih =>
    rw [grow]
    split
    · rename_i hshared
      obtain ⟨hlo, hhi, hbelow, hend⟩ := ih (n + 1)
      refine ⟨by omega, by omega, fun k hn hk => ?_, fun h => hend (by omega)⟩
      rcases Nat.eq_or_lt_of_le hn with rfl | hn
      · exact hshared
      · exact hbelow k hn hk
    · rename_i hfree
      exact ⟨le_rfl, Nat.le_add_right n _, fun k hn hk => absurd hk hn.not_gt, fun _ => hfree⟩

section
variable {least : Nat} (hleast : least ≤ s.length)
include hleast

theorem shortest_spec : least ≤ shortest all s least ∧ shortest all s least ≤ s.length ∧
    (∀ k, least ≤ k → k < shortest all s least → Shared all s k) ∧
    (shortest all s least < s.length → ¬ Shared all s (shortest all s least)) := by
  have h := @grow_spec _ _ all s (s.length - least) least
  rwa [Nat.add_sub_cancel' hleast] at h

/-- **All of a text is needed** if it has to be, or if another text differs in the last letter
only. -/
theorem shortest_eq_length :
    shortest all s least = s.length ↔ least = s.length ∨ Shared all s (s.length - 1) := by
  obtain ⟨hlo, hhi, hbelow, hend⟩ := @shortest_spec _ _ all _ _ hleast
  constructor
  · intro h
    rcases Nat.eq_or_lt_of_le hleast with heq | hlt
    · exact Or.inl heq
    · exact Or.inr (hbelow _ (by omega) (by omega))
  · rintro (heq | hshared)
    · exact le_antisymm hhi (heq ▸ hlo)
    · by_contra hne
      have hlt := lt_of_le_of_ne hhi hne
      exact hend hlt (hshared.mono (Nat.le_sub_one_of_lt hlt))

/-- **The prefix names its text among the texts of `P`** if the listed texts share what those do. -/
theorem shortest_apart {P : List α → Prop} (hlength : ∀ t, P t → t.length = s.length) :
    (∀ t, P t → t ≠ s → ¬ s.take (shortest all s least) <+: t) ↔
      ∀ n, least ≤ n → n < s.length → (∃ t, P t ∧ t ≠ s ∧ s.take n <+: t) → Shared all s n := by
  obtain ⟨hlo, hhi, hbelow, hend⟩ := @shortest_spec _ _ all _ _ hleast
  constructor
  · rintro h n hn - ⟨t, ht, hne, hstart⟩
    refine hbelow n hn ?_
    by_contra hle
    exact h t ht hne ((List.take_prefix_take_left (not_lt.mp hle)).trans hstart)
  · intro h t ht hne hstart
    rcases Nat.eq_or_lt_of_le hhi with hfull | hlt
    · rw [hfull, List.take_length] at hstart
      exact hne (hstart.eq_of_length (hlength t ht).symm).symm
    · exact hend hlt (h _ hlo hlt ⟨t, ht, hne, hstart⟩)

end
end Puregit.ShortestPrefix
