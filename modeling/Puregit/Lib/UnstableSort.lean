import Mathlib.Data.List.Sort
import Mathlib.Order.Lattice
import Mathlib.Tactic.Ring

/-! # Unstable sorting

A sort by a key puts elements in the order of their keys.  Where keys are equal nothing is
known of the order, and it may be another at another type of elements.  Two sorts are
`Alike` if only the keys decide; without that, distinct keys leave no choice.
-/
namespace Puregit

/-- A sort by a key. -/
structure UnstableSort where
  sortByKey : {α : Type} → (α → Nat) → List α → List α
  perm : ∀ {α : Type} (key : α → Nat) (l : List α), (sortByKey key l).Perm l
  sorted : ∀ {α : Type} (key : α → Nat) (l : List α),
    (sortByKey key l).Pairwise fun a b => key a ≤ key b

namespace UnstableSort

/-- Insertion: equal keys keep their order. -/
def stable : UnstableSort where
  sortByKey key l := l.insertionSort fun a b => key a ≤ key b
  perm _ l := List.perm_insertionSort _ l
  sorted key l :=
    have : Std.Total fun a b => key a ≤ key b := ⟨fun a b => Nat.le_total (key a) (key b)⟩
    have : IsTrans _ fun a b => key a ≤ key b := ⟨fun _ _ _ => Nat.le_trans⟩
    List.pairwise_insertionSort _ l

/-- Insertion from the end: equal keys change their order. -/
def reversing : UnstableSort where
  sortByKey key l := stable.sortByKey key l.reverse
  perm key l := (stable.perm key _).trans l.reverse_perm
  sorted key _ := stable.sorted key _

variable {α β : Type} {s s' : UnstableSort}

/-- The keys alone decide, and decide the same for both. -/
def Alike (s s' : UnstableSort) : Prop :=
  ∀ (α β : Type) (f : α → β) (key : β → Nat) (l : List α),
    s.sortByKey key (l.map f) = (s'.sortByKey (key ∘ f) l).map f

theorem stable_alike : stable.Alike stable := by
  intro α β f key l
  exact (List.map_insertionSort _ _ f l fun a _ b _ => Iff.rfl).symm

theorem reversing_alike : reversing.Alike reversing := by
  intro α β f key l
  show stable.sortByKey key (l.map f).reverse = _
  rw [← List.map_reverse]
  exact stable_alike α β f key l.reverse

theorem mem_sortByKey {key : α → Nat} {l : List α} {a : α} : a ∈ s.sortByKey key l ↔ a ∈ l :=
  (s.perm key l).mem_iff

/-- Distinct keys have one order. -/
theorem sortByKey_eq {key : α → Nat} {l l' : List α}
    (hkey : ∀ a ∈ l, ∀ b ∈ l, key a = key b → a = b) (hperm : l'.Perm l)
    (hsorted : l'.Pairwise fun a b => key a ≤ key b) : s.sortByKey key l = l' := by
  refine List.Perm.eq_of_pairwise ?_ (s.sorted key l) hsorted ((s.perm key l).trans hperm.symm)
  intro a b ha hb hab hba
  exact hkey a (mem_sortByKey.mp ha) b (hperm.mem_iff.mp hb) (Nat.le_antisymm hab hba)

/-- **Sorting commutes with a map that the keys see through**, where the sorts are alike or
the keys distinct. -/
theorem sortByKey_map {f : α → β} {key : β → Nat} {l : List α}
    (h : (∀ a ∈ l, ∀ b ∈ l, key (f a) = key (f b) → a = b) ∨ s.Alike s') :
    s.sortByKey key (l.map f) = (s'.sortByKey (key ∘ f) l).map f := by
  rcases h with hkey | halike
  · refine sortByKey_eq ?_ ((s'.perm _ l).map f) (List.pairwise_map.mpr (s'.sorted (key ∘ f) l))
    intro b hb b' hb' hsame
    obtain ⟨a, ha, rfl⟩ := List.mem_map.mp hb
    obtain ⟨a', ha', rfl⟩ := List.mem_map.mp hb'
    rw [hkey a ha a' ha' hsame]
  · exact halike α β f key l

/-- What is alike to some sort is decided by the keys. -/
theorem Alike.self (h : s.Alike s') : s'.Alike s' := by
  have hsame : ∀ (α : Type) (key : α → Nat) (l : List α), s.sortByKey key l =
      s'.sortByKey key l := by
    intro α key l
    have hid := h α α id key l
    rwa [List.map_id, List.map_id, Function.comp_id] at hid
  intro α β f key l
  rw [← hsame, h]

end UnstableSort
end Puregit
