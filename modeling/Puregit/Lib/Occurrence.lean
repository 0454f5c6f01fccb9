import Mathlib.Data.List.Infix
import Mathlib.Data.List.Basic

/-! # First occurrences

A word occurs in a text at an offset where it is a prefix of what is left.  `firstOccurrence`
finds the least such offset, and `firstOf` the least one of several words.
-/
namespace Puregit

section
variable {α : Type}

/-- A word without some letter that starts a text ends before the letter. -/
theorem prefix_append_of_not_mem {word x y : List α} {a : α} (ha : a ∉ word)
    (h : word <+: x ++ a :: y) : word <+: x := by
  obtain ⟨r, hr⟩ := h
  rcases List.append_eq_append_iff.mp hr with ⟨u, hu, -⟩ | ⟨u, hu, hr⟩
  · exact ⟨u, hu.symm⟩
  · cases u with
    | nil => exact ⟨[], by rw [hu, List.append_nil, List.append_nil]⟩
    | cons b u =>
        obtain rfl := (List.cons.inj hr).1
        exact absurd (by rw [hu]; simp) ha

variable [DecidableEq α]

/-- The least offset at which a word occurs in a text. -/
def firstOccurrence (word : List α) : List α → Option Nat
  | [] => none
  | a :: text => if word <+: a :: text then some 0 else (firstOccurrence word text).map (· + 1)

/-- The least offset at which one of several words occurs in a text. -/
def firstOf (words : List (List α)) (text : List α) : Option Nat :=
  (words.filterMap fun word => firstOccurrence word text).min?

/-- One of the words starts the text. -/
def StartsWithOne (words : List (List α)) (text : List α) : Prop := ∃ word ∈ words, word <+: text

theorem firstOccurrence_eq_some {word : List α} (hword : word ≠ []) {text : List α} {n : Nat} :
    firstOccurrence word text = some n ↔ word <+: text.drop n ∧
      ∀ i < n, ¬ word <+: text.drop i := by
  induction text generalizing n with
  | nil =>
      rw [firstOccurrence, List.drop_nil, List.prefix_nil]
      exact ⟨nofun, fun h => absurd h.1 hword⟩
  | cons a text ih =>
      rw [firstOccurrence]
      split
      · rename_i hstart
        constructor
        · intro h
          cases h
          exact ⟨hstart, nofun⟩
        · rintro ⟨-, hfirst⟩
          cases n with
          | zero => rfl
          | succ n => exact absurd hstart (hfirst 0 (Nat.succ_pos n))
      · rename_i hstart
        cases n with
        | zero =>
            rw [Option.map_eq_some_iff]
            exact ⟨fun ⟨m, _, hm⟩ => absurd hm (Nat.succ_ne_zero m), fun h => absurd h.1 hstart⟩
        | succ n =>
            rw [Option.map_eq_some_iff]
            constructor
            · rintro ⟨m, hm, heq⟩
              obtain rfl := Nat.succ.inj heq
              obtain ⟨hat, hfirst⟩ := ih.mp hm
              refine ⟨hat, fun i hi => ?_⟩
              cases i with
              | zero => exact hstart
              | succ i => exact hfirst i (Nat.lt_of_succ_lt_succ hi)
            · rintro ⟨hat, hfirst⟩
              exact ⟨n, ih.mpr ⟨hat, fun i hi => hfirst (i + 1) (Nat.succ_lt_succ hi)⟩, rfl⟩

/-- A word that occurs has a first occurrence, which is no later. -/
theorem exists_firstOccurrence {word : List α} (hword : word ≠ []) {text : List α} {i : Nat}
    (h : word <+: text.drop i) : ∃ n ≤ i, firstOccurrence word text = some n := by
  induction i using Nat.strong_induction_on with
  | _ i ih =>
      by_cases hfirst : ∀ j < i, ¬ word <+: text.drop j
      · exact ⟨i, Nat.le_refl i, (firstOccurrence_eq_some hword).mpr ⟨h, hfirst⟩⟩
      · push Not at hfirst
        obtain ⟨j, hj, hat⟩ := hfirst
        obtain ⟨n, hn, hsome⟩ := ih j hj hat
        exact ⟨n, hn.trans hj.le, hsome⟩

/-- **The first of several words** starts what is left, and none starts earlier. -/
theorem firstOf_eq_some {words : List (List α)} (hwords : ∀ word ∈ words, word ≠ [])
    {text : List α} {n : Nat} :
    firstOf words text = some n ↔
      StartsWithOne words (text.drop n) ∧ ∀ i < n, ¬ StartsWithOne words (text.drop i) := by
  have hmem : ∀ m, m ∈ (words.filterMap fun word => firstOccurrence word text) ↔
      ∃ word ∈ words, firstOccurrence word text = some m := fun m => List.mem_filterMap
  rw [firstOf, List.min?_eq_some_iff]
  constructor
  · rintro ⟨hat, hleast⟩
    obtain ⟨word, hw, hsome⟩ := (hmem n).mp hat
    refine ⟨⟨word, hw, ((firstOccurrence_eq_some (hwords word hw)).mp hsome).1⟩, ?_⟩
    rintro i hi ⟨word', hw', hprefix⟩
    obtain ⟨m, hm, hsome'⟩ := exists_firstOccurrence (hwords word' hw') hprefix
    have hle := hleast m ((hmem m).mpr ⟨word', hw', hsome'⟩)
    omega
  · rintro ⟨⟨word, hw, hprefix⟩, hfirst⟩
    have hleast : ∀ m, m ∈ (words.filterMap fun word => firstOccurrence word text) → n ≤ m := by
      intro m hm
      obtain ⟨word', hw', hsome⟩ := (hmem m).mp hm
      have hat := ((firstOccurrence_eq_some (hwords word' hw')).mp hsome).1
      exact not_lt.mp fun hlt => hfirst m hlt ⟨word', hw', hat⟩
    obtain ⟨m, hm, hsome⟩ := exists_firstOccurrence (hwords word hw) hprefix
    have hin := (hmem m).mpr ⟨word, hw, hsome⟩
    obtain rfl := Nat.le_antisymm hm (hleast m hin)
    exact ⟨hin, hleast⟩

end

end Puregit
