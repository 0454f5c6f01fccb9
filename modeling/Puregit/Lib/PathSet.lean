import Mathlib.Data.List.Infix
import Mathlib.Data.List.Lex
import Mathlib.Data.List.Nodup
import Mathlib.Data.Set.Basic
import Mathlib.Order.Lattice
import Mathlib.Tactic.Ring
import Mathlib.Tactic.Tauto

/-! # Sets of slash-joined paths

A path is a list over some alphabet with a separator `sep`.  `q` is `Below` `p` when
`p` followed by the separator is a prefix of `q`: then `p` cannot be a file and `q` a
file of the same tree.  A clash-free set of paths is one a directory tree can hold.

`clashFree_merge_iff` is about three such sets: what a path-wise three-way merge keeps
is clash-free exactly when no path added on one side alone is below or above a path
added on the other alone.
-/
namespace Puregit
namespace PathSet
variable {α : Type} (sep : α)

/-- `q` lies in the directory `p`. -/
def Below (p q : List α) : Prop := p ++ [sep] <+: q

instance [DecidableEq α] (p q : List α) : Decidable (Below sep p q) :=
  inferInstanceAs (Decidable (_ <+: _))

/-- No path of the set lies in another one of it. -/
def Antichain (S : Set (List α)) : Prop := ∀ p ∈ S, ∀ q ∈ S, ¬ Below sep p q

/-- No path is listed twice and none lies in another. -/
def ClashFree (l : List (List α)) : Prop :=
  l.Nodup ∧ ∀ p ∈ l, ∀ q ∈ l, ¬ Below sep p q

instance [DecidableEq α] (l : List (List α)) : Decidable (ClashFree sep l) :=
  inferInstanceAs (Decidable (_ ∧ _))

variable {sep}

theorem below_iff {p q : List α} : Below sep p q ↔ ∃ r, q = p ++ sep :: r := by
  simp only [Below, List.IsPrefix, List.append_assoc, List.singleton_append, eq_comm]

theorem Below.length_lt {p q : List α} (h : Below sep p q) : p.length < q.length := by
  obtain ⟨r, rfl⟩ := below_iff.mp h
  simp

theorem not_below_self (p : List α) : ¬ Below sep p p := fun h => lt_irrefl _ h.length_lt

/-- Prepending the same directory to two paths keeps how they lie. -/
@[simp] theorem below_append_left {d p q : List α} :
    Below sep (d ++ p) (d ++ q) ↔ Below sep p q := by
  rw [Below, List.append_assoc, List.prefix_append_right_inj]
  rfl

theorem ClashFree.sublist {l₁ l₂ : List (List α)} (h : ClashFree sep l₂) (hs : l₁.Sublist l₂) :
    ClashFree sep l₁ :=
  ⟨h.1.sublist hs, fun p hp q hq => h.2 p (hs.subset hp) q (hs.subset hq)⟩

theorem clashFree_cons {p : List α} {l : List (List α)} :
    ClashFree sep (p :: l) ↔
      (∀ q ∈ l, q ≠ p ∧ ¬ Below sep p q ∧ ¬ Below sep q p) ∧ ClashFree sep l := by
  constructor
  · intro h
    refine ⟨fun q hq => ⟨fun e => ?_, h.2 p (List.mem_cons_self ..) q (List.mem_cons_of_mem _ hq),
      h.2 q (List.mem_cons_of_mem _ hq) p (List.mem_cons_self ..)⟩,
      h.sublist (List.sublist_cons_self p l)⟩
    exact (List.nodup_cons.mp h.1).1 (e ▸ hq)
  · rintro ⟨hp, hl⟩
    refine ⟨List.nodup_cons.mpr ⟨fun hm => (hp p hm).1 rfl, hl.1⟩, ?_⟩
    intro q hq r hr
    rcases List.mem_cons.mp hq with rfl | hq'
    · rcases List.mem_cons.mp hr with rfl | hr'
      · exact not_below_self _
      · exact (hp r hr').2.1
    · rcases List.mem_cons.mp hr with rfl | hr'
      · exact (hp q hq').2.2
      · exact hl.2 q hq' r hr'

/-- A list whose paths all lie in `d` is clash-free when what follows `d` is. -/
theorem ClashFree.of_map_append {d : List α} {l : List (List α)}
    (h : ClashFree sep (l.map (d ++ ·))) : ClashFree sep l := by
  refine ⟨List.Nodup.of_map _ h.1, fun p hp q hq hb => ?_⟩
  exact h.2 _ (List.mem_map_of_mem hp) _ (List.mem_map_of_mem hq) (below_append_left.mpr hb)

/-! ## Three-way merges -/

/-- What a path-wise three-way merge keeps: the paths both sides have, and the paths
either side has that the base had not. -/
def merged (base ours theirs : Set (List α)) : Set (List α) :=
  { p | (p ∈ ours ∧ p ∈ theirs) ∨ (p ∉ base ∧ (p ∈ ours ∨ p ∈ theirs)) }

/-- The paths added by one side alone. -/
def addedOnlyBy (base ours theirs : Set (List α)) : Set (List α) :=
  { p | p ∈ ours ∧ p ∉ base ∧ p ∉ theirs }

/-- A path that the merge keeps and one of two clash-free sides lacks was added by the
other side alone. -/
theorem added_of_merged {base ours theirs : Set (List α)} {p : List α}
    (hp : p ∈ merged base ours theirs) (ho : p ∉ theirs) : p ∈ addedOnlyBy base ours theirs := by
  rcases hp with ⟨-, ht⟩ | ⟨hb, h | h⟩
  · exact absurd ht ho
  · exact ⟨h, hb, ho⟩
  · exact absurd h ho

theorem merged_comm (base ours theirs : Set (List α)) :
    merged base ours theirs = merged base theirs ours := by
  ext p
  simp only [merged, Set.mem_ofPred_eq]
  tauto

/-- **When a path-wise merge is clash-free.** -/
theorem antichain_merged_iff {base ours theirs : Set (List α)} (ho : Antichain sep ours)
    (ht : Antichain sep theirs) :
    Antichain sep (merged base ours theirs) ↔
      ∀ p ∈ addedOnlyBy base ours theirs, ∀ q ∈ addedOnlyBy base theirs ours,
        ¬ Below sep p q ∧ ¬ Below sep q p := by
  constructor
  · intro h p hp q hq
    have hpm : p ∈ merged base ours theirs := Or.inr ⟨hp.2.1, Or.inl hp.1⟩
    have hqm : q ∈ merged base ours theirs := Or.inr ⟨hq.2.1, Or.inr hq.1⟩
    exact ⟨h p hpm q hqm, h q hqm p hpm⟩
  · intro h p hp q hq hb
    have hmem : ∀ r ∈ merged base ours theirs, r ∈ ours ∨ r ∈ theirs := by
      rintro r (hr | hr)
      · exact Or.inl hr.1
      · exact hr.2
    -- the two paths come from different sides, each lacking the other's
    by_cases hpt : p ∈ theirs
    · have hqt : q ∉ theirs := fun hqt => ht p hpt q hqt hb
      have hqo : q ∈ ours := (hmem q hq).resolve_right hqt
      have hpo : p ∉ ours := fun hpo => ho p hpo q hqo hb
      exact (h q (added_of_merged hq hqt) p
        (added_of_merged (merged_comm base ours theirs ▸ hp) hpo)).2 hb
    · have hpo : p ∈ ours := (hmem p hp).resolve_right hpt
      have hqo : q ∉ ours := fun hqo => ho p hpo q hqo hb
      exact (h p (added_of_merged hp hpt) q
        (added_of_merged (merged_comm base ours theirs ▸ hq) hqo)).1 hb

/-! ## Sorted lists of paths -/

section Order
variable [LinearOrder α]

theorem cons_le_cons_iff {a b : α} {l m : List α} :
    a :: l ≤ b :: m ↔ a < b ∨ (a = b ∧ l ≤ m) := by
  have hlt : b :: m < a :: l ↔ b < a ∨ (b = a ∧ m < l) := List.cons_lt_cons_iff
  rw [← not_lt, hlt, ← @not_lt _ _ m l]
  rcases lt_trichotomy a b with h | h | h
  · simp [h, lt_asymm h, ne_of_gt h]
  · simp [h]
  · simp [h, lt_asymm h, ne_of_gt h]

/-- Everything between two paths that start with `d` starts with `d`. -/
theorem prefix_of_between {d p q r : List α} (hp : d <+: p) (hr : d <+: r) (hpq : p ≤ q)
    (hqr : q ≤ r) : d <+: q := by
  induction d generalizing p q r with
  | nil => exact List.nil_prefix
  | cons a d ih =>
      obtain ⟨p, rfl⟩ := hp
      obtain ⟨r, rfl⟩ := hr
      cases q with
      | nil => exact absurd hpq (by simp)
      | cons b q =>
          rw [List.cons_append, cons_le_cons_iff] at hpq hqr
          have hab : a = b := by
            rcases hpq with h | h
            · rcases hqr with h' | h'
              · exact absurd h' (lt_asymm h)
              · exact absurd h'.1 (ne_of_gt h)
            · exact h.1
          subst hab
          have hpq' : d ++ p ≤ q := by simpa using hpq
          have hqr' : q ≤ d ++ r := by simpa using hqr
          exact List.cons_prefix_cons.mpr
            ⟨rfl, ih (List.prefix_append d p) (List.prefix_append d r) hpq' hqr'⟩

end Order
end PathSet
end Puregit
