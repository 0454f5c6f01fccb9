import Mathlib.Data.List.Basic
import Mathlib.Data.List.Lex
import Mathlib.Order.Lattice
import Mathlib.Tactic.ByContra
import Mathlib.Tactic.Ring

/-! # Ordered maps and sets

A `BTreeMap` is a list of bindings strictly increasing in key, so two maps with
the same bindings are the same value and iteration is in key order.  The order
is a field: a list out of order is not a map.  A `BTreeSet` is a map to `Unit`.

Every operation is structural, so a map of concrete keys evaluates.  Outside this
module a map is used through `get?` alone: `get?_insert` and `get?_erase` say what
an operation does, `ext_get?` that lookups determine the map.
-/
namespace Puregit

/-- Sorting by a key puts the keys in order. -/
theorem pairwise_mergeSort_key {α κ : Type} [LinearOrder κ] (key : α → κ) (l : List α) :
    (l.mergeSort fun a b => decide (key a ≤ key b)).Pairwise fun a b => key a ≤ key b := by
  refine (List.pairwise_mergeSort ?_ ?_ l).imp of_decide_eq_true
  · intro a b c hab hbc
    rw [decide_eq_true_iff] at hab hbc ⊢
    exact le_trans hab hbc
  · intro a b
    rw [Bool.or_eq_true, decide_eq_true_iff, decide_eq_true_iff]
    exact le_total _ _

/-- Bindings strictly increasing in key. -/
structure BTreeMap (κ ν : Type) [LinearOrder κ] where
  toList : List (κ × ν)
  sorted : toList.Pairwise (fun a b => a.1 < b.1)

namespace BTreeMap
variable {κ ν : Type} [LinearOrder κ]

instance [DecidableEq ν] : DecidableEq (BTreeMap κ ν) := fun a b =>
  decidable_of_iff (a.toList = b.toList) (by cases a; cases b; simp)

/-- The map with no bindings. -/
def empty : BTreeMap κ ν := ⟨[], List.Pairwise.nil⟩

instance : Inhabited (BTreeMap κ ν) := ⟨empty⟩

/-- The value bound to `k` in a list of bindings. -/
def lookupL (k : κ) : List (κ × ν) → Option ν
  | [] => none
  | (k', v) :: t => if k = k' then some v else lookupL k t

/-- Binds `k` to `v`, replacing a binding `k` had. -/
def insertL (k : κ) (v : ν) : List (κ × ν) → List (κ × ν)
  | [] => [(k, v)]
  | (k', v') :: t =>
      if k < k' then (k, v) :: (k', v') :: t
      else if k = k' then (k, v) :: t
      else (k', v') :: insertL k v t

theorem mem_insertL {k : κ} {v : ν} {b : κ × ν} :
    ∀ {l : List (κ × ν)}, b ∈ insertL k v l → b = (k, v) ∨ b ∈ l
  | [], h => by simpa [insertL] using h
  | (k', v') :: t, h => by
      simp only [insertL] at h
      split at h
      · simpa using h
      · split at h
        · rcases List.mem_cons.mp h with h | h
          · exact Or.inl h
          · exact Or.inr (List.mem_cons_of_mem _ h)
        · rcases List.mem_cons.mp h with h | h
          · exact Or.inr (h ▸ List.mem_cons_self ..)
          · exact (mem_insertL h).imp id (List.mem_cons_of_mem _)

theorem insertL_sorted (k : κ) (v : ν) :
    ∀ {l : List (κ × ν)}, l.Pairwise (fun a b => a.1 < b.1) →
      (insertL k v l).Pairwise (fun a b => a.1 < b.1)
  | [], _ => List.pairwise_singleton _ _
  | (k', v') :: t, h => by
      obtain ⟨hhead, htail⟩ := List.pairwise_cons.mp h
      simp only [insertL]
      split
      · rename_i hlt
        refine List.pairwise_cons.mpr ⟨fun b hb => ?_, h⟩
        rcases List.mem_cons.mp hb with rfl | hb
        · exact hlt
        · exact lt_trans hlt (hhead b hb)
      · split
        · rename_i heq
          exact List.pairwise_cons.mpr ⟨fun b hb => heq ▸ hhead b hb, htail⟩
        · rename_i hnlt hne
          refine List.pairwise_cons.mpr ⟨fun b hb => ?_, insertL_sorted k v htail⟩
          rcases mem_insertL hb with rfl | hb
          · exact lt_of_le_of_ne (not_lt.mp hnlt) (Ne.symm hne)
          · exact hhead b hb

theorem lookupL_insertL (k j : κ) (v : ν) :
    ∀ {l : List (κ × ν)}, l.Pairwise (fun a b => a.1 < b.1) →
      lookupL j (insertL k v l) = if j = k then some v else lookupL j l
  | [], _ => by simp [insertL, lookupL]
  | (k', v') :: t, h => by
      obtain ⟨hhead, htail⟩ := List.pairwise_cons.mp h
      simp only [insertL]
      split
      · simp [lookupL]
      · split
        · rename_i heq
          subst heq
          by_cases hj : j = k <;> simp [lookupL, hj]
        · rename_i hne
          by_cases hj : j = k'
          · subst hj
            simp [lookupL, Ne.symm hne]
          · simp [lookupL, hj, lookupL_insertL k j v htail]

theorem lookupL_eq_none {k : κ} :
    ∀ {l : List (κ × ν)}, lookupL k l = none ↔ ∀ b ∈ l, b.1 ≠ k
  | [] => by simp [lookupL]
  | (k', v') :: t => by
      by_cases hk : k = k'
      · simp [lookupL, hk]
      · simp [lookupL, hk, lookupL_eq_none (l := t), Ne.symm hk]

theorem lookupL_eq_some {k : κ} {v : ν} :
    ∀ {l : List (κ × ν)}, l.Pairwise (fun a b => a.1 < b.1) →
      (lookupL k l = some v ↔ (k, v) ∈ l)
  | [], _ => by simp [lookupL]
  | (k', v') :: t, h => by
      obtain ⟨hhead, htail⟩ := List.pairwise_cons.mp h
      by_cases hk : k = k'
      · subst hk
        have hnot : (k, v) ∉ t := fun hm => lt_irrefl k (hhead (k, v) hm)
        simp [lookupL, hnot, eq_comm]
      · simp [lookupL, hk, lookupL_eq_some htail]

/-- Two increasing lists with the same members are equal. -/
theorem eq_of_mem_iff : ∀ {l₁ l₂ : List (κ × ν)},
    l₁.Pairwise (fun a b => a.1 < b.1) → l₂.Pairwise (fun a b => a.1 < b.1) →
    (∀ b, b ∈ l₁ ↔ b ∈ l₂) → l₁ = l₂
  | [], [], _, _, _ => rfl
  | [], b :: l₂, _, _, h => absurd ((h b).mpr (List.mem_cons_self ..)) List.not_mem_nil
  | a :: l₁, [], _, _, h => absurd ((h a).mp (List.mem_cons_self ..)) List.not_mem_nil
  | a :: l₁, b :: l₂, h₁, h₂, h => by
      obtain ⟨ha, h₁'⟩ := List.pairwise_cons.mp h₁
      obtain ⟨hb, h₂'⟩ := List.pairwise_cons.mp h₂
      have hab : a = b := by
        rcases List.mem_cons.mp ((h a).mp (List.mem_cons_self ..)) with e | hm
        · exact e
        rcases List.mem_cons.mp ((h b).mpr (List.mem_cons_self ..)) with e | hm'
        · exact e.symm
        · exact absurd (hb a hm) (lt_asymm (ha b hm'))
      subst hab
      refine congrArg _ (eq_of_mem_iff h₁' h₂' fun x => ?_)
      constructor
      · intro hx
        rcases List.mem_cons.mp ((h x).mp (List.mem_cons_of_mem _ hx)) with rfl | hx'
        · exact absurd (ha x hx) (lt_irrefl _)
        · exact hx'
      · intro hx
        rcases List.mem_cons.mp ((h x).mpr (List.mem_cons_of_mem _ hx)) with rfl | hx'
        · exact absurd (hb x hx) (lt_irrefl _)
        · exact hx'

/-- The value bound to `k`, if any. -/
def get? (m : BTreeMap κ ν) (k : κ) : Option ν := lookupL k m.toList

/-- Whether `k` is bound. -/
def contains (m : BTreeMap κ ν) (k : κ) : Bool := (m.get? k).isSome

/-- Binds `k` to `v`. -/
def insert (m : BTreeMap κ ν) (k : κ) (v : ν) : BTreeMap κ ν :=
  ⟨insertL k v m.toList, insertL_sorted k v m.sorted⟩

/-- Removes the binding of `k`. -/
def erase (m : BTreeMap κ ν) (k : κ) : BTreeMap κ ν :=
  ⟨m.toList.filter (fun b => b.1 ≠ k), m.sorted.filter _⟩

/-- The bindings of a list, a later one replacing an earlier one of the same key. -/
def ofList (l : List (κ × ν)) : BTreeMap κ ν :=
  l.foldl (fun m b => m.insert b.1 b.2) empty

/-- The bound keys, in order. -/
def keys (m : BTreeMap κ ν) : List κ := m.toList.map Prod.fst

@[simp] theorem get?_empty (k : κ) : (empty : BTreeMap κ ν).get? k = none := rfl

@[simp] theorem get?_insert (m : BTreeMap κ ν) (k j : κ) (v : ν) :
    (m.insert k v).get? j = if j = k then some v else m.get? j :=
  lookupL_insertL k j v m.sorted

theorem get?_eq_some {m : BTreeMap κ ν} {k : κ} {v : ν} :
    m.get? k = some v ↔ (k, v) ∈ m.toList := lookupL_eq_some m.sorted

@[simp] theorem get?_erase (m : BTreeMap κ ν) (k j : κ) :
    (m.erase k).get? j = if j = k then none else m.get? j := by
  apply Option.ext
  intro v
  rw [get?_eq_some]
  by_cases hj : j = k
  · simp [erase, hj]
  · simp [erase, hj, get?_eq_some]

theorem mem_keys {m : BTreeMap κ ν} {k : κ} : k ∈ m.keys ↔ ∃ v, m.get? k = some v := by
  simp [keys, get?_eq_some]

theorem contains_iff {m : BTreeMap κ ν} {k : κ} :
    m.contains k = true ↔ ∃ v, m.get? k = some v := Option.isSome_iff_exists

/-- **Lookups determine the map.** -/
theorem ext_get? {m₁ m₂ : BTreeMap κ ν} (h : ∀ k, m₁.get? k = m₂.get? k) : m₁ = m₂ := by
  have hl : m₁.toList = m₂.toList := eq_of_mem_iff m₁.sorted m₂.sorted fun b => by
    rw [← get?_eq_some, ← get?_eq_some, h]
  cases m₁; cases m₂; simpa using hl

/-- What a list without repeated keys inserts: its bindings, beside those of other keys. -/
theorem get?_foldl_insert {l : List (κ × ν)} (hl : (l.map Prod.fst).Nodup)
    {m : BTreeMap κ ν} {k : κ} {v : ν} : (l.foldl (fun m b => m.insert b.1 b.2) m).get? k = some v ↔
      (k, v) ∈ l ∨ (k ∉ l.map Prod.fst ∧ m.get? k = some v) := by
  induction l generalizing m with
  | nil => simp
  | cons b l ih =>
      obtain ⟨hb, hl⟩ := List.nodup_cons.mp hl
      rw [List.foldl_cons, ih hl, get?_insert, List.mem_cons, List.map_cons, List.mem_cons]
      by_cases hk : k = b.1
      · subst hk
        have hnot : (b.1, v) ∉ l := fun hmem => hb (List.mem_map.mpr ⟨_, hmem, rfl⟩)
        rw [if_pos rfl]
        simp only [hnot, hb, not_false_eq_true, true_and, false_or, not_true, false_and, or_false,
          Option.some.injEq]
        exact ⟨fun h => by rw [← h], fun h => (congrArg Prod.snd h).symm⟩
      · have hne : (k, v) ≠ b := fun h => hk (congrArg Prod.fst h)
        rw [if_neg hk]
        simp only [hne, hk, false_or]

/-- The bindings of the map of a list without repeated keys are those of the list. -/
theorem get?_ofList {l : List (κ × ν)} (hl : (l.map Prod.fst).Nodup) {k : κ} {v : ν} :
    (ofList l).get? k = some v ↔ (k, v) ∈ l := by
  rw [ofList, get?_foldl_insert hl]
  simp

/-- What a list inserts, where keys may repeat: a binding of the list, or one there before. -/
theorem get?_foldl_insert_some {l : List (κ × ν)} {m : BTreeMap κ ν} {k : κ} {v : ν}
    (h : (l.foldl (fun m b => m.insert b.1 b.2) m).get? k = some v) :
    (k, v) ∈ l ∨ m.get? k = some v := by
  induction l generalizing m with
  | nil => exact Or.inr h
  | cons b l ih =>
      rcases ih h with hmem | hget
      · exact Or.inl (List.mem_cons_of_mem b hmem)
      rw [get?_insert] at hget
      by_cases hk : k = b.1
      · rw [if_pos hk, Option.some.injEq] at hget
        rw [hk, ← hget]
        exact Or.inl List.mem_cons_self
      · rw [if_neg hk] at hget
        exact Or.inr hget

theorem mem_of_get?_ofList {l : List (κ × ν)} {k : κ} {v : ν} (h : (ofList l).get? k = some v) :
    (k, v) ∈ l := by
  rcases get?_foldl_insert_some h with hmem | hempty
  · exact hmem
  · cases hempty

theorem mem_of_mem_ofList {l : List (κ × ν)} {b : κ × ν} (h : b ∈ (ofList l).toList) : b ∈ l :=
  mem_of_get?_ofList (get?_eq_some.mpr h)

/-- A key of a list is bound in its map. -/
theorem exists_get?_ofList {l : List (κ × ν)} {k : κ} {v : ν} (h : (k, v) ∈ l) :
    ∃ v', (ofList l).get? k = some v' := by
  have hbound : ∀ {l : List (κ × ν)} {m : BTreeMap κ ν},
    ((∃ v, (k, v) ∈ l) ∨ ∃ v, m.get? k = some v) →
      ∃ v', (l.foldl (fun m b => m.insert b.1 b.2) m).get? k = some v' := by
    intro l
    induction l with
    | nil =>
        intro m h
        rcases h with ⟨v, hv⟩ | h
        · cases hv
        · exact h
    | cons b l ih =>
        intro m h
        refine ih ?_
        by_cases hk : k = b.1
        · exact Or.inr ⟨b.2, by rw [get?_insert, if_pos hk]⟩
        rw [get?_insert, if_neg hk]
        rcases h with ⟨v, hv⟩ | h
        · rcases List.mem_cons.mp hv with rfl | hv
          · exact absurd rfl hk
          · exact Or.inl ⟨v, hv⟩
        · exact Or.inr h
  exact hbound (Or.inl ⟨v, h⟩)

/-! ## Weights -/

/-- The sum of the bound values' weights. -/
def weight (f : ν → Nat) (m : BTreeMap κ ν) : Nat := (m.toList.map fun b => f b.2).sum

theorem sum_insertL (f : ν → Nat) (k : κ) (v : ν) :
    ∀ {l : List (κ × ν)}, l.Pairwise (fun a b => a.1 < b.1) →
      ((insertL k v l).map fun b => f b.2).sum + (lookupL k l).elim 0 f
        = (l.map fun b => f b.2).sum + f v
  | [], _ => by simp [insertL, lookupL]
  | (k', v') :: t, h => by
      obtain ⟨hhead, htail⟩ := List.pairwise_cons.mp h
      simp only [insertL]
      split
      · rename_i hlt
        have hnone : lookupL k ((k', v') :: t) = none := by
          refine lookupL_eq_none.mpr fun b hb => ?_
          rcases List.mem_cons.mp hb with rfl | hb
          · exact ne_of_gt hlt
          · exact ne_of_gt (lt_trans hlt (hhead b hb))
        rw [hnone]
        simp only [List.map_cons, List.sum_cons, Option.elim_none]
        omega
      · split
        · rename_i heq
          simp only [lookupL, if_pos heq, List.map_cons, List.sum_cons, Option.elim_some]
          omega
        · rename_i hne
          have ih := sum_insertL f k v htail
          simp only [lookupL, if_neg hne, List.map_cons, List.sum_cons]
          omega

/-- Binding a key trades the weight of its old value for that of the new one. -/
theorem weight_insert (f : ν → Nat) (m : BTreeMap κ ν) (k : κ) (v : ν) :
    (m.insert k v).weight f + (m.get? k).elim 0 f = m.weight f + f v :=
  sum_insertL f k v m.sorted

theorem weight_le {f : ν → Nat} {n : Nat} (hf : ∀ v, f v ≤ n) (m : BTreeMap κ ν) :
    m.weight f ≤ m.keys.length * n := by
  have h : ∀ l : List (κ × ν), (l.map fun b => f b.2).sum ≤ l.length * n := by
    intro l
    induction l with
    | nil => simp
    | cons b l ih =>
        have hb := hf b.2
        rw [List.map_cons, List.sum_cons, List.length_cons, Nat.succ_mul]
        omega
  have hl := h m.toList
  rwa [← List.length_map Prod.fst] at hl

/-- The keys come in increasing order, so no key is listed twice. -/
theorem keys_sorted (m : BTreeMap κ ν) : m.keys.Pairwise (· < ·) :=
  List.pairwise_map.mpr m.sorted

end BTreeMap

/-- A set of keys: a map whose values carry nothing. -/
structure BTreeSet (κ : Type) [LinearOrder κ] where
  map : BTreeMap κ Unit

namespace BTreeSet
variable {κ : Type} [LinearOrder κ]

instance : DecidableEq (BTreeSet κ) := fun a b =>
  decidable_of_iff (a.map = b.map) (by cases a; cases b; simp)

/-- The set with no members. -/
def empty : BTreeSet κ := ⟨BTreeMap.empty⟩

instance : Inhabited (BTreeSet κ) := ⟨empty⟩

/-- Whether `k` is a member. -/
def contains (s : BTreeSet κ) (k : κ) : Bool := s.map.contains k

instance : Membership κ (BTreeSet κ) := ⟨fun s k => s.contains k = true⟩

instance (s : BTreeSet κ) (k : κ) : Decidable (k ∈ s) :=
  inferInstanceAs (Decidable (s.contains k = true))

/-- Adds `k`. -/
def insert (s : BTreeSet κ) (k : κ) : BTreeSet κ := ⟨s.map.insert k ()⟩

/-- Adds every key of a list. -/
def extend (s : BTreeSet κ) (l : List κ) : BTreeSet κ := l.foldl insert s

/-- The set of a list's keys. -/
def ofList (l : List κ) : BTreeSet κ := empty.extend l

/-- The members, in order. -/
def toList (s : BTreeSet κ) : List κ := s.map.keys

/-- The members a test keeps. -/
def retain (s : BTreeSet κ) (p : κ → Bool) : BTreeSet κ := ofList (s.toList.filter p)

@[simp] theorem contains_iff_mem {s : BTreeSet κ} {k : κ} : s.contains k = true ↔ k ∈ s := Iff.rfl

@[simp] theorem contains_eq_false {s : BTreeSet κ} {k : κ} : s.contains k = false ↔ k ∉ s := by
  rw [← contains_iff_mem, Bool.not_eq_true]

@[simp] theorem not_mem_empty (k : κ) : k ∉ (empty : BTreeSet κ) := by
  rw [← contains_iff_mem]
  simp [contains, empty, BTreeMap.contains]

@[simp] theorem mem_insert {s : BTreeSet κ} {k j : κ} : j ∈ s.insert k ↔ j = k ∨ j ∈ s := by
  rw [← contains_iff_mem, ← contains_iff_mem]
  by_cases h : j = k <;> simp [insert, contains, BTreeMap.contains, h]

@[simp] theorem mem_extend {l : List κ} : ∀ {s : BTreeSet κ} {k : κ},
    k ∈ s.extend l ↔ k ∈ l ∨ k ∈ s := by
  induction l with
  | nil => simp [extend]
  | cons a l ih =>
      intro s k
      show k ∈ (s.insert a).extend l ↔ _
      rw [ih, mem_insert, List.mem_cons]
      tauto

theorem mem_foldl_extend {α : Type} {f : α → List κ} {l : List α} {s : BTreeSet κ} {k : κ} :
    k ∈ l.foldl (fun s a => s.extend (f a)) s ↔ k ∈ s ∨ ∃ a ∈ l, k ∈ f a := by
  induction l generalizing s with
  | nil => simp
  | cons a l ih =>
    rw [List.foldl_cons, ih, BTreeSet.mem_extend]
    simp only [List.exists_mem_cons_iff]
    tauto

@[simp] theorem mem_ofList {l : List κ} {k : κ} : k ∈ ofList l ↔ k ∈ l := by
  simp [ofList]

@[simp] theorem mem_toList {s : BTreeSet κ} {k : κ} : k ∈ s.toList ↔ k ∈ s := by
  rw [← contains_iff_mem, contains, BTreeMap.contains_iff, toList, BTreeMap.mem_keys]

@[simp] theorem mem_retain {s : BTreeSet κ} {p : κ → Bool} {k : κ} :
    k ∈ s.retain p ↔ k ∈ s ∧ p k = true := by
  simp [retain]

/-- **Membership determines the set.** -/
theorem ext_mem {s₁ s₂ : BTreeSet κ} (h : ∀ k, k ∈ s₁ ↔ k ∈ s₂) : s₁ = s₂ := by
  have hm : s₁.map = s₂.map := BTreeMap.ext_get? fun k => by
    have hk := h k
    rw [← contains_iff_mem, ← contains_iff_mem, contains, contains, BTreeMap.contains,
      BTreeMap.contains] at hk
    cases h₁ : s₁.map.get? k <;> cases h₂ : s₂.map.get? k <;> simp_all
  cases s₁; cases s₂; simpa using hm

theorem toList_sorted (s : BTreeSet κ) : s.toList.Pairwise (· < ·) := s.map.keys_sorted

/-- The number of members. -/
def size (s : BTreeSet κ) : Nat := s.toList.length

theorem size_eq_weight (s : BTreeSet κ) : s.size = s.map.weight fun _ => 1 := by
  simp [size, toList, BTreeMap.keys, BTreeMap.weight]

theorem size_insert {s : BTreeSet κ} {k : κ} (h : k ∉ s) : (s.insert k).size = s.size + 1 := by
  have hnone : s.map.get? k = none := by
    rw [← contains_eq_false, contains, BTreeMap.contains, Option.isSome_eq_false_iff,
      Option.isNone_iff_eq_none] at h
    exact h
  have hw := s.map.weight_insert (fun _ => 1) k ()
  rw [hnone, Option.elim_none, Nat.add_zero] at hw
  rw [size_eq_weight, size_eq_weight, insert, hw]

end BTreeSet
end Puregit
