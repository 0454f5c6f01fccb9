import Mathlib.Data.Finset.Card
import Mathlib.Data.Fintype.Card
import Mathlib.Data.List.Basic
import Mathlib.Order.Interval.Finset.Nat
import Mathlib.Order.WellFounded

/-! # Levels by relaxation

In a finite graph without cycles the level of a node is one more than the greatest level of its
parents, and 1 if it has none.  `run` computes the levels of a table of nodes in place: it passes
over the table and puts right every row that does not agree with its parents' rows, until a pass
changes nothing.  Every pass makes one level more right, whatever the order of the rows, and there
are no more levels than rows; so one pass more than there are rows is always enough.
-/
namespace Puregit.Relaxation

/-- One more than the greatest of some levels; 1 of none. -/
def above (levels : List Nat) : Nat := levels.foldl (fun g l => max g (l + 1)) 1

/-- A pass over the rows from `i` on, and whether it changed one. -/
def pass : Nat → List (List Nat) → List Nat → List Nat × Bool
  | _, [], gens => (gens, false)
  | i, parents :: rest, gens =>
    let g := above (parents.map fun p => gens.getD p 0)
    if gens[i]? = some g then pass (i + 1) rest gens
    else ((pass (i + 1) rest (gens.set i g)).1, true)

/-- Passes until one changes nothing, and not more than `rounds`. -/
def run (table : List (List Nat)) : Nat → List Nat → Option (List Nat)
  | 0, _ => none
  | rounds + 1, gens =>
    let (gens, changed) := pass 0 table gens
    if changed then run table rounds gens else some gens

/-! ## The level above some others -/

theorem foldl_above (levels : List Nat) (g : Nat) :
    g ≤ levels.foldl (fun g l => max g (l + 1)) g ∧
      (∀ l ∈ levels, l + 1 ≤ levels.foldl (fun g l => max g (l + 1)) g) ∧
      (levels.foldl (fun g l => max g (l + 1)) g = g ∨
        ∃ l ∈ levels, levels.foldl (fun g l => max g (l + 1)) g = l + 1) := by
  induction levels generalizing g with
  | nil => exact ⟨Nat.le_refl g, nofun, Or.inl rfl⟩
  | cons l levels ih =>
    obtain ⟨hle, hall, hcases⟩ := ih (max g (l + 1))
    rw [List.foldl_cons]
    refine ⟨by omega, List.forall_mem_cons.mpr ⟨by omega, hall⟩, ?_⟩
    rcases hcases with heq | ⟨l', hl', heq⟩
    · rw [heq]
      rcases Nat.le_total g (l + 1) with h | h
      · exact Or.inr ⟨l, List.mem_cons_self, by omega⟩
      · exact Or.inl (by omega)
    · exact Or.inr ⟨l', List.mem_cons_of_mem _ hl', heq⟩

theorem succ_le_above {levels : List Nat} {l : Nat} (h : l ∈ levels) : l + 1 ≤ above levels :=
  (foldl_above levels 1).2.1 l h

theorem above_cases (levels : List Nat) : above levels = 1 ∨ ∃ l ∈ levels, above levels = l + 1 :=
  (foldl_above levels 1).2.2

/-- It is one more than the greatest. -/
theorem above_eq (levels : List Nat) : above levels = levels.foldr max 0 + 1 := by
  have hstart : ∀ g, levels.foldl (fun g l => max g (l + 1)) (g + 1) =
      max g (levels.foldr max 0) + 1 := by
    induction levels with
    | nil => exact fun g => by simp
    | cons l levels ih =>
      intro g
      rw [List.foldl_cons, Nat.add_max_add_right, ih, List.foldr_cons, Nat.max_assoc]
  have hzero := hstart 0
  rwa [Nat.zero_max] at hzero

/-- **A finite graph without cycles has levels.** -/
theorem exists_levels {α : Type} [Finite α] (parents : α → List α)
    (h : ∀ a, ¬ Relation.TransGen (fun p a => p ∈ parents a) a a) :
    ∃ level : α → Nat, ∀ a, level a = above ((parents a).map level) := by
  have hwf : WellFounded (Relation.TransGen fun p a => p ∈ parents a) := by
    have : Std.Irrefl (Relation.TransGen fun p a => p ∈ parents a) := ⟨h⟩
    exact Finite.wellFounded_of_trans_of_irrefl _
  refine ⟨hwf.fix fun a level => above ((parents a).attach.map fun p =>
    level p.1 (.single p.2)), fun a => ?_⟩
  rw [hwf.fix_eq]
  exact congrArg above (List.attach_map_val ..)

/-! ## What a pass makes right -/

/-- These are the levels of the rows of a table. -/
structure Levels (table : List (List Nat)) (level : Nat → Nat) : Prop where
  inside : ∀ parents ∈ table, ∀ p ∈ parents, p < table.length
  eq : ∀ i parents, table[i]? = some parents → level i = above (parents.map level)

variable {table : List (List Nat)} {level : Nat → Nat}

/-- Every level below that of a row is the level of a row. -/
theorem Levels.exists_row (h : Levels table level) {i : Nat} (hi : i < table.length)
    {k : Nat} (hk : 1 ≤ k) (hle : k ≤ level i) : ∃ j < table.length, level j = k := by
  induction hn : level i using Nat.strong_induction_on generalizing i with
  | _ n ih =>
    subst hn
    by_cases heq : level i = k
    · exact ⟨i, hi, heq⟩
    have hlevel := h.eq i _ (List.getElem?_eq_getElem hi)
    rcases above_cases (table[i].map level) with hone | ⟨l, hl, hsucc⟩
    · omega
    · obtain ⟨p, hp, rfl⟩ := List.mem_map.mp hl
      exact ih (level p) (by omega) (h.inside _ (List.getElem_mem hi) p hp) (by omega) rfl

/-- **There are no more levels than rows.** -/
theorem Levels.le_length (h : Levels table level) {i : Nat} (hi : i < table.length) :
    level i ≤ table.length := by
  have hsub : Finset.Icc 1 (level i) ⊆ (Finset.range table.length).image level := by
    intro k hk
    obtain ⟨hone, hle⟩ := Finset.mem_Icc.mp hk
    obtain ⟨j, hj, rfl⟩ := h.exists_row hi hone hle
    exact Finset.mem_image_of_mem _ (Finset.mem_range.mpr hj)
  have hcard := (Finset.card_le_card hsub).trans Finset.card_image_le
  rwa [Nat.card_Icc, Finset.card_range, Nat.add_sub_cancel] at hcard

/-- The rows of these levels are right. -/
def Right (level : Nat → Nat) (upTo : Nat) (gens : List Nat) : Prop :=
  ∀ j < gens.length, level j ≤ upTo → gens[j]? = some (level j)

/-- A row whose parents are right comes to its level. -/
theorem Levels.above_eq (h : Levels table level) {k : Nat} {gens : List Nat}
    (hlen : gens.length = table.length) (hright : Right level k gens) {i : Nat} {parents : List Nat}
    (hi : table[i]? = some parents) (hle : level i ≤ k + 1) :
    above (parents.map fun p => gens.getD p 0) = level i := by
  rw [h.eq i parents hi]
  refine congrArg above (List.map_congr_left fun p hp => ?_)
  have hinside := h.inside parents (List.mem_of_getElem? hi) p hp
  have hsucc := succ_le_above (List.mem_map_of_mem (f := level) hp)
  rw [← h.eq i parents hi] at hsucc
  rw [List.getD_eq_getElem?_getD, hright p (by omega) (by omega)]
  rfl

/-- The step: behind the rows that were passed, one level more is right. -/
theorem Levels.pass_right (h : Levels table level) {k : Nat} {done rest : List (List Nat)}
    (htable : done ++ rest = table) {gens : List Nat} (hlen : gens.length = table.length)
    (hright : Right level k gens) (hdone : ∀ j < done.length, level j ≤ k + 1 →
      gens[j]? = some (level j)) :
    (pass done.length rest gens).1.length = table.length ∧
      Right level (k + 1) (pass done.length rest gens).1 := by
  induction rest generalizing done gens with
  | nil =>
    rw [List.append_nil] at htable
    exact ⟨hlen, fun j hj => hdone j (by rw [htable]; exact hlen ▸ hj)⟩
  | cons parents rest ih =>
    have htable' : (done ++ [parents]) ++ rest = table := by
      rw [List.append_assoc, List.singleton_append, htable]
    have hrow : table[done.length]? = some parents := by
      rw [← htable, List.getElem?_append_right (Nat.le_refl _), Nat.sub_self,
        List.getElem?_cons_zero]
    have hlt := (List.getElem?_eq_some_iff.mp hrow).1
    have hlength : (done ++ [parents]).length = done.length + 1 := by
      rw [List.length_append, List.length_singleton]
    -- the row that is passed: right if its level is next
    have hnew : level done.length ≤ k + 1 →
        above (parents.map fun p => gens.getD p 0) = level done.length :=
          h.above_eq hlen hright hrow
    rw [pass]
    by_cases hsame : gens[done.length]? = some (above (parents.map fun p => gens.getD p 0))
    · rw [if_pos hsame, ← hlength]
      refine ih htable' hlen hright fun j hj hle => ?_
      rw [hlength] at hj
      rcases Nat.lt_succ_iff_lt_or_eq.mp hj with hj | rfl
      · exact hdone j hj hle
      · rw [hsame, hnew hle]
    · rw [if_neg hsame, ← hlength]
      refine ih htable' (by rwa [List.length_set]) ?_ fun j hj hle => ?_
      · intro j hj hle
        rw [List.length_set] at hj
        by_cases hjd : done.length = j
        · subst hjd
          rw [List.getElem?_set_self hj, hnew (by omega)]
        · rw [List.getElem?_set_ne hjd, hright j hj hle]
      · rw [hlength] at hj
        rcases Nat.lt_succ_iff_lt_or_eq.mp hj with hj | rfl
        · rw [List.getElem?_set_ne (by omega), hdone j hj hle]
        · rw [List.getElem?_set_self (by omega), hnew hle]

/-- A pass that changes nothing has found every row to agree with its parents. -/
theorem pass_unchanged {i : Nat} {rest : List (List Nat)} {gens : List Nat}
    (h : (pass i rest gens).2 = false) :
    (pass i rest gens).1 = gens ∧ ∀ (j : Nat) (parents : List Nat), rest[j]? = some parents →
      gens[i + j]? = some (above (parents.map fun p => gens.getD p 0)) := by
  induction rest generalizing i with
  | nil => exact ⟨rfl, nofun⟩
  | cons parents rest ih =>
    rw [pass] at h ⊢
    by_cases hsame : gens[i]? = some (above (parents.map fun p => gens.getD p 0))
    · rw [if_pos hsame] at h ⊢
      obtain ⟨hgens, hrows⟩ := ih h
      refine ⟨hgens, fun j parents' hj => ?_⟩
      cases j with
      | zero =>
        cases hj
        exact hsame
      | succ j =>
        have hrow := hrows j parents' hj
        rwa [Nat.add_assoc, Nat.add_comm 1] at hrow
    · rw [if_neg hsame] at h
      cases h

/-- Rows that agree with their parents are right. -/
theorem Levels.right_of_agree (h : Levels table level) {gens : List Nat}
    (hlen : gens.length = table.length) (hagree : ∀ (j : Nat) (parents : List Nat),
      table[j]? = some parents → gens[j]? = some (above (parents.map fun p => gens.getD p 0)))
    (k : Nat) : Right level k gens := by
  induction k with
  | zero =>
    intro j hj hle
    have hlevel := h.eq j _ (List.getElem?_eq_getElem (hlen ▸ hj))
    have hpos := (foldl_above (table[j].map level) 1).1
    rw [above] at hlevel
    omega
  | succ k ih =>
    intro j hj hle
    have hrow := List.getElem?_eq_getElem (hlen ▸ hj : j < table.length)
    rw [hagree j _ hrow, h.above_eq hlen ih hrow hle]

/-- A pass over rows that are all right changes nothing. -/
theorem Levels.pass_fixed (h : Levels table level) {k : Nat} {done rest : List (List Nat)}
    (htable : done ++ rest = table) {gens : List Nat} (hlen : gens.length = table.length)
    (hright : Right level k gens) (hk : table.length ≤ k) :
    (pass done.length rest gens).2 = false := by
  induction rest generalizing done with
  | nil => rfl
  | cons parents rest ih =>
    have htable' : (done ++ [parents]) ++ rest = table := by
      rw [List.append_assoc, List.singleton_append, htable]
    have hrow : table[done.length]? = some parents := by
      rw [← htable, List.getElem?_append_right (Nat.le_refl _), Nat.sub_self,
        List.getElem?_cons_zero]
    have hlt := (List.getElem?_eq_some_iff.mp hrow).1
    have hle := h.le_length hlt
    have hlength : (done ++ [parents]).length = done.length + 1 := by
      rw [List.length_append, List.length_singleton]
    rw [pass, h.above_eq hlen hright hrow (by omega),
      if_pos (hright _ (by omega) (by omega)), ← hlength]
    exact ih htable'

/-! ## The run -/

/-- Rounds enough for the levels that are not right make all right. -/
theorem Levels.run_right (h : Levels table level) {k rounds : Nat} {gens : List Nat}
    (hlen : gens.length = table.length) (hright : Right level k gens)
    (hrounds : table.length ≤ k + rounds) :
    ∃ gens', run table (rounds + 1) gens = some gens' ∧ gens'.length = table.length ∧
      ∀ j < table.length, gens'[j]? = some (level j) := by
  induction rounds generalizing k gens with
  | zero =>
    have hfixed := h.pass_fixed (List.nil_append table) hlen hright hrounds
    rw [List.length_nil] at hfixed
    refine ⟨gens, ?_, hlen, fun j hj => hright j (by omega) ((h.le_length hj).trans hrounds)⟩
    rw [run]
    simp only [hfixed, (pass_unchanged hfixed).1]
    rfl
  | succ rounds ih =>
    have hpass := h.pass_right (List.nil_append table) hlen hright nofun
    rw [List.length_nil] at hpass
    rw [run]
    cases hchanged : (pass 0 table gens).2 with
    | true =>
      simp only [hchanged]
      exact ih hpass.1 hpass.2 (by omega)
    | false =>
      obtain ⟨hgens, hagree⟩ := pass_unchanged hchanged
      simp only [hchanged, hgens]
      have hall := h.right_of_agree hlen (fun j parents hj => by
        have hrow := hagree j parents hj
        rwa [Nat.zero_add] at hrow) table.length
      exact ⟨gens, rfl, hlen, fun j hj => hall j (by omega) (h.le_length hj)⟩

/-- **The run comes to the levels.** -/
theorem Levels.run_eq (h : Levels table level) : ∃ gens,
    run table (table.length + 1) (List.replicate table.length 0) = some gens ∧
      gens.length = table.length ∧
      ∀ j < table.length, gens[j]? = some (level j) := by
  refine @Levels.run_right table level h 0 table.length _ List.length_replicate (fun j hj hle =>
    ?_) (by omega)
  rw [List.length_replicate] at hj
  have hlevel := h.eq j _ (List.getElem?_eq_getElem hj)
  have hpos := (foldl_above (table[j].map level) 1).1
  rw [above] at hlevel
  omega

end Puregit.Relaxation
