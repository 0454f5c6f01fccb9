import Mathlib.Data.List.Basic
import Mathlib.Data.List.Induction

/-! # The last of a list to say something decides

A reading takes a member of a list for a value, or for nothing.  One pass over the list keeps the
value of the last member that has one; `lastSaid_iff` says what it keeps.

Two readings may differ on a member.  `lastSaid_eq_iff` says when they come to the same value: what
matters is the last member that either has a value for.
-/
namespace Puregit.LastWord

variable {α β : Type}

/-- One pass: a value replaces the one before it, the first of which is `d`. -/
def lastSaid (d : β) (f : α → Option β) (ls : List α) : β := ls.foldl (fun b l => (f l).getD b) d

/-- The last member with a value has this one; or none has one and it is `d`. -/
def LastSays (d : β) (f : α → Option β) (ls : List α) (b : β) : Prop :=
  (∃ front l back, ls = front ++ l :: back ∧ f l = some b ∧ ∀ l' ∈ back, f l' = none) ∨ b = d ∧
    ∀ l ∈ ls, f l = none

/-- Two readings come to the same at a member behind which both are silent. -/
structure AgreeAt (d : β) (f g : α → Option β) (front : List α) (l : α) : Prop where
  /-- Both have a value: it is the same. -/
  both : ∀ a b, f l = some a → g l = some b → a = b
  /-- Only the first has one: the second comes to it before. -/
  left : ∀ a, f l = some a → g l = none → LastSays d g front a
  /-- Only the second has one: the first comes to it before. -/
  right : ∀ b, f l = none → g l = some b → LastSays d f front b

/-- Two readings come to the same at the last member that either has a value for. -/
def Agree (d : β) (f g : α → Option β) (ls : List α) : Prop :=
  ∀ front l back, ls = front ++ l :: back → (∀ l' ∈ back, f l' = none ∧ g l' = none) →
    AgreeAt d f g front l

variable {d : β} {f g : α → Option β} {ls : List α} {l : α}

theorem lastSaid_concat : lastSaid d f (ls ++ [l]) = (f l).getD (lastSaid d f ls) := by
  rw [lastSaid, List.foldl_append]
  rfl

theorem lastSaid_congr (h : ∀ l ∈ ls, f l = g l) : lastSaid d f ls = lastSaid d g ls := by
  rw [lastSaid, lastSaid]
  exact List.foldl_ext _ _ _ fun b l hl => by rw [h l hl]

theorem lastSaid_silent {back : List α} (h : ∀ l ∈ back, f l = none) :
    lastSaid d f (ls ++ back) = lastSaid d f ls := by
  induction back using List.reverseRecOn with
  | nil => rw [List.append_nil]
  | append_singleton back l ih =>
      rw [List.forall_mem_append, List.forall_mem_singleton] at h
      rw [← List.append_assoc, lastSaid_concat, h.2, Option.getD_none, ih h.1]

/-- A member with a value, and then none. -/
theorem lastSaid_split {front back : List α} {b : β} (hl : f l = some b)
    (hback : ∀ l' ∈ back, f l' = none) :
    lastSaid d f (front ++ l :: back) = b := by
  rw [List.append_cons, lastSaid_silent hback, lastSaid_concat, hl, Option.getD_some]

/-- The last member with a property, if one has it. -/
theorem exists_last {P : α → Prop} (h : ∃ l ∈ ls, P l) :
    ∃ front l back, ls = front ++ l :: back ∧ P l ∧ ∀ l' ∈ back, ¬P l' := by
  induction ls using List.reverseRecOn with
  | nil =>
      obtain ⟨l, hl, -⟩ := h
      cases hl
  | append_singleton ls last ih =>
      by_cases hlast : P last
      · exact ⟨ls, last, [], rfl, hlast, List.forall_mem_nil _⟩
      · obtain ⟨l, hl, hP⟩ := h
        rcases List.mem_append.mp hl with hl | hl
        · obtain ⟨front, l', back, rfl, hl', hback⟩ := ih ⟨l, hl, hP⟩
          refine ⟨front, l', back ++ [last], by simp, hl', ?_⟩
          exact List.forall_mem_append.mpr ⟨hback, List.forall_mem_singleton.mpr hlast⟩
        · exact absurd (List.mem_singleton.mp hl ▸ hP) hlast

/-- **The pass keeps what the last member with a value says.** -/
theorem lastSaid_iff {b : β} : lastSaid d f ls = b ↔ LastSays d f ls b := by
  have hkept : ∀ b, LastSays d f ls b → lastSaid d f ls = b := by
    rintro b (⟨front, l, back, rfl, hl, hback⟩ | ⟨rfl, hnone⟩)
    · exact lastSaid_split hl hback
    · exact @lastSaid_silent _ _ b f [] ls hnone
  refine ⟨?_, hkept b⟩
  rintro rfl
  by_cases hsome : ∃ l ∈ ls, f l ≠ none
  · obtain ⟨front, l, back, rfl, hl, hback⟩ := exists_last hsome
    obtain ⟨a, ha⟩ := Option.ne_none_iff_exists'.mp hl
    have hsilent : ∀ l' ∈ back, f l' = none := fun l' hl' => not_not.mp (hback l' hl')
    exact Or.inl ⟨front, l, back, rfl, (lastSaid_split ha hsilent).symm ▸ ha, hsilent⟩
  · have hnone : ∀ l ∈ ls, f l = none := fun l hl => not_not.mp fun h => hsome ⟨l, hl, h⟩
    exact Or.inr ⟨@lastSaid_silent _ _ d f [] ls hnone, hnone⟩

/-- Two readings of one more member. -/
theorem lastSaid_concat_eq_iff : lastSaid d f (ls ++ [l]) = lastSaid d g (ls ++ [l]) ↔
    AgreeAt d f g ls l ∧ (f l = none → g l = none → lastSaid d f ls = lastSaid d g ls) := by
  rw [lastSaid_concat, lastSaid_concat]
  cases hf : f l with
  | none =>
      cases hg : g l with
      | none =>
          refine ⟨fun h => ⟨⟨?_, ?_, ?_⟩, fun _ _ => h⟩, fun h => h.2 rfl rfl⟩
          · exact fun a b ha => nomatch hf.symm.trans ha
          · exact fun a ha => nomatch hf.symm.trans ha
          · exact fun b _ hb => nomatch hg.symm.trans hb
      | some b =>
          refine ⟨fun h => ⟨⟨?_, ?_, ?_⟩, nofun⟩, fun h => lastSaid_iff.mpr (h.1.right b hf hg)⟩
          · exact fun a b ha => nomatch hf.symm.trans ha
          · exact fun a ha => nomatch hf.symm.trans ha
          · intro b' _ hb'
            cases hg.symm.trans hb'
            exact lastSaid_iff.mp h
  | some a =>
      cases hg : g l with
      | none =>
          refine ⟨fun h => ⟨⟨?_, ?_, ?_⟩, nofun⟩, fun h =>
            (lastSaid_iff.mpr (h.1.left a hf hg)).symm⟩
          · exact fun a b _ hb => nomatch hg.symm.trans hb
          · intro a' ha' _
            cases hf.symm.trans ha'
            exact lastSaid_iff.mp h.symm
          · exact fun b _ hb => nomatch hg.symm.trans hb
      | some b =>
          refine ⟨fun h => ⟨⟨?_, ?_, ?_⟩, nofun⟩, fun h => h.1.both a b hf hg⟩
          · intro a' b' ha' hb'
            cases hf.symm.trans ha'
            cases hg.symm.trans hb'
            exact h
          · exact fun a' _ hnone => nomatch hg.symm.trans hnone
          · exact fun b' hnone => nomatch hf.symm.trans hnone

theorem agree_concat : Agree d f g (ls ++ [l]) ↔ AgreeAt d f g ls l ∧
    (f l = none → g l = none → Agree d f g ls) := by
  constructor
  · refine fun h => ⟨h ls l [] rfl (List.forall_mem_nil _),
      fun hf hg front l' back hsplit hback => ?_⟩
    subst hsplit
    refine h front l' (back ++ [l]) (by simp) ?_
    exact List.forall_mem_append.mpr ⟨hback, List.forall_mem_singleton.mpr ⟨hf, hg⟩⟩
  · rintro ⟨hat, hrest⟩ front l' back hsplit hback
    rcases List.eq_nil_or_concat back with rfl | ⟨back, last, rfl⟩
    · obtain ⟨rfl, heq⟩ := List.append_inj' hsplit rfl
      cases heq
      exact hat
    · rw [List.concat_eq_append] at hsplit hback
      rw [← List.cons_append, ← List.append_assoc] at hsplit
      obtain ⟨hfront, heq⟩ := List.append_inj' hsplit rfl
      cases heq
      rw [List.forall_mem_append, List.forall_mem_singleton] at hback
      exact hrest hback.2.1 hback.2.2 front l' back hfront hback.1

/-- **Two readings come to the same value just if they agree** at the last member that either has a
value for. -/
theorem lastSaid_eq_iff : lastSaid d f ls = lastSaid d g ls ↔ Agree d f g ls := by
  induction ls using List.reverseRecOn with
  | nil => exact iff_of_true rfl fun front l back hsplit => by simp at hsplit
  | append_singleton ls l ih => rw [lastSaid_concat_eq_iff, agree_concat, ih]

end Puregit.LastWord
