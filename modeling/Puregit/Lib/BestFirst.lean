import Mathlib.Data.List.Induction
import Mathlib.Data.List.Nodup
import Mathlib.Logic.Relation
import Mathlib.Order.Lattice

/-! # Best-first traversals

A traversal that goes through a graph from a set of starting points and always takes a
greatest one of the vertices waiting.  `BestFirst` describes the sequences it may take;
what they have in common follows from the description alone: no vertex is taken twice,
nothing but what can be reached is taken, a sequence that leaves nothing waiting has
taken all of it, and where edges do not lead to greater vertices the sequence descends.
-/
namespace Puregit
namespace BestFirst
variable {α τ : Type} [LinearOrder τ] (start : α → Prop) (leads : α → α → Prop) (time : α → τ)

/-- What waits after `taken`: a starting point or a successor of what was taken. -/
def Waiting (taken : List α) (x : α) : Prop := (start x ∨ ∃ z ∈ taken, leads z x) ∧ x ∉ taken

/-- `y` is a greatest one of those waiting. -/
def Pick (taken : List α) (y : α) : Prop :=
  Waiting start leads taken y ∧ ∀ x, Waiting start leads taken x → time x ≤ time y

/-- The sequences a traversal may have taken. -/
inductive Run : List α → Prop where
  | nil : Run []
  | snoc {taken : List α} {y : α} : Run taken → Pick start leads time taken y → Run (taken ++ [y])

/-- `x` can be reached from a starting point. -/
def Reached (x : α) : Prop := ∃ r, start r ∧ Relation.ReflTransGen leads r x

variable {start leads time}

theorem Run.nodup {taken : List α} (h : Run start leads time taken) : taken.Nodup := by
  induction h with
  | nil => exact List.nodup_nil
  | snoc _ hpick ih =>
      rw [← List.concat_eq_append]
      exact List.Nodup.concat hpick.1.2 ih

theorem Run.reached {taken : List α} (h : Run start leads time taken) :
    ∀ x ∈ taken, Reached start leads x := by
  induction h with
  | nil => exact fun x hx => by cases hx
  | snoc _ hpick ih =>
      intro x hx
      rcases List.mem_append.mp hx with hx | hx
      · exact ih x hx
      · rw [List.mem_singleton.mp hx]
        rcases hpick.1.1 with hstart | ⟨z, hz, hzy⟩
        · exact ⟨_, hstart, .refl⟩
        · obtain ⟨r, hr, hrz⟩ := ih z hz
          exact ⟨r, hr, hrz.tail hzy⟩

/-- **A run that leaves nothing waiting has taken what can be reached.** -/
theorem Run.mem_iff {taken : List α} (h : Run start leads time taken)
    (hend : ∀ x, ¬ Waiting start leads taken x) (x : α) : x ∈ taken ↔ Reached start leads x := by
  refine ⟨h.reached x, ?_⟩
  rintro ⟨r, hr, hx⟩
  induction hx with
  | refl => exact by_contra fun hnot => hend r ⟨Or.inl hr, hnot⟩
  | tail _ hstep ih => exact by_contra fun hnot => hend _ ⟨Or.inr ⟨_, ih, hstep⟩, hnot⟩

/-- Each vertex was picked from those waiting after the ones before it. -/
theorem Run.pick {taken : List α} (h : Run start leads time taken) :
    ∀ {before after : List α} {y : α}, taken = before ++ y :: after →
      Pick start leads time before y := by
  induction h with
  | nil => exact fun h => by simp at h
  | @snoc taken last _ hpick ih =>
      intro before after y hsplit
      induction after using List.reverseRecOn with
      | nil =>
          obtain ⟨rfl, hy⟩ := List.append_inj' hsplit rfl
          cases hy
          exact hpick
      | append_singleton after z _ =>
          rw [← List.cons_append, ← List.append_assoc] at hsplit
          exact ih (List.append_inj' hsplit rfl).1

/-- Where edges do not lead to greater vertices, what waits is no greater than what was
taken. -/
theorem Run.waiting_le (hdown : ∀ a b, leads a b → time b ≤ time a) {taken : List α}
    (h : Run start leads time taken) :
    ∀ x, Waiting start leads taken x → ∀ z ∈ taken, time x ≤ time z := by
  induction h with
  | nil => exact fun x _ z hz => by cases hz
  | @snoc taken y _ hpick ih =>
      rintro x ⟨hsource, hnot⟩ z hz
      have hle : time x ≤ time y := by
        rcases hsource with hstart | ⟨v, hv, hvx⟩
        · exact hpick.2 x ⟨Or.inl hstart, fun hx => hnot (List.mem_append_left _ hx)⟩
        · rcases List.mem_append.mp hv with hv | hv
          · exact hpick.2 x ⟨Or.inr ⟨v, hv, hvx⟩, fun hx => hnot (List.mem_append_left _ hx)⟩
          · rw [List.mem_singleton.mp hv] at hvx
            exact hdown y x hvx
      rcases List.mem_append.mp hz with hz | hz
      · exact hle.trans (ih y hpick.1 z hz)
      · rw [List.mem_singleton.mp hz]
        exact hle

/-- **Then the run descends.** -/
theorem Run.descends (hdown : ∀ a b, leads a b → time b ≤ time a) {taken : List α}
    (h : Run start leads time taken) : taken.Pairwise fun a b => time b ≤ time a := by
  induction h with
  | nil => exact List.Pairwise.nil
  | @snoc taken y hrun hpick ih =>
      refine List.pairwise_append.mpr ⟨ih, List.pairwise_singleton _ _, fun a ha b hb => ?_⟩
      rw [List.mem_singleton.mp hb]
      exact hrun.waiting_le hdown y hpick.1 a ha

end BestFirst
end Puregit
