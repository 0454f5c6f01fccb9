import Mathlib.Logic.Function.Basic
import Mathlib.Logic.Relation

/-! # Writing aside and publishing

Writers share a store of cells.  One that is to replace the content of a cell first creates a cell
of its own, which must not be there, fills it, and then publishes it: the content moves to where it
is read, at once.  The cells that drafts are put in are private; nothing is published to them.

`Safe` is what holds at any time, whatever the writers do in between: a draft is where its writer
has put it and nobody else's, and every other cell holds what was last published there.
-/
namespace Puregit.Publish

variable {ι P V : Type} [DecidableEq P]

/-- What a writer holds: a cell of its own, and what it has put there. -/
structure Draft (P V : Type) where
  cell : P
  content : V

/-- The cells, the drafts of the writers, and what was published, newest first. -/
structure State (ι P V : Type) where
  cells : P → Option V
  drafts : ι → Option (Draft P V)
  published : List (P × Option V)

/-- What was last published of a cell. -/
def last (published : List (P × Option V)) (p : P) : Option (Option V) :=
  (published.find? (·.1 = p)).map (·.2)

@[simp] theorem last_nil (p : P) : last ([] : List (P × Option V)) p = none := rfl

theorem last_cons (e : P × Option V) (published : List (P × Option V)) (p : P) :
    last (e :: published) p = if e.1 = p then some e.2 else last published p := by
  rw [last, List.find?_cons]
  split
  · rename_i h
    rw [if_pos (of_decide_eq_true h)]
    rfl
  · rename_i h
    rw [if_neg (of_decide_eq_false h)]
    rfl

/-- What a cell comes to hold, of what it held first. -/
def settled (cells₀ : P → Option V) (published : List (P × Option V)) (p : P) : Option V :=
  (last published p).getD (cells₀ p)

theorem settled_cons (cells₀ : P → Option V) (e : P × Option V)
    (published : List (P × Option V)) (p : P) :
    settled cells₀ (e :: published) p = if e.1 = p then e.2 else settled cells₀ published p := by
  rw [settled, last_cons]
  split
  · rfl
  · rfl

/-- No draft is in the cell. -/
def State.Open (s : State ι P V) (p : P) : Prop := ∀ i d, s.drafts i = some d → d.cell ≠ p

variable (Private : P → Prop)

/-- What holds at any time of cells that began as `cells₀`. -/
structure Safe (cells₀ : P → Option V) (s : State ι P V) : Prop where
  /-- A draft is where its writer has put it. -/
  held : ∀ i d, s.drafts i = some d → Private d.cell ∧ s.cells d.cell = some d.content
  /-- A cell holds the draft of one writer. -/
  exclusive : ∀ i j d d', s.drafts i = some d → s.drafts j = some d' → d.cell = d'.cell → i = j
  /-- A draft is where nothing was. -/
  fresh : ∀ i d, s.drafts i = some d → cells₀ d.cell = none
  /-- Nothing is published to a private cell. -/
  shared : ∀ e ∈ s.published, ¬Private e.1
  /-- A cell without a draft holds what was last published there. -/
  settled : ∀ p, s.Open p → s.cells p = settled cells₀ s.published p

variable {Private} {cells₀ : P → Option V} {s s' : State ι P V}

/-- Before anyone writes. -/
theorem Safe.start (cells₀ : P → Option V) :
    Safe Private cells₀ (⟨cells₀, fun _ : ι => none, []⟩ : State ι P V) where
  held _ _ h := nomatch h
  exclusive _ _ _ _ h := nomatch h
  fresh _ _ h := nomatch h
  shared _ he := absurd he List.not_mem_nil
  settled _ _ := rfl

/-- A private cell settles at what it was first. -/
theorem Safe.settled_private (h : Safe Private cells₀ s) {p : P} (hp : Private p) :
    Publish.settled cells₀ s.published p = cells₀ p := by
  have hnone : s.published.find? (·.1 = p) = none := by
    rw [List.find?_eq_none]
    intro e he heq
    exact h.shared e he (of_decide_eq_true heq ▸ hp)
  rw [Publish.settled, last, hnone]
  rfl

/-- A draft of another writer is in another cell. -/
theorem Safe.cell_ne (h : Safe Private cells₀ s) {i j : ι} {d d' : Draft P V}
    (hd : s.drafts i = some d) (hd' : s.drafts j = some d') (hne : j ≠ i) : d'.cell ≠ d.cell :=
  fun heq => hne (h.exclusive j i d' d hd' hd heq)

/-! ## Steps -/

variable [DecidableEq ι]

omit [DecidableEq P] in
/-- The draft of a writer after one of them has got another. -/
theorem draft_update {drafts : ι → Option (Draft P V)} {i j : ι} {x : Option (Draft P V)}
    {d : Draft P V} (h : Function.update drafts i x j = some d) :
    j = i ∧ x = some d ∨ j ≠ i ∧ drafts j = some d := by
  by_cases hj : j = i
  · subst hj
    rw [Function.update_self] at h
    exact Or.inl ⟨rfl, h⟩
  · rw [Function.update_of_ne hj] at h
    exact Or.inr ⟨hj, h⟩

/-- A writer creates a cell of its own. -/
theorem Safe.create (h : Safe Private cells₀ s) {i : ι} {p : P} (v : V) (hidle : s.drafts i = none)
    (hp : Private p) (hfree : s.cells p = none) : Safe Private cells₀
      ⟨Function.update s.cells p (some v), Function.update s.drafts i (some ⟨p, v⟩),
        s.published⟩ := by
  -- nobody's draft is in a cell that is not there
  have hopen : s.Open p := by
    intro j d hd heq
    have hcell := (h.held j d hd).2
    rw [heq, hfree] at hcell
    cases hcell
  constructor
  · intro j d hd
    rcases draft_update hd with ⟨rfl, hnew⟩ | ⟨-, hd⟩
    · cases hnew
      exact ⟨hp, Function.update_self _ _ _⟩
    · exact ⟨(h.held j d hd).1, (Function.update_of_ne (hopen j d hd) _ _).trans (h.held j d hd).2⟩
  · intro j k d d' hd hd' heq
    rcases draft_update hd with ⟨rfl, hnew⟩ | ⟨-, hd⟩
    · cases hnew
      rcases draft_update hd' with ⟨rfl, -⟩ | ⟨-, hd'⟩
      · rfl
      · exact absurd heq.symm (hopen k d' hd')
    · rcases draft_update hd' with ⟨-, hnew⟩ | ⟨-, hd'⟩
      · cases hnew
        exact absurd heq (hopen j d hd)
      · exact h.exclusive j k d d' hd hd' heq
  · intro j d hd
    rcases draft_update hd with ⟨-, hnew⟩ | ⟨-, hd⟩
    · cases hnew
      rw [← h.settled_private hp, ← h.settled p hopen]
      exact hfree
    · exact h.fresh j d hd
  · exact h.shared
  · intro q hq
    have hqp : p ≠ q := hq i ⟨p, v⟩ (Function.update_self _ _ _)
    refine (Function.update_of_ne hqp.symm _ _).trans (h.settled q fun j d hd => ?_)
    by_cases hj : j = i
    · rw [hj, hidle] at hd
      cases hd
    · exact hq j d ((Function.update_of_ne hj _ _).trans hd)

/-- A writer fills the cell of its draft. -/
theorem Safe.fill (h : Safe Private cells₀ s) {i : ι} {d : Draft P V} (v : V)
    (hd₀ : s.drafts i = some d) :
    Safe Private cells₀
      ⟨Function.update s.cells d.cell (some v), Function.update s.drafts i (some ⟨d.cell, v⟩),
        s.published⟩ := by
  -- each writer's cell is the one it had
  have hbefore : ∀ j e, Function.update s.drafts i (some ⟨d.cell, v⟩) j = some e →
      ∃ e', s.drafts j = some e' ∧ e'.cell = e.cell := by
    intro j e he
    rcases draft_update he with ⟨rfl, hnew⟩ | ⟨-, he⟩
    · cases hnew
      exact ⟨d, hd₀, rfl⟩
    · exact ⟨e, he, rfl⟩
  constructor
  · intro j e he
    rcases draft_update he with ⟨rfl, hnew⟩ | ⟨hj, he⟩
    · cases hnew
      exact ⟨(h.held j d hd₀).1, Function.update_self _ _ _⟩
    · exact ⟨(h.held j e he).1, (Function.update_of_ne (h.cell_ne hd₀ he hj) _ _).trans
        (h.held j e he).2⟩
  · intro j k e₁ e₂ he₁ he₂ heq
    obtain ⟨b₁, hb₁, hc₁⟩ := hbefore j e₁ he₁
    obtain ⟨b₂, hb₂, hc₂⟩ := hbefore k e₂ he₂
    exact h.exclusive j k b₁ b₂ hb₁ hb₂ (by rw [hc₁, hc₂, heq])
  · intro j e he
    obtain ⟨b, hb, hc⟩ := hbefore j e he
    rw [← hc]
    exact h.fresh j b hb
  · exact h.shared
  · intro q hq
    have hqd : d.cell ≠ q := hq i ⟨d.cell, v⟩ (Function.update_self _ _ _)
    refine (Function.update_of_ne hqd.symm _ _).trans (h.settled q fun j e he => ?_)
    by_cases hj : j = i
    · rw [hj, hd₀] at he
      cases he
      exact hqd
    · exact hq j e ((Function.update_of_ne hj _ _).trans he)

/-- A writer drops its draft. -/
theorem Safe.drop (h : Safe Private cells₀ s) {i : ι} {d : Draft P V} (hd₀ : s.drafts i = some d) :
    Safe Private cells₀ ⟨Function.update s.cells d.cell none, Function.update s.drafts i none,
      s.published⟩ := by
  have hother : ∀ j e, Function.update s.drafts i none j = some e →
      j ≠ i ∧ s.drafts j = some e := by
    intro j e he
    rcases draft_update he with ⟨-, hnew⟩ | he
    · cases hnew
    · exact he
  constructor
  · intro j e he
    obtain ⟨hj, he⟩ := hother j e he
    exact ⟨(h.held j e he).1, (Function.update_of_ne (h.cell_ne hd₀ he hj) _ _).trans
      (h.held j e he).2⟩
  · intro j k e₁ e₂ he₁ he₂
    exact h.exclusive j k e₁ e₂ (hother j e₁ he₁).2 (hother k e₂ he₂).2
  · intro j e he
    exact h.fresh j e (hother j e he).2
  · exact h.shared
  · intro p hp
    by_cases hdp : p = d.cell
    · -- the cell is gone, as it was before the draft
      subst hdp
      rw [h.settled_private (h.held i d hd₀).1, h.fresh i d hd₀]
      exact Function.update_self _ _ _
    · refine (Function.update_of_ne hdp _ _).trans (h.settled p fun j e he => ?_)
      by_cases hj : j = i
      · rw [hj, hd₀] at he
        cases he
        exact Ne.symm hdp
      · exact hp j e ((Function.update_of_ne hj _ _).trans he)

omit [DecidableEq ι] in
/-- A cell that is not private is set. -/
theorem Safe.set (h : Safe Private cells₀ s) {q : P} (v : Option V) (hq : ¬Private q) :
    Safe Private cells₀ ⟨Function.update s.cells q v, s.drafts, (q, v) :: s.published⟩ := by
  constructor
  · intro j d hd
    obtain ⟨hp, hcell⟩ := h.held j d hd
    exact ⟨hp, (Function.update_of_ne (fun heq : d.cell = q => hq (heq ▸ hp)) _ _).trans hcell⟩
  · exact h.exclusive
  · exact h.fresh
  · exact List.forall_mem_cons.mpr ⟨hq, h.shared⟩
  · intro p hp
    rw [settled_cons]
    by_cases hqp : q = p
    · rw [if_pos hqp, ← hqp]
      exact Function.update_self _ _ _
    · rw [if_neg hqp]
      exact (Function.update_of_ne (Ne.symm hqp) _ _).trans (h.settled p hp)

/-- A draft is published: it is dropped, and what it was is set. -/
theorem Safe.publish (h : Safe Private cells₀ s) {i : ι} {d : Draft P V} {q : P}
    (hd : s.drafts i = some d) (hq : ¬Private q) : Safe Private cells₀
      ⟨Function.update (Function.update s.cells d.cell none) q (some d.content),
        Function.update s.drafts i none,
        (q, some d.content) :: s.published⟩ :=
  (h.drop hd).set (some d.content) hq

end Puregit.Publish
