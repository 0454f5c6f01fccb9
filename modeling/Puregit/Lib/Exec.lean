import Mathlib.Data.List.Forall2
import Mathlib.Logic.Relation
import Mathlib.Order.Lattice
import Mathlib.Tactic.Ring

/-! # Computations over a state that may fail or not return

`Exec σ ε α` is a computation over a state `σ`: it returns a value, fails with an
`ε`, or does not return (`none`).  A failure keeps the state reached so far, as a
function that returns early keeps the writes it has made.  `Eval ε α` is the same
without a state.

`Exec.Returns x s Q` says that `x` returns from `s`, and `Q` of the value or the error and
of the state reached.

`Exec.Keeps R x` says that every way `x` ends relates the state it started from to
the state it ended in by `R`.  For a reflexive and transitive `R` it is compositional,
so a frame condition is proved along the syntax of a program: one fact about each
primitive step, the rules below for everything else.
-/
namespace Puregit

/-- A value, an error, or no result. -/
abbrev Eval (ε α : Type) := ExceptT ε Option α

theorem except_map_ok {ε α β : Type} {x : Except ε α} {f : α → β} {b : β} :
    x.map f = .ok b ↔ ∃ a, x = .ok a ∧ f a = b := by
  cases x <;> simp [Except.map]

theorem except_bind_ok {ε α β : Type} {x : Except ε α} {f : α → Except ε β} {b : β} :
    (x >>= f) = .ok b ↔ ∃ a, x = .ok a ∧ f a = .ok b := by
  cases x <;> simp [bind, Except.bind]

theorem except_ok_bind {ε α β : Type} (a : α) (f : α → Except ε β) :
    (Except.ok a >>= f) = f a := rfl

theorem except_bind_pure {ε α β : Type} {x : Except ε α} {f : α → β} :
    (x >>= fun a => .ok (f a)) = x.map f := by
  cases x <;> rfl

theorem except_bind_error {ε α β : Type} {x : Except ε α} {f : α → Except ε β} {e : ε} :
    (x >>= f) = .error e ↔ x = .error e ∨ ∃ a, x = .ok a ∧ f a = .error e := by
  cases x <;> simp [bind, Except.bind]

/-- A list is mapped where each of its members is. -/
theorem except_mapM_ok {ε α β : Type} {f : α → Except ε β} {l : List α} {r : List β} :
    l.mapM f = .ok r ↔ List.Forall₂ (fun a b => f a = .ok b) l r := by
  induction l generalizing r with
  | nil =>
      rw [List.mapM_nil, List.forall₂_nil_left_iff]
      exact ⟨fun h => by cases h; rfl, fun h => by rw [h]; rfl⟩
  | cons a l ih =>
      rw [List.mapM_cons, List.forall₂_cons_left_iff]
      constructor
      · intro h
        obtain ⟨b, hb, h⟩ := except_bind_ok.mp h
        obtain ⟨bs, hbs, h⟩ := except_bind_ok.mp h
        cases h
        exact ⟨b, bs, hb, ih.mp hbs, rfl⟩
      · rintro ⟨b, bs, hb, hbs, rfl⟩
        exact except_bind_ok.mpr ⟨b, hb, except_bind_ok.mpr ⟨bs, ih.mpr hbs, rfl⟩⟩

/-- A list can be mapped if each of its members can. -/
theorem except_mapM_exists {ε α β : Type} {f : α → Except ε β} {l : List α}
    (h : ∀ a ∈ l, ∃ b, f a = .ok b) :
    ∃ r, l.mapM f = .ok r := by
  induction l with
  | nil => exact ⟨[], rfl⟩
  | cons a l ih =>
      obtain ⟨b, hb⟩ := h a List.mem_cons_self
      obtain ⟨r, hr⟩ := ih fun a ha => h a (List.mem_cons_of_mem _ ha)
      exact ⟨b :: r, except_mapM_ok.mpr (List.Forall₂.cons hb (except_mapM_ok.mp hr))⟩

/-- The image of a member is in the mapped list. -/
theorem except_mapM_mem {ε α β : Type} {f : α → Except ε β} {l : List α} {r : List β}
    (h : l.mapM f = .ok r) {a : α} (ha : a ∈ l) : ∃ b ∈ r, f a = .ok b := by
  have hall := except_mapM_ok.mp h
  clear h
  induction hall with
  | nil => cases ha
  | @cons a' b l r hab _ ih =>
      rcases List.mem_cons.mp ha with rfl | ha
      · exact ⟨b, List.mem_cons_self, hab⟩
      · obtain ⟨b', hb, hf⟩ := ih ha
        exact ⟨b', List.mem_cons_of_mem _ hb, hf⟩

/-- What is in the mapped list is the image of a member. -/
theorem mem_of_except_mapM {ε α β : Type} {f : α → Except ε β} {l : List α} {r : List β}
    (h : l.mapM f = .ok r) {b : β} (hb : b ∈ r) : ∃ a ∈ l, f a = .ok b := by
  have hall := except_mapM_ok.mp h
  clear h
  induction hall with
  | nil => cases hb
  | @cons a b' l r hab _ ih =>
      rcases List.mem_cons.mp hb with rfl | hb
      · exact ⟨a, List.mem_cons_self, hab⟩
      · obtain ⟨a', ha, hf⟩ := ih hb
        exact ⟨a', List.mem_cons_of_mem _ ha, hf⟩

/-- What every step of a fold keeps, the fold keeps. -/
theorem except_foldlM_inv {ε α β : Type} {f : β → α → Except ε β} {l : List α} {P : β → Prop}
    (hf : ∀ b, P b → ∀ a ∈ l, ∀ b', f b a = .ok b' → P b') {b b' : β} (hb : P b)
    (h : l.foldlM f b = .ok b') : P b' := by
  induction l generalizing b with
  | nil =>
      cases h
      exact hb
  | cons a l ih =>
      rw [List.foldlM_cons] at h
      obtain ⟨b₁, h₁, h⟩ := except_bind_ok.mp h
      exact ih (fun b hb a ha => hf b hb a (List.mem_cons_of_mem _ ha))
        (hf b hb a List.mem_cons_self b₁ h₁) h

/-- Every error of `x` satisfies `P`. -/
def FailsOnly {ε α : Type} (P : ε → Prop) (x : Except ε α) : Prop := ∀ e, x = .error e → P e

section
variable {ε α β : Type} {P : ε → Prop}

theorem failsOnly_ok (a : α) : FailsOnly P (.ok a : Except ε α) := nofun

theorem failsOnly_error {e : ε} (h : P e) : FailsOnly P (.error e : Except ε α) := by
  intro e' he
  cases he
  exact h

theorem failsOnly_bind {x : Except ε α} {f : α → Except ε β} (hx : FailsOnly P x)
    (hf : ∀ a, FailsOnly P (f a)) : FailsOnly P (x >>= f) := by
  intro e he
  rcases except_bind_error.mp he with hx' | ⟨a, -, hf'⟩
  · exact hx e hx'
  · exact hf a e hf'

theorem failsOnly_map {x : Except ε α} {f : α → β} (hx : FailsOnly P x) :
    FailsOnly P (x.map f) := by
  cases x with
  | error e => exact failsOnly_error (hx e rfl)
  | ok a => exact failsOnly_ok (f a)

theorem failsOnly_foldlM {f : β → α → Except ε β} (hf : ∀ b a, FailsOnly P (f b a))
    (l : List α) (b : β) :
    FailsOnly P (l.foldlM f b) := by
  induction l generalizing b with
  | nil => exact failsOnly_ok b
  | cons a l ih =>
      rw [List.foldlM_cons]
      exact failsOnly_bind (hf b a) ih

end

theorem exists_ok {ε α : Type} {x : Except ε α} (h : x.toBool = true) : ∃ a, x = .ok a := by
  cases x with
  | error e => cases h
  | ok a => exact ⟨a, rfl⟩

/-- A computation over a state. -/
def Exec (σ ε α : Type) := σ → Option (Except ε α × σ)

namespace Exec
variable {σ τ ε α β : Type}

/-- Runs `x`, then `f` on its value; an error of `x` ends the computation. -/
def andThen (x : Exec σ ε α) (f : α → Exec σ ε β) : Exec σ ε β := fun s =>
  match x s with
  | none => none
  | some (.error e, s') => some (.error e, s')
  | some (.ok a, s') => f a s'

instance : Monad (Exec σ ε) where
  pure a := fun s => some (.ok a, s)
  bind := andThen

/-- Fails, leaving the state as it is. -/
def throw (e : ε) : Exec σ ε α := fun s => some (.error e, s)

/-- A step that always returns. -/
def step (f : σ → Except ε α × σ) : Exec σ ε α := fun s => some (f s)

/-- A read of the state that may fail. -/
def read (f : σ → Except ε α) : Exec σ ε α := fun s => some (f s, s)

/-- A read of the state that may fail or not return. -/
def eval (f : σ → Eval ε α) : Exec σ ε α := fun s => (f s).run.map fun r => (r, s)

/-- A value or an error, as a computation. -/
def ofExcept (x : Except ε α) : Exec σ ε α := fun s => some (x, s)

/-- Runs a computation over a component of the state. -/
def zoom (get : σ → τ) (put : τ → σ → σ) (x : Exec τ ε α) : Exec σ ε α := fun s =>
  (x (get s)).map fun r => (r.1, put r.2 s)

@[simp] theorem pure_apply (a : α) (s : σ) : (pure a : Exec σ ε α) s = some (.ok a, s) := rfl

@[simp] theorem step_apply (f : σ → Except ε α × σ) (s : σ) : step f s = some (f s) := rfl

@[simp] theorem ofExcept_apply (x : Except ε α) (s : σ) :
    (ofExcept x : Exec σ ε α) s = some (x, s) := rfl

theorem bind_apply (x : Exec σ ε α) (f : α → Exec σ ε β) (s : σ) :
    (x >>= f) s = andThen x f s := rfl

/-- Success comes from success of both parts. -/
theorem bind_ok {x : Exec σ ε α} {f : α → Exec σ ε β} {s s' : σ} {b : β} :
    (x >>= f) s = some (.ok b, s') ↔ ∃ a s₁, x s = some (.ok a, s₁) ∧
      f a s₁ = some (.ok b, s') := by
  rw [bind_apply, andThen]
  constructor
  · intro h
    split at h
    · cases h
    · simp at h
    · rename_i a s₁ hx
      exact ⟨a, s₁, hx, h⟩
  · rintro ⟨a, s₁, hx, hf⟩
    rw [hx]
    exact hf

/-- An error is one of the first part, or of what follows it. -/
theorem bind_error {x : Exec σ ε α} {f : α → Exec σ ε β} {s s' : σ} {e : ε} :
    (x >>= f) s = some (.error e, s') ↔
      x s = some (.error e, s') ∨ ∃ a s₁, x s = some (.ok a, s₁) ∧
        f a s₁ = some (.error e, s') := by
  rw [bind_apply, andThen]
  constructor
  · intro h
    split at h
    · cases h
    · rename_i e₁ s₁ hx
      obtain ⟨he, rfl⟩ := Prod.mk.inj (Option.some.inj h)
      cases he
      exact Or.inl hx
    · rename_i a s₁ hx
      exact Or.inr ⟨a, s₁, hx, h⟩
  · rintro (hx | ⟨a, s₁, hx, hf⟩)
    · rw [hx]
    · rw [hx]
      exact hf

/-- What follows a read goes on from the same state. -/
theorem read_bind_ok {f : σ → Except ε α} {g : α → Exec σ ε β} {s s' : σ} {b : β} :
    (read f >>= g) s = some (.ok b, s') ↔ ∃ a, f s = .ok a ∧ g a s = some (.ok b, s') := by
  rw [bind_ok]
  constructor
  · rintro ⟨a, s₁, hread, hg⟩
    obtain ⟨ha, rfl⟩ := Prod.mk.inj (Option.some.inj hread)
    exact ⟨a, ha, hg⟩
  · rintro ⟨a, ha, hg⟩
    exact ⟨a, s, by rw [read, ha], hg⟩

/-- What follows a read is run on what was read. -/
theorem read_bind_congr {f : σ → Except ε α} {g g' : α → Exec σ ε β}
    (h : ∀ s a, f s = .ok a → g a s = g' a s) : (read f >>= g) = (read f >>= g') := by
  funext s
  rw [bind_apply, bind_apply, andThen, andThen, read]
  cases hf : f s with
  | error e => rfl
  | ok a => exact h s a hf

/-- What follows a given value goes on from the same state. -/
theorem ofExcept_bind_ok {x : Except ε α} {g : α → Exec σ ε β} {s s' : σ} {b : β} :
    (ofExcept x >>= g) s = some (.ok b, s') ↔ ∃ a, x = .ok a ∧ g a s = some (.ok b, s') :=
  @read_bind_ok σ ε α β (fun _ => x) g s s' b

theorem eval_ok {f : σ → Eval ε α} {s s' : σ} {a : α} :
    eval f s = some (.ok a, s') ↔ (f s).run = some (.ok a) ∧ s' = s := by
  simp only [eval, Option.map_eq_some_iff, Prod.mk.injEq]
  constructor
  · rintro ⟨r, hr, rfl, rfl⟩
    exact ⟨hr, rfl⟩
  · rintro ⟨hr, rfl⟩
    exact ⟨_, hr, rfl, rfl⟩

/-! ## Following a computation without a state -/

/-- A run ends as `x` does: with a value and a state that `R` relates to the value of `x`,
or with the error of `x`. -/
structure EndsAs (R : α → β → σ → Prop) (x : Except ε α)
    (run : Option (Except ε β × σ)) : Prop where
  ok : ∀ a, x = .ok a → ∃ b s, run = some (.ok b, s) ∧ R a b s
  error : ∀ e, x = .error e → ∃ s, run = some (.error e, s)

namespace EndsAs
variable {γ δ : Type} {R : α → β → σ → Prop} {Q : γ → δ → σ → Prop} {x : Except ε α}
  {y : Exec σ ε β} {f : α → Except ε γ} {g : β → Exec σ ε δ} {s : σ}

theorem value {a : α} {b : β} (h : R a b s) : EndsAs R (.ok a : Except ε α) (some (.ok b, s)) := by
  refine ⟨fun a' ha => ?_, fun e he => by cases he⟩
  cases ha
  exact ⟨b, s, rfl, h⟩

theorem ofExcept (x : Except ε α) (s : σ) :
    EndsAs (fun a b s' => b = a ∧ s' = s) x (Exec.ofExcept x s) := by
  constructor
  · rintro a rfl
    exact ⟨a, s, rfl, rfl, rfl⟩
  · rintro e rfl
    exact ⟨s, rfl⟩

/-- What follows is compared where both have come to. -/
theorem bind (hx : EndsAs R x (y s))
    (hf : ∀ a b s', x = .ok a → R a b s' → EndsAs Q (f a) (g b s')) :
    EndsAs Q (x >>= f) ((y >>= g) s) := by
  rw [bind_apply, andThen]
  cases x with
  | error e =>
      obtain ⟨s', hy⟩ := hx.error e rfl
      rw [hy]
      refine ⟨fun c hc => (by cases hc), fun e' he => ?_⟩
      cases he
      exact ⟨s', rfl⟩
  | ok a =>
      obtain ⟨b, s', hy, hR⟩ := hx.ok a rfl
      rw [hy]
      exact hf a b s' rfl hR

/-- The same step of both. -/
theorem bind_ofExcept {f : α → Except ε γ} {g : α → Exec σ ε δ}
    (hf : ∀ a, x = .ok a → EndsAs Q (f a) (g a s)) :
    EndsAs Q (x >>= f) ((Exec.ofExcept x >>= g) s) :=
  (EndsAs.ofExcept x s).bind fun a _ _ hx hR => by
    obtain ⟨rfl, rfl⟩ := hR
    exact hf _ hx

/-- A step of the run alone. -/
theorem step {x : Except ε γ} {b : β} {s' : σ} (hy : y s = some (.ok b, s'))
    (hx : EndsAs Q x (g b s')) : EndsAs Q x ((y >>= g) s) := by
  rw [bind_apply, andThen, hy]
  exact hx

end EndsAs

/-! ## What a computation returns -/

/-- From `s`, `x` returns, and `Q` holds of what it returns and of the state it ends in. -/
def Returns (x : Exec σ ε α) (s : σ) (Q : Except ε α → σ → Prop) : Prop :=
  ∃ r s', x s = some (r, s') ∧ Q r s'

namespace Returns
variable {x : Exec σ ε α} {f : α → Exec σ ε β} {s : σ} {P : Except ε α → σ → Prop}
  {Q : Except ε β → σ → Prop}

theorem of_eq {r : Except ε α} {s' : σ} (h : x s = some (r, s')) (hP : P r s') : Returns x s P :=
  ⟨r, s', h, hP⟩

theorem mono {P' : Except ε α → σ → Prop} (hx : Returns x s P) (h : ∀ r s', P r s' → P' r s') :
    Returns x s P' := by
  obtain ⟨r, s', hrun, hP⟩ := hx
  exact ⟨r, s', hrun, h r s' hP⟩

/-- The run itself, beside what holds of it. -/
theorem run (hx : Returns x s P) : Returns x s fun r s' => x s = some (r, s') ∧ P r s' := by
  obtain ⟨r, s', hrun, hP⟩ := hx
  exact ⟨r, s', hrun, hrun, hP⟩

/-- An error of the first part is one of the whole. -/
theorem bind (hx : Returns x s P) (herror : ∀ e s', P (.error e) s' → Q (.error e) s')
    (hok : ∀ a s', P (.ok a) s' → Returns (f a) s' Q) : Returns (x >>= f) s Q := by
  obtain ⟨r, s', hrun, hP⟩ := hx
  rw [Returns, bind_apply, andThen, hrun]
  cases r with
  | error e => exact ⟨_, s', rfl, herror e s' hP⟩
  | ok a => exact hok a s' hP

theorem read_bind {g : σ → Except ε α} (herror : ∀ e, g s = .error e → Q (.error e) s)
    (hok : ∀ a, g s = .ok a → Returns (f a) s Q) : Returns (read g >>= f) s Q := by
  have hread : Returns (read g) s fun r s' => r = g s ∧ s' = s := ⟨_, s, rfl, rfl, rfl⟩
  refine hread.bind ?_ ?_
  · rintro e _ ⟨he, rfl⟩
    exact herror e he.symm
  · rintro a _ ⟨ha, rfl⟩
    exact hok a ha.symm

theorem ofExcept_bind {r : Except ε α} (herror : ∀ e, r = .error e → Q (.error e) s)
    (hok : ∀ a, r = .ok a → Returns (f a) s Q) : Returns (ofExcept r >>= f) s Q :=
  @read_bind σ ε α β f s Q (fun _ => r) herror hok

theorem zoom {get : σ → τ} {put : τ → σ → σ} {y : Exec τ ε α} {R : Except ε α → τ → Prop}
    (hy : Returns y (get s) R) (h : ∀ r t, R r t → P r (put t s)) :
    Returns (zoom get put y) s P := by
  obtain ⟨r, t, hrun, hR⟩ := hy
  exact ⟨r, put t s, by rw [Exec.zoom, hrun]; rfl, h r t hR⟩

end Returns

/-- From `s`, `x` ends with an error. -/
def Fails (x : Exec σ ε α) (s : σ) : Prop := ∃ e s', x s = some (.error e, s')

section Fails
variable {x : Exec σ ε α} {f : α → Exec σ ε β} {s : σ}

theorem not_fails_pure (a : α) : ¬Fails (pure a : Exec σ ε α) s := by
  rintro ⟨e, s', h⟩
  cases h

/-- What comes to an end fails if it does not succeed. -/
theorem Returns.fails_iff {P : Except ε α → σ → Prop} (h : Returns x s P) :
    Fails x s ↔ ¬∃ a s', x s = some (.ok a, s') := by
  obtain ⟨r, s', hrun, -⟩ := h
  rw [Fails, hrun]
  cases r with
  | ok a => simp
  | error err => simp

/-- What starts with a read fails if the read or what follows does. -/
theorem fails_read_bind {g : σ → Except ε α} :
    Fails (read g >>= f) s ↔ ∀ a, g s = .ok a → Fails (f a) s := by
  rw [Fails, bind_apply, andThen, read]
  cases hg : g s with
  | error e => exact iff_of_true ⟨e, s, rfl⟩ nofun
  | ok a => simp only [Except.ok.injEq, forall_eq', Fails]

/-- What starts with a read that may not return fails if the read returns, and it or what follows
fails. -/
theorem fails_eval_bind {g : σ → Eval ε α} : Fails (eval g >>= f) s ↔
    ∃ r, (g s).run = some r ∧ ∀ a, r = .ok a → Fails (f a) s := by
  rw [Fails, bind_apply, andThen, eval]
  cases hg : (g s).run with
  | none => simp
  | some r =>
    cases r with
    | error e => exact iff_of_true ⟨e, s, rfl⟩ ⟨_, rfl, nofun⟩
    | ok a => simp [Fails]

theorem fails_zoom {get : σ → τ} {put : τ → σ → σ} {y : Exec τ ε α} :
    Fails (zoom get put y) s ↔ Fails y (get s) := by
  constructor
  · rintro ⟨e, s', h⟩
    obtain ⟨⟨r, t⟩, hrun, hs⟩ := Option.map_eq_some_iff.mp h
    obtain ⟨rfl, -⟩ := Prod.mk.inj hs
    exact ⟨e, t, hrun⟩
  · rintro ⟨e, t, h⟩
    exact ⟨e, put t s, by rw [zoom, h]; rfl⟩

end Fails

/-! ## Frame conditions -/

/-- However `x` ends, the state it started from and the state it ended in are related. -/
def Keeps (R : σ → σ → Prop) (x : Exec σ ε α) : Prop :=
  ∀ s r s', x s = some (r, s') → R s s'

section Keeps
variable {R : σ → σ → Prop}

theorem Keeps.step {f : σ → Except ε α × σ} (h : ∀ s, R s (f s).2) : Keeps R (step f) := by
  intro s r s' hs
  have hR := h s
  rw [step_apply, Option.some.injEq] at hs
  rwa [hs] at hR

section Refl
variable [Std.Refl R]

theorem Keeps.pure (a : α) : Keeps R (pure a : Exec σ ε α) := by
  intro s r s' h
  cases h
  exact Std.Refl.refl s

theorem Keeps.read (f : σ → Except ε α) : Keeps R (read f) := by
  intro s r s' h
  cases h
  exact Std.Refl.refl s

theorem Keeps.eval (f : σ → Eval ε α) : Keeps R (eval f) := by
  intro s r s' h
  obtain ⟨a, -, ha⟩ := Option.map_eq_some_iff.mp h
  cases ha
  exact Std.Refl.refl s

end Refl

/-- The continuation is only ever run on values `x` returns. -/
theorem Keeps.bind_of_ok [IsTrans σ R] {x : Exec σ ε α} {f : α → Exec σ ε β} (hx : Keeps R x)
    (hf : ∀ s a s₁, x s = some (.ok a, s₁) → Keeps R (f a)) : Keeps R (x >>= f) := by
  intro s r s' h
  rw [bind_apply, andThen] at h
  split at h
  · cases h
  · rename_i e s₁ hs
    cases h
    exact hx s _ _ hs
  · rename_i a s₁ hs
    exact IsTrans.trans _ _ _ (hx s _ _ hs) (hf s a s₁ hs s₁ r s' h)

theorem Keeps.bind [IsTrans σ R] {x : Exec σ ε α} {f : α → Exec σ ε β} (hx : Keeps R x)
    (hf : ∀ a, Keeps R (f a)) : Keeps R (x >>= f) :=
  hx.bind_of_ok fun _ a _ _ => hf a

end Keeps
end Exec
end Puregit
