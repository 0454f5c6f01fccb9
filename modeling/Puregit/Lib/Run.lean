import Puregit.Lib.Exec
import Puregit.Lib.Text

/-! # Code that may index out of bounds or turn for ever

`Run ε α` is the result of code whose loops are given a number of turns and whose indexing is
checked: a value or an error of its own, or a `Fault` where the code would stop the program or go on
turning.  Code that never faults has the result of a computation of `Except ε α`, and `Run.done`
says so: `Run.done_bind` carries it through a sequence.
-/
namespace Puregit

/-- What code must not do: index out of bounds, or take more turns than it is given. -/
inductive Fault where
  | bounds
  | turns
  deriving DecidableEq

/-- A result, or a fault. -/
abbrev Run (ε α : Type) := ExceptT ε (Except Fault) α

namespace Run
variable {ε α β : Type}

/-- A result. -/
def done (r : Except ε α) : Run ε α := ExceptT.mk (.ok r)

/-- A fault. -/
def fault (f : Fault) : Run ε α := ExceptT.mk (.error f)

/-- The bytes from `i` up to `j`. -/
def slice (data : Bytes) (i j : Nat) : Run ε Bytes :=
  if i ≤ j ∧ j ≤ data.length then done (.ok ((data.drop i).take (j - i))) else fault .bounds

/-- The bytes from `i` on. -/
def sliceFrom (data : Bytes) (i : Nat) : Run ε Bytes :=
  if i ≤ data.length then done (.ok (data.drop i)) else fault .bounds

/-- A value if the run gives one, whatever its error otherwise. -/
def attempt (x : Run ε α) : Run ε (Option α) :=
  match ExceptT.run x with
  | .ok r => done (.ok r.toOption)
  | .error f => fault f

theorem pure_eq (a : α) : (pure a : Run ε α) = done (.ok a) := rfl

/-- **What runs after a result runs as it does without faults.** -/
theorem done_bind {x : Except ε α} {f : α → Run ε β} {g : α → Except ε β}
    (h : ∀ a, x = .ok a → f a = done (g a)) : (done x >>= f) = done (x >>= g) := by
  cases x with
  | error e => rfl
  | ok a => exact h a rfl

theorem done_ok_bind (a : α) (f : α → Run ε β) : (done (.ok a) >>= f) = f a := rfl

/-- A fold of steps that give results gives a result. -/
theorem foldlM_done {γ : Type} {f : β → γ → Run ε β} {g : β → γ → Except ε β}
    (h : ∀ b c, f b c = done (g b c)) (b : β) (l : List γ) :
    l.foldlM f b = done (l.foldlM g b) := by
  induction l generalizing b with
  | nil => rfl
  | cons c l ih =>
    rw [List.foldlM_cons, List.foldlM_cons, h]
    exact done_bind fun b' _ => ih b'

theorem attempt_done (r : Except ε α) : attempt (done r) = done (.ok r.toOption) := rfl

theorem slice_eq {data : Bytes} {i j : Nat} (hij : i ≤ j) (hj : j ≤ data.length) :
    (slice data i j : Run ε Bytes) = done (.ok ((data.drop i).take (j - i))) :=
  if_pos ⟨hij, hj⟩

theorem sliceFrom_eq {data : Bytes} {i : Nat} (hi : i ≤ data.length) :
    (sliceFrom data i : Run ε Bytes) = done (.ok (data.drop i)) :=
  if_pos hi

end Run
end Puregit
