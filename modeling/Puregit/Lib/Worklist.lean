import Mathlib.Data.Finset.Card
import Mathlib.Data.List.Nodup
import Mathlib.Logic.Relation
import Puregit.Lib.BTree
import Puregit.Lib.Exec

/-! # Worklist loops

`run` takes items from a list of things to do until none is left.  `visit` looks at an
item: it skips it, or it changes the state and names items to add, which `push` puts
into the list: in front for a stack, behind for a queue.  The fuel bounds the items
acted upon, not those skipped; `run_ok` is the invariant rule, in which a measure that
every action lowers shows the fuel to be enough, so that the list is empty at the end.

The monad is a parameter, since a visit may fail or talk to somebody.
-/
namespace Puregit

/-- A list without repetitions whose members have distinct codes below `n` has at most
`n` of them. -/
theorem length_le_of_codes {α : Type} {l : List α} (hl : l.Nodup) (code : α → Nat) {n : Nat}
    (hinj : ∀ a b, code a = code b → a = b) (hlt : ∀ a, code a < n) : l.length ≤ n := by
  have hnd : (l.map code).Nodup := hl.map (fun a b h => hinj a b h)
  have hsub : (l.map code).toFinset ⊆ Finset.range n := by
    intro x hx
    obtain ⟨a, -, rfl⟩ := List.mem_map.mp (List.mem_toFinset.mp hx)
    exact Finset.mem_range.mpr (hlt a)
  have hcard := Finset.card_le_card hsub
  rwa [List.toFinset_card_of_nodup hnd, List.length_map, Finset.card_range] at hcard

namespace Worklist
variable {m : Type → Type} [Monad m] {κ σ ε : Type}

/-- Skips items up to the first that `visit` acts on: the new state, the items to add
and the items after it. -/
def next (visit : σ → κ → m (Option (σ × List κ))) (st : σ) :
    List κ → m (Option (σ × List κ × List κ))
  | [] => pure none
  | k :: rest => do
      match ← visit st k with
      | none => next visit st rest
      | some (st', ks) => pure (some (st', ks, rest))

/-- Acts on items until none is left. -/
def run (visit : σ → κ → m (Option (σ × List κ))) (push : List κ → List κ → List κ) :
    Nat → σ → List κ → m σ
  | 0, st, _ => pure st
  | fuel + 1, st, todo => do
      match ← next visit st todo with
      | none => pure st
      | some (st', ks, rest) => run visit push fuel st' (push ks rest)

/-- The items added go in front, the last of them first. -/
def stack (ks rest : List κ) : List κ := ks.reverse ++ rest

/-- The items added go behind. -/
def queue (ks rest : List κ) : List κ := rest ++ ks

theorem mem_stack {ks rest : List κ} {k : κ} : k ∈ stack ks rest ↔ k ∈ ks ∨ k ∈ rest := by
  simp [stack]

theorem mem_queue {ks rest : List κ} {k : κ} : k ∈ queue ks rest ↔ k ∈ ks ∨ k ∈ rest := by
  rw [queue, List.mem_append, or_comm]

section Rules
variable {visit : σ → κ → Except ε (Option (σ × List κ))} {push : List κ → List κ → List κ}
  {I : σ → List κ → Prop}

/-- Skipping keeps the invariant, and ends with an empty list or before an action. -/
theorem next_ok (hskip : ∀ st k rest, I st (k :: rest) → visit st k = .ok none → I st rest)
    {st : σ} {todo : List κ} {r : Option (σ × List κ × List κ)} (hI : I st todo)
    (h : next visit st todo = .ok r) :
    (r = none ∧ I st []) ∨ ∃ k rest st' ks, r = some (st', ks, rest) ∧ I st (k :: rest) ∧
      visit st k = .ok (some (st', ks)) := by
  induction todo with
  | nil =>
      cases h
      exact Or.inl ⟨rfl, hI⟩
  | cons k rest ih =>
      rw [next] at h
      obtain ⟨v, hv, h⟩ := except_bind_ok.mp h
      cases v with
      | none => exact ih (hskip st k rest hI hv) h
      | some a =>
          obtain ⟨st', ks⟩ := a
          cases h
          exact Or.inr ⟨k, rest, st', ks, rfl, hI, hv⟩

/-- **The invariant rule.**  The invariant relates the state to the items still to do; every action
lowers `μ`, and skipping does not raise it. -/
theorem run_ok_todo (μ : σ → List κ → Nat)
    (hskip : ∀ st k rest, I st (k :: rest) → visit st k = .ok none → I st rest ∧
      μ st rest ≤ μ st (k :: rest))
    (hact : ∀ st k rest st' ks, I st (k :: rest) → visit st k = .ok (some (st', ks)) →
      I st' (push ks rest) ∧ μ st' (push ks rest) < μ st (k :: rest))
    {fuel : Nat} {st r : σ} {todo : List κ} (hfuel : μ st todo < fuel) (hI : I st todo)
    (h : run visit push fuel st todo = .ok r) : I r [] := by
  induction fuel generalizing st todo with
  | zero => omega
  | succ fuel ih =>
      rw [run] at h
      obtain ⟨n, hn, h⟩ := except_bind_ok.mp h
      let J : σ → List κ → Prop := fun st' todo' => I st' todo' ∧ μ st' todo' ≤ μ st todo
      have hJ : ∀ st k rest, J st (k :: rest) → visit st k = .ok none → J st rest := by
        rintro st k rest ⟨hI, hμ⟩ hv
        obtain ⟨hI', hμ'⟩ := hskip st k rest hI hv
        exact ⟨hI', hμ'.trans hμ⟩
      rcases next_ok hJ ⟨hI, le_refl _⟩ hn with ⟨rfl, hend⟩ | ⟨k, rest, st', ks, rfl, ⟨hI', hμ⟩, hv⟩
      · cases h
        exact hend.1
      · obtain ⟨hI'', hμ'⟩ := hact st k rest st' ks hI' hv
        exact ih (by omega) hI'' h

/-- The rule for a measure of the state alone. -/
theorem run_ok (μ : σ → Nat)
    (hskip : ∀ st k rest, I st (k :: rest) → visit st k = .ok none → I st rest)
    (hact : ∀ st k rest st' ks, I st (k :: rest) → visit st k = .ok (some (st', ks)) →
      I st' (push ks rest) ∧ μ st' < μ st)
    {fuel : Nat} {st r : σ} {todo : List κ} (hfuel : μ st < fuel) (hI : I st todo)
    (h : run visit push fuel st todo = .ok r) : I r [] :=
  run_ok_todo (fun st _ => μ st) (fun st k rest hI hv => ⟨hskip st k rest hI hv, le_refl _⟩)
    hact hfuel hI h

/-- The rule for what holds whatever is left to do. -/
theorem run_inv
    (hskip : ∀ st k rest, I st (k :: rest) → visit st k = .ok none → I st rest)
    (hact : ∀ st k rest st' ks, I st (k :: rest) → visit st k = .ok (some (st', ks)) →
      I st' (push ks rest))
    {fuel : Nat} {st r : σ} {todo : List κ} (hI : I st todo)
    (h : run visit push fuel st todo = .ok r) : ∃ todo', I r todo' := by
  induction fuel generalizing st todo with
  | zero => cases h; exact ⟨todo, hI⟩
  | succ fuel ih =>
      rw [run] at h
      obtain ⟨n, hn, h⟩ := except_bind_ok.mp h
      rcases next_ok hskip hI hn with ⟨rfl, hend⟩ | ⟨k, rest, st', ks, rfl, hI', hv⟩
      · cases h
        exact ⟨[], hend⟩
      · exact ih (hact st k rest st' ks hI' hv) h

/-- A property of the state that every action keeps holds at the end. -/
theorem run_state {P : σ → Prop}
    (hact : ∀ st k st' ks, P st → visit st k = .ok (some (st', ks)) → P st')
    {fuel : Nat} {st r : σ} {todo : List κ} (hP : P st)
    (h : run visit push fuel st todo = .ok r) : P r :=
  (run_inv (I := fun st _ => P st) (fun _ _ _ hP _ => hP)
    (fun st k _ st' ks hP hv => hact st k st' ks hP hv) hP h).choose_spec

/-- A run that fails does so at an item of a list for which the invariant holds. -/
theorem run_error (hskip : ∀ st k rest, I st (k :: rest) → visit st k = .ok none → I st rest)
    (hact : ∀ st k rest st' ks, I st (k :: rest) → visit st k = .ok (some (st', ks)) →
      I st' (push ks rest))
    {fuel : Nat} {st : σ} {todo : List κ} {e : ε} (hI : I st todo)
    (h : run visit push fuel st todo = .error e) :
    ∃ st k rest, I st (k :: rest) ∧ visit st k = .error e := by
  have hnext : ∀ {st : σ} {todo : List κ}, I st todo → next visit st todo = .error e →
      ∃ st k rest, I st (k :: rest) ∧ visit st k = .error e := by
    intro st todo hI hn
    induction todo with
    | nil => cases hn
    | cons k rest ih =>
        rw [next] at hn
        rcases except_bind_error.mp hn with hv | ⟨v, hv, hn⟩
        · exact ⟨st, k, rest, hI, hv⟩
        · cases v with
          | none => exact ih (hskip st k rest hI hv) hn
          | some a => cases hn
  induction fuel generalizing st todo with
  | zero => cases h
  | succ fuel ih =>
      rw [run] at h
      rcases except_bind_error.mp h with hn | ⟨n, hn, h⟩
      · exact hnext hI hn
      · rcases next_ok hskip hI hn with ⟨rfl, -⟩ | ⟨k, rest, st', ks, rfl, hI', hv⟩
        · cases h
        · exact ih (hact st k rest st' ks hI' hv) h

/-- A run returns whose visits do not fail. -/
theorem run_returns (hskip : ∀ st k rest, I st (k :: rest) → visit st k = .ok none → I st rest)
    (hact : ∀ st k rest st' ks, I st (k :: rest) → visit st k = .ok (some (st', ks)) →
      I st' (push ks rest))
    (hvisit : ∀ st k rest e, I st (k :: rest) → visit st k ≠ .error e)
    {st : σ} {todo : List κ} (hI : I st todo) (fuel : Nat) :
    ∃ r, run visit push fuel st todo = .ok r := by
  cases h : run visit push fuel st todo with
  | ok r => exact ⟨r, rfl⟩
  | error e =>
      obtain ⟨st', k, rest, hI', hv⟩ := run_error hskip hact hI h
      exact absurd hv (hvisit st' k rest e hI')

end Rules

/-! ## Closures

A loop that collects what can be reached: `expand` says of an item whether it is taken,
and then what it leads to.  The state holds the items taken so far, `seen`. -/

section Closure
variable (expand : κ → Except ε (Option (List κ)))

/-- The item is not refused. -/
def Taken (k : κ) : Prop := expand k ≠ .ok none

/-- `b` is not refused and `a` leads to it. -/
def Edge (a b : κ) : Prop := (∃ ks, expand a = .ok (some ks) ∧ b ∈ ks) ∧ Taken expand b

/-- `k` is reached from the roots through items not refused. -/
def Reached (roots : List κ) (k : κ) : Prop :=
  ∃ root ∈ roots, Taken expand root ∧ Relation.ReflTransGen (Edge expand) root k

variable {expand}

theorem Reached.step {roots : List κ} {a b : κ} {ks : List κ} (h : Reached expand roots a)
    (ha : expand a = .ok (some ks)) (hb : b ∈ ks) (ht : Taken expand b) :
    Reached expand roots b := by
  obtain ⟨root, hmem, hroot, hk⟩ := h
  exact ⟨root, hmem, hroot, hk.tail ⟨⟨ks, ha, hb⟩, ht⟩⟩

variable [LinearOrder κ] (seen : σ → BTreeSet κ)
  {visit : σ → κ → Except ε (Option (σ × List κ))} {push : List κ → List κ → List κ}

/-- What a visit of a closure loop does: it skips items taken before or not to be taken,
takes any other, and adds at least what is neither taken yet nor refused. -/
structure Explores (expand : κ → Except ε (Option (List κ)))
    (visit : σ → κ → Except ε (Option (σ × List κ))) : Prop where
  skip : ∀ st k, visit st k = .ok none → k ∈ seen st ∨ expand k = .ok none
  act : ∀ st k st' ks, visit st k = .ok (some (st', ks)) → k ∉ seen st ∧
    seen st' = (seen st).insert k ∧ ∃ cs, expand k = .ok (some cs) ∧ (∀ c ∈ ks, c ∈ cs) ∧
      ∀ c ∈ cs, c ∈ ks ∨ c ∈ seen st' ∨ expand c = .ok none

/-- The items taken so far are reached ones; what they and the roots lead to is taken,
still to do, or refused. -/
structure ClosureInv (expand : κ → Except ε (Option (List κ))) (roots : List κ) (taken : BTreeSet κ)
    (todo : List κ) : Prop where
  reached : ∀ k ∈ taken, Reached expand roots k
  closed : ∀ a ∈ taken, ∀ ks, expand a = .ok (some ks) → ∀ b ∈ ks,
    b ∈ taken ∨ b ∈ todo ∨ expand b = .ok none
  roots_mem : ∀ k ∈ roots, k ∈ taken ∨ k ∈ todo ∨ expand k = .ok none
  todo_reached : ∀ k ∈ todo, Taken expand k → Reached expand roots k

theorem ClosureInv.mono {roots todo todo' : List κ} {taken : BTreeSet κ}
    (h : ClosureInv expand roots taken todo)
    (hsub : ∀ k ∈ todo', k ∈ todo)
    (hsup : ∀ k ∈ todo, k ∈ taken ∨ k ∈ todo' ∨ expand k = .ok none) :
    ClosureInv expand roots taken todo' where
  reached := h.reached
  closed a ha ks hks b hb := by
    rcases h.closed a ha ks hks b hb with h' | h' | h'
    · exact Or.inl h'
    · exact hsup b h'
    · exact Or.inr (Or.inr h')
  roots_mem k hk := by
    rcases h.roots_mem k hk with h' | h' | h'
    · exact Or.inl h'
    · exact hsup k h'
    · exact Or.inr (Or.inr h')
  todo_reached k hk := h.todo_reached k (hsub k hk)

/-- Taking an item keeps the invariant. -/
theorem ClosureInv.take {roots rest todo' ks cs : List κ} {taken : BTreeSet κ} {k : κ}
    (h : ClosureInv expand roots taken (k :: rest))
    (hcs : expand k = .ok (some cs)) (hks : ∀ c ∈ ks, c ∈ cs)
    (hall : ∀ c ∈ cs, c ∈ ks ∨ c ∈ taken.insert k ∨ expand c = .ok none)
    (htodo : ∀ c, c ∈ todo' ↔ c ∈ ks ∨ c ∈ rest) :
    ClosureInv expand roots (taken.insert k) todo' := by
  have hk : Reached expand roots k := h.todo_reached k (List.mem_cons_self ..) fun hn => by
    rw [hcs] at hn
    cases hn
  have hmove : ∀ b, b ∈ taken ∨ b ∈ k :: rest ∨ expand b = .ok none →
      b ∈ taken.insert k ∨ b ∈ todo' ∨ expand b = .ok none := by
    rintro b (hb | hb | hb)
    · exact Or.inl (BTreeSet.mem_insert.mpr (Or.inr hb))
    · rcases List.mem_cons.mp hb with rfl | hb
      · exact Or.inl (BTreeSet.mem_insert.mpr (Or.inl rfl))
      · exact Or.inr (Or.inl ((htodo b).mpr (Or.inr hb)))
    · exact Or.inr (Or.inr hb)
  refine ⟨fun a ha => ?_, fun a ha as has b hb => ?_, fun r hr => hmove r (h.roots_mem r hr),
    fun c hc ht => ?_⟩
  · rcases BTreeSet.mem_insert.mp ha with rfl | ha
    · exact hk
    · exact h.reached a ha
  · rcases BTreeSet.mem_insert.mp ha with rfl | ha
    · rw [hcs] at has
      cases has
      rcases hall b hb with hb | hb | hb
      · exact Or.inr (Or.inl ((htodo b).mpr (Or.inl hb)))
      · exact Or.inl hb
      · exact Or.inr (Or.inr hb)
    · exact hmove b (h.closed a ha as has b hb)
  · rcases (htodo c).mp hc with hc | hc
    · exact hk.step hcs (hks c hc) ht
    · exact h.todo_reached c (List.mem_cons_of_mem _ hc) ht

/-- With nothing left to do, the items taken are exactly those reached. -/
theorem ClosureInv.mem_iff {roots : List κ} {taken : BTreeSet κ}
    (h : ClosureInv expand roots taken []) {k : κ} :
    k ∈ taken ↔ Reached expand roots k := by
  refine ⟨h.reached k, ?_⟩
  have hin : ∀ b, b ∈ taken ∨ b ∈ ([] : List κ) ∨ expand b = .ok none → Taken expand b →
      b ∈ taken := by
    rintro b (hb | hb | hb) ht
    · exact hb
    · cases hb
    · exact absurd hb ht
  rintro ⟨root, hroot, ht, hk⟩
  induction hk with
  | refl => exact hin root (h.roots_mem root hroot) ht
  | tail _ he ih =>
      obtain ⟨⟨ks, hks, hb⟩, htb⟩ := he
      exact hin _ (h.closed _ ih ks hks _ hb) htb

/-- Every item taken was expanded. -/
theorem Explores.expanded {fuel : Nat} (h : Explores seen expand visit) {st r : σ}
    {todo : List κ} (hst : seen st = BTreeSet.empty)
    (hrun : run visit push fuel st todo = .ok r) {k : κ} (hk : k ∈ seen r) :
    ∃ ks, expand k = .ok (some ks) := by
  refine run_state (P := fun st => ∀ k ∈ seen st, ∃ ks, expand k = .ok (some ks)) ?_ ?_ hrun k hk
  · intro st k st' ks hP hv c hc
    obtain ⟨-, hseen, cs, hcs, -⟩ := h.act st k st' ks hv
    rw [hseen] at hc
    rcases BTreeSet.mem_insert.mp hc with rfl | hc
    · exact ⟨cs, hcs⟩
    · exact hP c hc
  · intro c hc
    rw [hst] at hc
    exact absurd hc (BTreeSet.not_mem_empty c)

/-- **What a closure loop collects**: the items reached from the roots. -/
theorem Explores.mem_run {n fuel : Nat} (h : Explores seen expand visit)
    (hpush : ∀ ks rest k, k ∈ push ks rest ↔ k ∈ ks ∨ k ∈ rest)
    (hsize : ∀ s : BTreeSet κ, s.size ≤ n) (hfuel : n < fuel) {st r : σ} {roots : List κ}
    (hst : seen st = BTreeSet.empty) (hrun : run visit push fuel st roots = .ok r) {k : κ} :
    k ∈ seen r ↔ Reached expand roots k := by
  refine (run_ok (I := fun st todo => ClosureInv expand roots (seen st) todo)
    (fun st => n - (seen st).size) ?_ ?_ (by omega) ?_ hrun).mem_iff
  · intro st k rest hI hv
    refine hI.mono (fun c hc => List.mem_cons_of_mem _ hc) fun c hc => ?_
    rcases List.mem_cons.mp hc with rfl | hc
    · rcases h.skip st c hv with hs | hs
      · exact Or.inl hs
      · exact Or.inr (Or.inr hs)
    · exact Or.inr (Or.inl hc)
  · intro st k rest st' ks hI hv
    obtain ⟨hnew, hseen, cs, hcs, hks, hall⟩ := h.act st k st' ks hv
    rw [hseen] at hall ⊢
    refine ⟨hI.take hcs hks hall (hpush ks rest), ?_⟩
    have hlt : (seen st).size + 1 ≤ n := BTreeSet.size_insert hnew ▸ hsize _
    rw [BTreeSet.size_insert hnew]
    omega
  · rw [hst]
    exact ⟨fun k hk => absurd hk (BTreeSet.not_mem_empty k),
      fun k hk => absurd hk (BTreeSet.not_mem_empty k), fun k hk => Or.inr (Or.inl hk),
      fun k hk ht => ⟨k, hk, ht, Relation.ReflTransGen.refl⟩⟩

/-- **What a closure loop collects whose items carry more than their key.** -/
theorem mem_run_keyed {ι : Type} (key : ι → κ) {visit : σ → ι → Except ε (Option (σ × List ι))}
    {push : List ι → List ι → List ι} {n fuel : Nat}
    (hskip : ∀ st x, visit st x = .ok none → key x ∈ seen st)
    (hact : ∀ st x st' xs, visit st x = .ok (some (st', xs)) → key x ∉ seen st ∧
      seen st' = (seen st).insert (key x) ∧ expand (key x) = .ok (some (xs.map key)))
    (hpush : ∀ xs rest x, x ∈ push xs rest ↔ x ∈ xs ∨ x ∈ rest)
    (hsize : ∀ s : BTreeSet κ, s.size ≤ n) (hfuel : n < fuel) {st r : σ} {roots : List ι}
    (hst : seen st = BTreeSet.empty) (hrun : run visit push fuel st roots = .ok r) {k : κ} :
    k ∈ seen r ↔ Reached expand (roots.map key) k := by
  refine (run_ok (I := fun st todo => ClosureInv expand (roots.map key) (seen st) (todo.map key))
    (fun st => n - (seen st).size) ?_ ?_ (by omega) ?_ hrun).mem_iff
  · intro st x rest hI hv
    refine hI.mono (fun c hc => List.mem_cons_of_mem _ hc) fun c hc => ?_
    rcases List.mem_cons.mp hc with rfl | hc
    · exact Or.inl (hskip st x hv)
    · exact Or.inr (Or.inl hc)
  · intro st x rest st' xs hI hv
    obtain ⟨hnew, hseen, hexpand⟩ := hact st x st' xs hv
    have htodo : ∀ c, c ∈ (push xs rest).map key ↔ c ∈ xs.map key ∨ c ∈ rest.map key := by
      intro c
      simp only [List.mem_map, hpush, or_and_right, exists_or]
    rw [hseen]
    refine ⟨hI.take hexpand (fun c hc => hc) (fun c hc => Or.inl hc) htodo, ?_⟩
    have hlt : (seen st).size + 1 ≤ n := BTreeSet.size_insert hnew ▸ hsize _
    rw [BTreeSet.size_insert hnew]
    omega
  · rw [hst]
    exact ⟨fun k hk => absurd hk (BTreeSet.not_mem_empty k),
      fun k hk => absurd hk (BTreeSet.not_mem_empty k), fun k hk => Or.inr (Or.inl hk),
      fun k hk ht => ⟨k, hk, ht, Relation.ReflTransGen.refl⟩⟩

/-- A closure loop that returns has expanded all it reaches, so it returns from any of
the same roots, in whatever order they come. -/
theorem Explores.run_total {n fuel : Nat} (h : Explores seen expand visit)
    (hfail : ∀ st k e, visit st k = .error e → ∃ e', expand k = .error e')
    (hpush : ∀ ks rest k, k ∈ push ks rest ↔ k ∈ ks ∨ k ∈ rest)
    (hsize : ∀ s : BTreeSet κ, s.size ≤ n) (hfuel : n < fuel) {st r : σ} {roots roots' : List κ}
    (hst : seen st = BTreeSet.empty) (hsub : ∀ k ∈ roots', k ∈ roots)
    (hrun : run visit push fuel st roots = .ok r) :
    ∃ r', run visit push fuel st roots' = .ok r' := by
  cases hrun' : run visit push fuel st roots' with
  | ok r' => exact ⟨r', rfl⟩
  | error e =>
      exfalso
      have hfails : ∃ st' k rest, (∀ c ∈ k :: rest, Taken expand c → Reached expand roots c) ∧
          visit st' k = .error e := by
        refine run_error (I := fun _ todo => ∀ k ∈ todo, Taken expand k → Reached expand roots k)
          ?_ ?_ ?_ hrun'
        · intro st k rest hI _ c hc
          exact hI c (List.mem_cons_of_mem _ hc)
        · intro st k rest st' ks hI hv c hc ht
          obtain ⟨-, -, cs, hcs, hks, -⟩ := h.act st k st' ks hv
          rcases (hpush ks rest c).mp hc with hc | hc
          · have hk : Taken expand k := fun hn => by
              rw [hcs] at hn
              cases hn
            exact (hI k (List.mem_cons_self ..) hk).step hcs (hks c hc) ht
          · exact hI c (List.mem_cons_of_mem _ hc) ht
        · intro k hk ht
          exact ⟨k, hsub k hk, ht, Relation.ReflTransGen.refl⟩
      obtain ⟨st', k, rest, hI, hv⟩ := hfails
      obtain ⟨e', he⟩ := hfail st' k e hv
      have htaken : Taken expand k := fun hn => by
        rw [he] at hn
        cases hn
      have hreached := hI k (List.mem_cons_self ..) htaken
      have hk := (h.mem_run seen hpush hsize hfuel hst hrun).mpr hreached
      obtain ⟨ks, hks⟩ := h.expanded seen hst hrun hk
      rw [he] at hks
      cases hks

end Closure

/-! ## Searches by depth

A search that acts on a key again when it comes to it at a lesser depth.  The items are
keys with depths; the state holds the least depth at which each key was acted on, `best`.
What is reached at some depth is then bound to that depth or a lesser one. -/

section Depth
variable [LinearOrder κ]

/-- The key was acted on at depth `d` or less. -/
def Within (best : BTreeMap κ Nat) (k : κ) (d : Nat) : Prop := ∃ e ≤ d, best.get? k = some e

theorem Within.insert {best : BTreeMap κ Nat} {k k' : κ} {d d' : Nat} (h : Within best k d)
    (hnew : ¬ Within best k' d') : Within (best.insert k' d') k d := by
  obtain ⟨e, he, hb⟩ := h
  by_cases hk : k = k'
  · -- the key keeps a depth no greater than it had
    subst hk
    have hlt : d' < e := Nat.lt_of_not_le fun hle => hnew ⟨e, hle, hb⟩
    exact ⟨d', by omega, by simp⟩
  · exact ⟨e, he, by simp [hk, hb]⟩

/-- How much of its potential a map of depths has used: every action adds a key or
lowers its depth. -/
def depthWeight (depth : Nat) (best : BTreeMap κ Nat) : Nat := best.weight fun v => depth + 1 - v

theorem depthWeight_le {n : Nat} (hsize : ∀ m : BTreeMap κ Nat, m.keys.length ≤ n) (depth : Nat)
    (best : BTreeMap κ Nat) : depthWeight depth best ≤ n * (depth + 1) := by
  have h := best.weight_le (n := depth + 1) (fun v => Nat.sub_le (depth + 1) v)
  exact h.trans (Nat.mul_le_mul_right _ (hsize best))

theorem depthWeight_insert {depth d : Nat} {best : BTreeMap κ Nat} {k : κ} (hd : d ≤ depth)
    (h : ¬ Within best k d) : depthWeight depth best < depthWeight depth (best.insert k d) := by
  have hw := best.weight_insert (fun v => depth + 1 - v) k d
  cases hb : best.get? k with
  | none =>
      rw [hb, Option.elim_none] at hw
      simp only [depthWeight]
      omega
  | some e =>
      rw [hb, Option.elim_some] at hw
      have hlt : d < e := Nat.lt_of_not_le fun hle => h ⟨e, hle, hb⟩
      simp only [depthWeight]
      omega

/-- What a depth may change in an expansion: a key is refused at every depth or at none,
and what it leads to at some depth it leads to at a lesser one, at lesser depths. -/
structure DepthMonotone (expand : κ × Nat → Except ε (Option (List (κ × Nat)))) : Prop where
  refused : ∀ k d d', expand (k, d) = .ok none → expand (k, d') = .ok none
  leads : ∀ k d d' ks ks', d' ≤ d → expand (k, d) = .ok (some ks) →
    expand (k, d') = .ok (some ks') →
    ∀ x ∈ ks, ∃ e ≤ x.2, (x.1, e) ∈ ks'

variable {expand : κ × Nat → Except ε (Option (List (κ × Nat)))} (best : σ → BTreeMap κ Nat)
  {visit : σ → κ × Nat → Except ε (Option (σ × List (κ × Nat)))}
  {push : List (κ × Nat) → List (κ × Nat) → List (κ × Nat)}

/-- What a visit of a search by depth does. -/
structure DepthExplores (expand : κ × Nat → Except ε (Option (List (κ × Nat))))
    (visit : σ → κ × Nat → Except ε (Option (σ × List (κ × Nat)))) : Prop where
  skip : ∀ st k d, visit st (k, d) = .ok none → Within (best st) k d ∨ expand (k, d) = .ok none
  act : ∀ st k d st' ks, visit st (k, d) = .ok (some (st', ks)) → ¬ Within (best st) k d ∧
    best st' = (best st).insert k d ∧ expand (k, d) = .ok (some ks)

/-- The item has been covered, is still to do, or is refused. -/
def Covered (expand : κ × Nat → Except ε (Option (List (κ × Nat)))) (best : BTreeMap κ Nat)
    (todo : List (κ × Nat)) (x : κ × Nat) : Prop :=
  Within best x.1 x.2 ∨ x ∈ todo ∨ expand x = .ok none

/-- The keys acted on were reached at their depths, and what they lead to is covered. -/
structure DepthInv (expand : κ × Nat → Except ε (Option (List (κ × Nat)))) (depth : Nat)
    (roots : List (κ × Nat)) (best : BTreeMap κ Nat) (todo : List (κ × Nat)) : Prop where
  reached : ∀ k d, best.get? k = some d → Reached expand roots (k, d)
  closed : ∀ k d, best.get? k = some d →
    ∃ ks, expand (k, d) = .ok (some ks) ∧ ∀ x ∈ ks, Covered expand best todo x
  covered : ∀ x ∈ roots, Covered expand best todo x
  todo_reached : ∀ x ∈ todo, Taken expand x → Reached expand roots x
  todo_depth : ∀ x ∈ todo, x.2 ≤ depth

theorem DepthInv.start {depth : Nat} {roots : List (κ × Nat)} (hroots : ∀ x ∈ roots, x.2 ≤ depth) :
    DepthInv expand depth roots BTreeMap.empty roots := by
  refine ⟨fun k d hb => ?_, fun k d hb => ?_, fun x hx => Or.inr (Or.inl hx),
    fun x hx ht => ⟨x, hx, ht, Relation.ReflTransGen.refl⟩, hroots⟩
  · simp at hb
  · simp at hb

theorem DepthInv.skip {depth d : Nat} {roots rest : List (κ × Nat)} {best : BTreeMap κ Nat} {k : κ}
    (h : DepthInv expand depth roots best ((k, d) :: rest))
    (hk : Within best k d ∨ expand (k, d) = .ok none) : DepthInv expand depth roots best rest := by
  have hdrop : ∀ x, Covered expand best ((k, d) :: rest) x → Covered expand best rest x := by
    rintro x (hx | hx | hx)
    · exact Or.inl hx
    · rcases List.mem_cons.mp hx with rfl | hx
      · rcases hk with hk | hk
        · exact Or.inl hk
        · exact Or.inr (Or.inr hk)
      · exact Or.inr (Or.inl hx)
    · exact Or.inr (Or.inr hx)
  refine ⟨h.reached, fun k' d' hb => ?_, fun x hx => hdrop x (h.covered x hx),
    fun x hx => h.todo_reached x (List.mem_cons_of_mem _ hx),
    fun x hx => h.todo_depth x (List.mem_cons_of_mem _ hx)⟩
  obtain ⟨ks, hks, hall⟩ := h.closed k' d' hb
  exact ⟨ks, hks, fun x hx => hdrop x (hall x hx)⟩

theorem DepthInv.act {depth d : Nat} {roots rest todo ks : List (κ × Nat)} {best : BTreeMap κ Nat}
    {k : κ} (h : DepthInv expand depth roots best ((k, d) :: rest))
    (hks : expand (k, d) = .ok (some ks)) (hnew : ¬ Within best k d)
    (htodo : ∀ x, x ∈ todo ↔ x ∈ ks ∨ x ∈ rest) (hdepth : ∀ x ∈ ks, x.2 ≤ depth) :
    DepthInv expand depth roots (best.insert k d) todo := by
  have hk : Reached expand roots (k, d) :=
    h.todo_reached (k, d) (List.mem_cons_self ..) fun hn => by
      rw [hks] at hn
      cases hn
  have hmove : ∀ x, Covered expand best ((k, d) :: rest) x →
      Covered expand (best.insert k d) todo x := by
    rintro x (hx | hx | hx)
    · exact Or.inl (hx.insert hnew)
    · rcases List.mem_cons.mp hx with rfl | hx
      · exact Or.inl ⟨d, le_refl d, by simp⟩
      · exact Or.inr (Or.inl ((htodo x).mpr (Or.inr hx)))
    · exact Or.inr (Or.inr hx)
  refine ⟨fun k' d' hb => ?_, fun k' d' hb => ?_, fun x hx => hmove x (h.covered x hx),
    fun x hx ht => ?_, fun x hx => ?_⟩
  · rw [BTreeMap.get?_insert] at hb
    split at hb
    · rename_i heq
      cases hb
      exact heq ▸ hk
    · exact h.reached k' d' hb
  · rw [BTreeMap.get?_insert] at hb
    split at hb
    · rename_i heq
      cases hb
      exact ⟨ks, heq ▸ hks, fun x hx => Or.inr (Or.inl ((htodo x).mpr (Or.inl hx)))⟩
    · obtain ⟨ks', hks', hall⟩ := h.closed k' d' hb
      exact ⟨ks', hks', fun x hx => hmove x (hall x hx)⟩
  · rcases (htodo x).mp hx with hx | hx
    · exact hk.step hks hx ht
    · exact h.todo_reached x (List.mem_cons_of_mem _ hx) ht
  · rcases (htodo x).mp hx with hx | hx
    · exact hdepth x hx
    · exact h.todo_depth x (List.mem_cons_of_mem _ hx)

/-- With nothing left to do, what is reached at a depth was acted on at that depth or
at a lesser one. -/
theorem DepthInv.within {depth : Nat} {roots : List (κ × Nat)} {best : BTreeMap κ Nat}
    (hmono : DepthMonotone expand) (h : DepthInv expand depth roots best []) {x : κ × Nat}
    (hx : Reached expand roots x) : Within best x.1 x.2 := by
  have hin : ∀ y, Covered expand best [] y → Taken expand y → Within best y.1 y.2 := by
    rintro y (hy | hy | hy) ht
    · exact hy
    · cases hy
    · exact absurd hy ht
  obtain ⟨root, hroot, ht, hpath⟩ := hx
  induction hpath with
  | refl => exact hin root (h.covered root hroot) ht
  | @tail a b _ he ih =>
      obtain ⟨⟨ks, hks, hb⟩, htb⟩ := he
      obtain ⟨e, hle, ha⟩ := ih
      obtain ⟨ks', hks', hall⟩ := h.closed a.1 e ha
      obtain ⟨e', he', hb'⟩ := hmono.leads a.1 a.2 e ks ks' hle hks hks' b hb
      obtain ⟨e'', he'', hw⟩ := hin (b.1, e') (hall _ hb') fun hn => htb (hmono.refused _ _ _ hn)
      exact ⟨e'', he''.trans he', hw⟩

/-- **What a search by depth binds**: every bound depth is one the key is reached at,
and no key is reached at a lesser one. -/
theorem DepthExplores.run {n fuel depth : Nat} (h : DepthExplores best expand visit)
    (hmono : DepthMonotone expand)
    (hpush : ∀ ks rest x, x ∈ push ks rest ↔ x ∈ ks ∨ x ∈ rest)
    (hsize : ∀ m : BTreeMap κ Nat, m.keys.length ≤ n) (hfuel : n * (depth + 1) < fuel)
    (hdepth : ∀ k d ks, d ≤ depth → expand (k, d) = .ok (some ks) → ∀ x ∈ ks, x.2 ≤ depth)
    {st r : σ} {roots : List (κ × Nat)} (hroots : ∀ x ∈ roots, x.2 ≤ depth)
    (hst : best st = BTreeMap.empty) (hrun : Worklist.run visit push fuel st roots = .ok r) :
    (∀ k d, (best r).get? k = some d →
      Reached expand roots (k, d) ∧ ∃ ks, expand (k, d) = .ok (some ks)) ∧
      ∀ k d, Reached expand roots (k, d) → Within (best r) k d := by
  have hinv : DepthInv expand depth roots (best r) [] := by
    refine run_ok (I := fun st todo => DepthInv expand depth roots (best st) todo)
      (fun st => n * (depth + 1) - depthWeight depth (best st)) ?_ ?_ (by omega) ?_ hrun
    · rintro st ⟨k, d⟩ rest hI hv
      exact hI.skip (h.skip st k d hv)
    · rintro st ⟨k, d⟩ rest st' ks hI hv
      obtain ⟨hnew, hbest, hks⟩ := h.act st k d st' ks hv
      have hd : d ≤ depth := hI.todo_depth (k, d) (List.mem_cons_self ..)
      rw [hbest]
      refine ⟨hI.act hks hnew (hpush ks rest) (hdepth k d ks hd hks), ?_⟩
      have hlt := depthWeight_insert hd hnew
      have hle := depthWeight_le hsize depth ((best st).insert k d)
      omega
    · rw [hst]
      exact .start hroots
  refine ⟨fun k d hb => ⟨hinv.reached k d hb, ?_⟩, fun k d hkd => hinv.within hmono hkd⟩
  obtain ⟨ks, hks, -⟩ := hinv.closed k d hb
  exact ⟨ks, hks⟩

/-- A search by depth that returns has met no key it cannot expand, so it returns from
any of the same roots, in whatever order they come. -/
theorem DepthExplores.run_total {n fuel depth : Nat}
    (h : DepthExplores best expand visit) (bad : κ → Prop) (hmono : DepthMonotone expand)
    (hfail : ∀ st k d e, visit st (k, d) = .error e → bad k ∧ Taken expand (k, d))
    (hgood : ∀ st k d st' ks, visit st (k, d) = .ok (some (st', ks)) → ¬ bad k)
    (hpush : ∀ ks rest x, x ∈ push ks rest ↔ x ∈ ks ∨ x ∈ rest)
    (hsize : ∀ m : BTreeMap κ Nat, m.keys.length ≤ n) (hfuel : n * (depth + 1) < fuel)
    (hdepth : ∀ k d ks, d ≤ depth → expand (k, d) = .ok (some ks) → ∀ x ∈ ks, x.2 ≤ depth)
    {st r : σ} {roots roots' : List (κ × Nat)} (hroots : ∀ x ∈ roots, x.2 ≤ depth)
    (hst : best st = BTreeMap.empty) (hsub : ∀ x ∈ roots', x ∈ roots)
    (hrun : Worklist.run visit push fuel st roots = .ok r) :
    ∃ r', Worklist.run visit push fuel st roots' = .ok r' := by
  cases hrun' : Worklist.run visit push fuel st roots' with
  | ok r' => exact ⟨r', rfl⟩
  | error e =>
      exfalso
      have hfails : ∃ st' x rest, (∀ y ∈ x :: rest, Taken expand y → Reached expand roots y) ∧
          visit st' x = .error e := by
        refine run_error (I := fun _ todo => ∀ x ∈ todo, Taken expand x → Reached expand roots x)
          ?_ ?_ ?_ hrun'
        · intro st x rest hI _ y hy
          exact hI y (List.mem_cons_of_mem _ hy)
        · rintro st ⟨k, d⟩ rest st' ks hI hv y hy ht
          obtain ⟨-, -, hks⟩ := h.act st k d st' ks hv
          rcases (hpush ks rest y).mp hy with hy | hy
          · have hk : Taken expand (k, d) := fun hn => by
              rw [hks] at hn
              cases hn
            exact (hI (k, d) (List.mem_cons_self ..) hk).step hks hy ht
          · exact hI y (List.mem_cons_of_mem _ hy) ht
        · intro x hx ht
          exact ⟨x, hsub x hx, ht, Relation.ReflTransGen.refl⟩
      obtain ⟨st', ⟨k, d⟩, rest, hI, hv⟩ := hfails
      obtain ⟨hbad, ht⟩ := hfail st' k d e hv
      have hreached := hI (k, d) (List.mem_cons_self ..) ht
      obtain ⟨-, hwithin⟩ := h.run best hmono hpush hsize hfuel hdepth hroots hst hrun
      obtain ⟨d', -, hd'⟩ := hwithin k d hreached
      -- whatever was acted on could be expanded
      have hacted : ∀ k d, (best r).get? k = some d → ¬ bad k := by
        refine run_state (P := fun st => ∀ k d, (best st).get? k = some d → ¬ bad k) ?_ ?_ hrun
        · rintro st ⟨k, d⟩ st' ks hP hv k' d' hb
          obtain ⟨-, hbest, -⟩ := h.act st k d st' ks hv
          rw [hbest, BTreeMap.get?_insert] at hb
          split at hb
          · rename_i heq
            exact heq ▸ hgood st k d st' ks hv
          · exact hP k' d' hb
        · intro k d hb
          rw [hst] at hb
          simp at hb
      exact hacted k d' hd' hbad

end Depth
end Worklist
end Puregit
