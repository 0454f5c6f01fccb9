import Mathlib.Order.Nat
import Puregit.Lib.Worklist

/-! # The order of a search by depth

A search by depth that takes its items from a queue goes through them in layers: the
roots, what they lead to, what that leads to, each layer in order.  These are the layers
of all items, acted on or not, since what a skipped item leads to was met before: the
search acts on an item exactly when it meets it first, `DepthExplores.mem_acted`.
-/
namespace Puregit.Worklist
variable {κ σ ε : Type} (next : κ × Nat → List (κ × Nat)) (roots : List (κ × Nat))

/-- The items a number of steps away from the roots, in order. -/
def layer : Nat → List (κ × Nat)
  | 0 => roots
  | k + 1 => (layer k).flatMap next

/-- The item is met before what comes after `l` in layer `n`. -/
def MetBefore (n : Nat) (l : List (κ × Nat)) (x : κ × Nat) : Prop :=
  (∃ j < n, x ∈ layer next roots j) ∨ x ∈ l

/-- The item is met where its key was not met before at the same depth or a lesser one. -/
def FirstMet (x : κ × Nat) : Prop := ∃ n l r, layer next roots n = l ++ x :: r ∧
  ∀ e ≤ x.2, ¬ MetBefore next roots n l (x.1, e)

/-- The items in `met` are those met so far; `ahead` are the rest of the layer and what
is known of the layer after it. -/
def Position (met : Set (κ × Nat)) (ahead : List (κ × Nat)) : Prop :=
  ∃ n l rest, layer next roots n = l ++ rest ∧ ahead = rest ++ l.flatMap next ∧
    ∀ x, x ∈ met ↔ MetBefore next roots n l x

variable {next roots} {met : Set (κ × Nat)} {u : κ × Nat} {ahead : List (κ × Nat)}

/-- Where there is an item ahead, it lies in the current layer or begins the next. -/
theorem Position.current (h : Position next roots met (u :: ahead)) :
    ∃ n l rest, layer next roots n = l ++ u :: rest ∧ ahead = rest ++ l.flatMap next ∧
      ∀ x, x ∈ met ↔ MetBefore next roots n l x := by
  obtain ⟨n, l, rest, hlayer, hahead, hmet⟩ := h
  cases rest with
  | cons v rest =>
      obtain ⟨rfl, rfl⟩ := List.cons.inj hahead
      exact ⟨n, l, rest, hlayer, rfl, hmet⟩
  | nil =>
      rw [List.append_nil] at hlayer
      refine ⟨n + 1, [], ahead, ?_, by simp, fun x => ?_⟩
      · rw [layer, hlayer, List.nil_append, hahead, List.nil_append]
      · rw [hmet, MetBefore, MetBefore, ← hlayer]
        constructor
        · rintro (⟨j, hj, hx⟩ | hx)
          · exact Or.inl ⟨j, by omega, hx⟩
          · exact Or.inl ⟨n, by omega, hx⟩
        · rintro (⟨j, hj, hx⟩ | hx)
          · rcases Nat.lt_or_eq_of_le (Nat.lt_succ_iff.mp hj) with hj | rfl
            · exact Or.inl ⟨j, hj, hx⟩
            · exact Or.inr hx
          · cases hx

theorem Position.pass (h : Position next roots met (u :: ahead)) :
    Position next roots (insert u met) (ahead ++ next u) := by
  obtain ⟨n, l, rest, hlayer, rfl, hmet⟩ := h.current
  refine ⟨n, l ++ [u], rest, by simp [hlayer], by simp, fun x => ?_⟩
  rw [Set.mem_insert_iff, hmet, MetBefore, MetBefore, List.mem_append, List.mem_singleton, or_comm,
    or_assoc]

theorem Position.firstMet (h : Position next roots met (u :: ahead))
    (hnew : ∀ e ≤ u.2, (u.1, e) ∉ met) : FirstMet next roots u := by
  obtain ⟨n, l, rest, hlayer, -, hmet⟩ := h.current
  exact ⟨n, l, rest, hlayer, fun e he hm => hnew e he ((hmet _).mpr hm)⟩

/-- Until an item is first met, its key was not met at the same depth or a lesser one. -/
theorem Position.unmet {x : κ × Nat} (h : Position next roots met ahead)
    (hfirst : FirstMet next roots x) (hx : x ∉ met) : ∀ e ≤ x.2, (x.1, e) ∉ met := by
  obtain ⟨n, l, rest, hlayer, -, hmet⟩ := h
  obtain ⟨m, lx, r, hm, hnone⟩ := hfirst
  rw [hmet, MetBefore, not_or, not_exists] at hx
  intro e he hin
  refine hnone e he ?_
  rcases Nat.lt_trichotomy m n with hlt | rfl | hlt
  · exact absurd ⟨hlt, by rw [hm]; simp⟩ (hx.1 m)
  · -- both are places in one layer, and the item is not before the first
    rcases (hmet _).mp hin with hj | hj
    · exact Or.inl hj
    · have hsplit : l ++ rest = lx ++ x :: r := hlayer.symm.trans hm
      rcases List.append_eq_append_iff.mp hsplit with ⟨a, rfl, -⟩ | ⟨a, rfl, ha⟩
      · exact Or.inr (List.mem_append_left _ hj)
      · cases a with
        | nil => exact Or.inr (by simpa using hj)
        | cons y a =>
            obtain ⟨rfl, -⟩ := List.cons.inj ha
            exact absurd (by simp) hx.2
  · rcases (hmet _).mp hin with ⟨j, hj, hx'⟩ | hl
    · exact Or.inl ⟨j, by omega, hx'⟩
    · exact Or.inl ⟨n, hlt, by rw [hlayer]; exact List.mem_append_left _ hl⟩

theorem FirstMet.mem_layer {x : κ × Nat} (h : FirstMet next roots x) :
    ∃ n, x ∈ layer next roots n := by
  obtain ⟨n, l, r, hl, -⟩ := h
  exact ⟨n, by rw [hl]; simp⟩

/-- An item met at the least depth of its key is first met somewhere. -/
theorem firstMet_of_least {x : κ × Nat} (hx : ∃ n, x ∈ layer next roots n)
    (hleast : ∀ e < x.2, ∀ n, (x.1, e) ∉ layer next roots n) : FirstMet next roots x := by
  classical
  have hfind := Nat.find_spec hx
  obtain ⟨l, r, hl, hnone⟩ := List.eq_append_cons_of_mem hfind
  refine ⟨Nat.find hx, l, r, hl, fun e he hmet => ?_⟩
  rcases Nat.lt_or_eq_of_le he with hlt | rfl
  · rcases hmet with ⟨j, -, hj⟩ | hin
    · exact hleast e hlt j hj
    · exact hleast e hlt _ (by rw [hl]; exact List.mem_append_left _ hin)
  · rcases hmet with ⟨j, hj, hin⟩ | hin
    · exact Nat.find_min hx hj hin
    · exact hnone hin

/-! ## What the queue leaves out -/

/-- The items of `todo` are among those of `ahead`, in order; each of the others is
covered by `P` or by an item of its key before it at the same depth or a lesser one. -/
inductive Thin : (κ × Nat → Prop) → List (κ × Nat) → List (κ × Nat) → Prop
  | nil {P} : Thin P [] []
  | drop {P u todo ahead} : P u → Thin P todo ahead → Thin P todo (u :: ahead)
  | keep {P u todo ahead} : Thin (fun x => P x ∨ x.1 = u.1 ∧ u.2 ≤ x.2) todo ahead →
      Thin P (u :: todo) (u :: ahead)

variable {P Q : κ × Nat → Prop} {todo : List (κ × Nat)}

theorem Thin.mono (h : Thin P todo ahead) (hPQ : ∀ x, P x → Q x) : Thin Q todo ahead := by
  induction h generalizing Q with
  | nil => exact .nil
  | drop hu _ ih => exact .drop (hPQ _ hu) (ih hPQ)
  | keep _ ih => exact .keep (ih fun x hx => hx.imp_left (hPQ x))

theorem Thin.refl (l : List (κ × Nat)) : Thin P l l := by
  induction l generalizing P with
  | nil => exact .nil
  | cons u l ih => exact .keep ih

theorem Thin.append_same (h : Thin P todo ahead) (l : List (κ × Nat)) :
    Thin P (todo ++ l) (ahead ++ l) := by
  induction h with
  | nil => exact .refl l
  | drop hu _ ih => exact .drop hu ih
  | keep _ ih => exact .keep ih

theorem Thin.append_covered {l : List (κ × Nat)} (h : Thin P todo ahead)
    (hl : ∀ y ∈ l, P y ∨ ∃ e ≤ y.2, (y.1, e) ∈ todo) : Thin P todo (ahead ++ l) := by
  induction h with
  | @nil P =>
      induction l with
      | nil => exact .nil
      | cons y l ih =>
          have hy : P y := (hl y List.mem_cons_self).resolve_right (by simp)
          exact .drop hy (ih fun z hz => hl z (List.mem_cons_of_mem y hz))
  | drop hu _ ih => exact .drop hu (ih hl)
  | @keep P u todo ahead _ ih =>
      refine .keep (ih fun y hy => ?_)
      rcases hl y hy with hP | ⟨e, he, hin⟩
      · exact Or.inl (Or.inl hP)
      · rcases List.mem_cons.mp hin with rfl | hin
        · exact Or.inl (Or.inr ⟨rfl, he⟩)
        · exact Or.inr ⟨e, he, hin⟩

/-- Ahead of the first item to do only covered ones were left out. -/
theorem Thin.split (h : Thin P (u :: todo) ahead) : ∃ dropped rest, ahead = dropped ++ u :: rest ∧
    (∀ x ∈ dropped, P x) ∧ Thin (fun x => P x ∨ x.1 = u.1 ∧ u.2 ≤ x.2) todo rest := by
  generalize hl : u :: todo = l at h
  induction h with
  | nil => cases hl
  | @drop P v l ahead hv _ ih =>
      obtain ⟨dropped, rest, rfl, hdropped, hthin⟩ := ih hl
      refine ⟨v :: dropped, rest, rfl, fun x hx => ?_, hthin⟩
      rcases List.mem_cons.mp hx with rfl | hx
      · exact hv
      · exact hdropped x hx
  | keep hthin _ =>
      obtain ⟨rfl, rfl⟩ := List.cons.inj hl
      exact ⟨[], _, rfl, fun x hx => (by cases hx), hthin⟩

/-! ## The invariant -/

variable {expand : κ × Nat → Except ε (Option (List (κ × Nat)))}

/-- Every item of a layer is reached. -/
theorem reached_of_mem_layer (hexpand : ∀ x, expand x = .ok (some (next x))) {n : Nat}
    {x : κ × Nat} (hx : x ∈ layer next roots n) : Reached expand roots x := by
  have htaken : ∀ y, Taken expand y := fun y hy => by
    rw [hexpand] at hy
    cases hy
  induction n generalizing x with
  | zero => exact ⟨x, hx, htaken x, .refl⟩
  | succ n ih =>
      obtain ⟨y, hy, hxy⟩ := List.mem_flatMap.mp hx
      exact (ih hy).step (hexpand y) hxy (htaken x)

/-- What is reached lies in a layer. -/
theorem mem_layer_of_reached (hexpand : ∀ x, expand x = .ok (some (next x))) {x : κ × Nat}
    (h : Reached expand roots x) : ∃ n, x ∈ layer next roots n := by
  obtain ⟨root, hroot, -, hpath⟩ := h
  induction hpath with
  | refl => exact ⟨0, hroot⟩
  | tail _ he ih =>
      obtain ⟨n, hn⟩ := ih
      obtain ⟨⟨ks, hks, hb⟩, -⟩ := he
      rw [hexpand] at hks
      cases hks
      exact ⟨n + 1, List.mem_flatMap.mpr ⟨_, hn, hb⟩⟩

variable [LinearOrder κ]

/-- What was met is covered; what was acted on are the first items met. -/
structure Swept (next : κ × Nat → List (κ × Nat)) (roots : List (κ × Nat)) (best : BTreeMap κ Nat)
    (acted met : Set (κ × Nat)) (ahead : List (κ × Nat)) : Prop where
  position : Position next roots met ahead
  within : ∀ x ∈ met, Within best x.1 x.2
  acted_met : ∀ x ∈ acted, FirstMet next roots x ∧ x ∈ met
  first_acted : ∀ x ∈ met, FirstMet next roots x → x ∈ acted
  bound : ∀ k d, best.get? k = some d → (k, d) ∈ acted

variable {best : BTreeMap κ Nat} {acted : Set (κ × Nat)} {depth : Nat}

/-- Passing a covered item. -/
theorem Swept.pass (h : Swept next roots best acted met (u :: ahead)) (hu : Within best u.1 u.2) :
    Swept next roots best acted (insert u met) (ahead ++ next u) := by
  refine ⟨h.position.pass, fun x hx => ?_, fun x hx => ?_, fun x hx hfirst => ?_, h.bound⟩
  · rcases Set.mem_insert_iff.mp hx with rfl | hx
    · exact hu
    · exact h.within x hx
  · obtain ⟨hfirst, hmet⟩ := h.acted_met x hx
    exact ⟨hfirst, Set.mem_insert_of_mem u hmet⟩
  · by_cases hmet : x ∈ met
    · exact h.first_acted x hmet hfirst
    · obtain rfl : x = u := (Set.mem_insert_iff.mp hx).resolve_right hmet
      obtain ⟨e, he, hb⟩ := hu
      exact absurd (h.acted_met _ (h.bound _ e hb)).2 (h.position.unmet hfirst hmet e he)

/-- Acting on an item. -/
theorem Swept.act (h : Swept next roots best acted met (u :: ahead)) (hu : ¬ Within best u.1 u.2) :
    Swept next roots (best.insert u.1 u.2) (insert u acted) (insert u met) (ahead ++ next u) := by
  have hfirst : FirstMet next roots u := by
    refine h.position.firstMet fun e he hmet => hu ?_
    obtain ⟨e', he', hb⟩ := h.within _ hmet
    exact ⟨e', he'.trans he, hb⟩
  refine ⟨h.position.pass, fun x hx => ?_, fun x hx => ?_, fun x hx hx' => ?_, fun k d hb => ?_⟩
  · rcases Set.mem_insert_iff.mp hx with rfl | hx
    · exact ⟨x.2, le_refl _, by simp⟩
    · exact (h.within x hx).insert hu
  · rcases Set.mem_insert_iff.mp hx with rfl | hx
    · exact ⟨hfirst, Set.mem_insert x met⟩
    · obtain ⟨hfx, hmet⟩ := h.acted_met x hx
      exact ⟨hfx, Set.mem_insert_of_mem u hmet⟩
  · rcases Set.mem_insert_iff.mp hx with rfl | hx
    · exact Set.mem_insert x acted
    · exact Set.mem_insert_of_mem u (h.first_acted x hx hx')
  · rw [BTreeMap.get?_insert] at hb
    split at hb
    · rename_i hk
      cases hb
      exact Set.mem_insert_iff.mpr (Or.inl (Prod.ext hk rfl))
    · exact Set.mem_insert_of_mem u (h.bound k d hb)

/-- What a covered item leads to is covered. -/
theorem DepthInv.next_covered (hexpand : ∀ x, expand x = .ok (some (next x)))
    (hmono : DepthMonotone expand) (hinv : DepthInv expand depth roots best todo)
    (hu : Within best u.1 u.2) :
    ∀ y ∈ next u, Within best y.1 y.2 ∨ ∃ e ≤ y.2, (y.1, e) ∈ todo := by
  intro y hy
  obtain ⟨e, he, hb⟩ := hu
  obtain ⟨ks, hks, hall⟩ := hinv.closed u.1 e hb
  obtain ⟨e', he', hin⟩ := hmono.leads u.1 u.2 e _ _ he (hexpand u) hks y hy
  rcases hall _ hin with ⟨e'', he'', hb'⟩ | htodo | hrefused
  · exact Or.inl ⟨e'', he''.trans he', hb'⟩
  · exact Or.inr ⟨e', he', htodo⟩
  · rw [hexpand] at hrefused
    cases hrefused

/-- The covered items ahead of the next one to do can be passed. -/
theorem Swept.passAll (hexpand : ∀ x, expand x = .ok (some (next x)))
    (hmono : DepthMonotone expand) (hinv : DepthInv expand depth roots best (u :: todo))
    {dropped rest : List (κ × Nat)} (hdropped : ∀ x ∈ dropped, Within best x.1 x.2)
    (h : Swept next roots best acted met (dropped ++ u :: rest))
    (hthin : Thin (fun x => Within best x.1 x.2 ∨ x.1 = u.1 ∧ u.2 ≤ x.2) todo rest) :
    ∃ met' rest', Swept next roots best acted met' (u :: rest') ∧
      Thin (fun x => Within best x.1 x.2 ∨ x.1 = u.1 ∧ u.2 ≤ x.2) todo rest' := by
  induction dropped generalizing met rest with
  | nil => exact ⟨met, rest, h, hthin⟩
  | cons v dropped ih =>
      have hv := hdropped v List.mem_cons_self
      have hpass : Swept next roots best acted (insert v met)
          (dropped ++ u :: (rest ++ next v)) := by
        simpa using h.pass hv
      refine ih (fun x hx => hdropped x (List.mem_cons_of_mem v hx)) hpass ?_
      refine hthin.append_covered fun y hy => ?_
      rcases hinv.next_covered hexpand hmono hv y hy with hw | ⟨e, he, hin⟩
      · exact Or.inl (Or.inl hw)
      · rcases List.mem_cons.mp hin with rfl | hin
        · exact Or.inl (Or.inr ⟨rfl, he⟩)
        · exact Or.inr ⟨e, he, hin⟩

/-- The order of the search: together with `DepthInv`, its invariant. -/
def Ordered (next : κ × Nat → List (κ × Nat)) (roots : List (κ × Nat)) (best : BTreeMap κ Nat)
    (acted : Set (κ × Nat)) (todo : List (κ × Nat)) : Prop :=
  ∃ met ahead, Swept next roots best acted met ahead ∧
    Thin (fun x => Within best x.1 x.2) todo ahead

theorem Ordered.start : Ordered next roots BTreeMap.empty ∅ roots := by
  refine ⟨∅, roots, ⟨⟨0, [], roots, rfl, by simp, fun x => ?_⟩, ?_, ?_, ?_, ?_⟩, .refl roots⟩
  · simp [MetBefore]
  · exact fun x hx => absurd hx (Set.notMem_empty x)
  · exact fun x hx => absurd hx (Set.notMem_empty x)
  · exact fun x hx => absurd hx (Set.notMem_empty x)
  · intro k d hb
    simp at hb

theorem Ordered.skip (hexpand : ∀ x, expand x = .ok (some (next x)))
    (hmono : DepthMonotone expand) (hinv : DepthInv expand depth roots best (u :: todo))
    (h : Ordered next roots best acted (u :: todo)) (hu : Within best u.1 u.2) :
    Ordered next roots best acted todo := by
  obtain ⟨met, ahead, hswept, hthin⟩ := h
  obtain ⟨dropped, rest, rfl, hdropped, hthin⟩ := hthin.split
  obtain ⟨met, rest, hswept, hthin⟩ := hswept.passAll hexpand hmono hinv hdropped hthin
  refine ⟨_, _, hswept.pass hu, ?_⟩
  have hcovers : ∀ x : κ × Nat, (Within best x.1 x.2 ∨ x.1 = u.1 ∧ u.2 ≤ x.2) →
      Within best x.1 x.2 := by
    rintro x (hx | ⟨hk, hle⟩)
    · exact hx
    · obtain ⟨e, he, hb⟩ := hu
      exact ⟨e, he.trans hle, hk ▸ hb⟩
  refine (hthin.mono hcovers).append_covered fun y hy => ?_
  rcases hinv.next_covered hexpand hmono hu y hy with hw | ⟨e, he, hin⟩
  · exact Or.inl hw
  · rcases List.mem_cons.mp hin with rfl | hin
    · exact Or.inl (hcovers y (Or.inr ⟨rfl, he⟩))
    · exact Or.inr ⟨e, he, hin⟩

theorem Ordered.act (hexpand : ∀ x, expand x = .ok (some (next x)))
    (hmono : DepthMonotone expand) (hinv : DepthInv expand depth roots best (u :: todo))
    (h : Ordered next roots best acted (u :: todo)) (hu : ¬ Within best u.1 u.2) :
    Ordered next roots (best.insert u.1 u.2) (insert u acted) (todo ++ next u) := by
  obtain ⟨met, ahead, hswept, hthin⟩ := h
  obtain ⟨dropped, rest, rfl, hdropped, hthin⟩ := hthin.split
  obtain ⟨met, rest, hswept, hthin⟩ := hswept.passAll hexpand hmono hinv hdropped hthin
  refine ⟨_, _, hswept.act hu, (hthin.mono ?_).append_same (next u)⟩
  rintro x (hx | ⟨hk, hle⟩)
  · exact hx.insert hu
  · exact ⟨u.2, hle, by simp [hk]⟩

variable (bestOf : σ → BTreeMap κ Nat)
  {visit : σ → κ × Nat → Except ε (Option (σ × List (κ × Nat)))}

/-- **What a breadth-first search by depth acts on**: the items first met.  `R` says which
items a state records as acted on. -/
theorem DepthExplores.mem_acted {n fuel : Nat} {R : σ → Set (κ × Nat) → Prop}
    (h : DepthExplores bestOf expand visit) (hexpand : ∀ x, expand x = .ok (some (next x)))
    (hmono : DepthMonotone expand) (hsize : ∀ m : BTreeMap κ Nat, m.keys.length ≤ n)
    (hfuel : n * (depth + 1) < fuel)
    (hdepth : ∀ x, x.2 ≤ depth → ∀ y ∈ next x, y.2 ≤ depth) {st r : σ}
    (hroots : ∀ x ∈ roots, x.2 ≤ depth) (hst : bestOf st = BTreeMap.empty) (hR : R st ∅)
    (hact : ∀ st k d st' ks acted, R st acted → visit st (k, d) = .ok (some (st', ks)) →
      R st' (insert (k, d) acted))
    (hrun : Worklist.run visit queue fuel st roots = .ok r) :
    R r { x | FirstMet next roots x } := by
  let I : σ → List (κ × Nat) → Prop := fun st todo =>
    DepthInv expand depth roots (bestOf st) todo ∧
      ∃ acted, R st acted ∧ Ordered next roots (bestOf st) acted todo
  have hend : I r [] := by
    refine run_ok (fun st => n * (depth + 1) - depthWeight depth (bestOf st)) ?_ ?_
      (by omega) ?_ hrun
    · rintro st ⟨k, d⟩ rest ⟨hinv, acted, hR, hord⟩ hv
      have hskip := h.skip st k d hv
      refine ⟨hinv.skip hskip, acted, hR, hord.skip hexpand hmono hinv ?_⟩
      refine hskip.resolve_right fun hn => ?_
      rw [hexpand] at hn
      cases hn
    · rintro st ⟨k, d⟩ rest st' ks ⟨hinv, acted, hR, hord⟩ hv
      obtain ⟨hnew, hbest, hks⟩ := h.act st k d st' ks hv
      have hd : d ≤ depth := hinv.todo_depth (k, d) List.mem_cons_self
      have hnext : ks = next (k, d) := by
        rw [hexpand] at hks
        cases hks
        rfl
      subst hnext
      simp only [I, hbest]
      refine ⟨⟨hinv.act hks hnew (fun x => mem_queue) (hdepth (k, d) hd), insert (k, d) acted,
        hact st k d st' _ acted hR hv, hord.act hexpand hmono hinv hnew⟩, ?_⟩
      have hlt := depthWeight_insert hd hnew
      have hle := depthWeight_le hsize depth ((bestOf st).insert k d)
      omega
    · simp only [I, hst]
      exact ⟨.start hroots, ∅, hR, .start⟩
  obtain ⟨hinv, acted, hR, met, ahead, hswept, hthin⟩ := hend
  have hacted : acted = { x | FirstMet next roots x } := by
    refine Set.ext fun x => ⟨fun hx => (hswept.acted_met x hx).1, fun hx => ?_⟩
    by_cases hmet : x ∈ met
    · exact hswept.first_acted x hmet hx
    · -- at the end whatever is met is covered
      have hlayer : ∃ m, x ∈ layer next roots m := by
        obtain ⟨m, l, rest, hl, -⟩ := hx
        exact ⟨m, by rw [hl]; simp⟩
      obtain ⟨m, hm⟩ := hlayer
      obtain ⟨e, he, hb⟩ := hinv.within hmono (reached_of_mem_layer hexpand hm)
      exact absurd (hswept.acted_met _ (hswept.bound _ e hb)).2 (hswept.position.unmet hx hmet e he)
  rwa [← hacted]

end Puregit.Worklist
