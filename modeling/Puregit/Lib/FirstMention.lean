import Mathlib.Data.List.Nodup

/-! # Reading a graph depth first

A graph is read from a root.  A node mentions others, and each mention either leads into the node
or only names it.  The reading takes every node where it is first mentioned: a node that is first
only named is not entered by a later mention.

`target_mem_reading` says which nodes are read: those to which a way leads whose nodes were all
entered, `Mentioned`.  Nothing is missed where no node is mentioned in both ways,
`mentioned_of_separate`.
-/
namespace Puregit

/-- A mention of a node: one that only names it, or one that leads into it. -/
inductive Mention (α : Type) where
  | leaf (a : α)
  | node (a : α)
  deriving DecidableEq

namespace Mention
variable {α : Type}

/-- The node that is mentioned. -/
def target : Mention α → α
  | leaf a => a
  | node a => a

/-- The nodes of a list of mentions. -/
def targets (log : List (Mention α)) : List α := log.map target

@[simp] theorem targets_append (l l' : List (Mention α)) :
    targets (l ++ l') = targets l ++ targets l' := List.map_append

@[simp] theorem targets_singleton (m : Mention α) : targets [m] = [m.target] := rfl

theorem mem_targets {log : List (Mention α)} {a : α} :
    a ∈ targets log ↔ leaf a ∈ log ∨ node a ∈ log := by
  rw [targets, List.mem_map]
  constructor
  · rintro ⟨m, hm, rfl⟩
    cases m with
    | leaf a => exact Or.inl hm
    | node a => exact Or.inr hm
  · rintro (h | h)
    · exact ⟨_, h, rfl⟩
    · exact ⟨_, h, rfl⟩

theorem targets_subset {log ms : List (Mention α)} {a : α} (h : ∀ m, m ∈ log → m ∈ ms)
    (ha : a ∈ targets log) : a ∈ targets ms := by
  obtain ⟨m, hm, rfl⟩ := List.mem_map.mp ha
  exact List.mem_map_of_mem (h m hm)

/-- A node is mentioned once in a list whose nodes are distinct. -/
theorem eq_of_target_eq {log : List (Mention α)} (h : (targets log).Nodup) {m m' : Mention α}
    (hm : m ∈ log) (hm' : m' ∈ log) (heq : m.target = m'.target) : m = m' :=
      List.inj_on_of_nodup_map h hm hm' heq

/-- What is mentioned on a way from a root that enters only nodes with the property `via`. -/
inductive Mentioned (children : α → List (Mention α)) (via : α → Prop) (root : α) : Mention α → Prop
  | root : Mentioned children via root (node root)
  | child {a : α} {m : Mention α} : Mentioned children via root (node a) → via a → m ∈ children a →
      Mentioned children via root m

theorem Mentioned.mono {children : α → List (Mention α)} {via via' : α → Prop} {root : α}
    {m : Mention α} (h : Mentioned children via root m) (himp : ∀ a, via a → via' a) :
    Mentioned children via' root m := by
  induction h with
  | root => exact .root
  | child _ hvia hm ih => exact .child ih (himp _ hvia) hm

section
variable [DecidableEq α] (children : α → List (Mention α))

/-- Reads one mention at most `n` nodes deep, after those of `log`. -/
def readInto : Nat → List (Mention α) → Mention α → List (Mention α)
  | _, log, leaf a => if a ∈ targets log then log else log ++ [leaf a]
  | 0, log, node _ => log
  | n + 1, log, node a =>
    if a ∈ targets log then log else (children a).foldl (readInto n) (log ++ [node a])

/-- What is read from a root. -/
def reading (n : Nat) (root : α) : List (Mention α) := readInto children n [] (node root)

variable {children} {n : Nat} {log : List (Mention α)} {m m' : Mention α}
  {ms : List (Mention α)} {a root : α}

theorem readInto_leaf : readInto children n log (leaf a) = if a ∈ targets log then log
    else log ++ [leaf a] := by
  cases n <;> rfl

/-- **What adding a fresh mention keeps, reading keeps.** -/
theorem readInto_induction {P : List (Mention α) → Prop}
    (hadd : ∀ log m, P log → m.target ∉ targets log → P (log ++ [m]))
    (n : Nat) {log : List (Mention α)} (m : Mention α) (h : P log) :
    P (readInto children n log m) := by
  have hleaf : ∀ (n : Nat) {log : List (Mention α)} (a : α), P log →
      P (readInto children n log (leaf a)) := by
    intro n log a h
    rw [readInto_leaf]
    split
    · exact h
    · exact hadd log _ h ‹_›
  induction n generalizing log m with
  | zero =>
    cases m with
    | leaf a => exact hleaf 0 a h
    | node a => exact h
  | succ n ih =>
    cases m with
    | leaf a => exact hleaf (n + 1) a h
    | node a =>
      rw [readInto]
      split
      · exact h
      · exact List.foldlRecOn _ _ (hadd log _ h ‹_›) fun l hl c _ => ih c hl

/-- The log only grows. -/
theorem mem_readInto (h : m' ∈ log) : m' ∈ readInto children n log m :=
  readInto_induction (P := fun l => m' ∈ l) (fun _ _ hl _ => List.mem_append_left _ hl) n m h

theorem mem_foldl_readInto (h : m' ∈ log) : m' ∈ ms.foldl (readInto children n) log :=
  List.foldlRecOn _ _ h fun _ hl _ _ => mem_readInto hl

/-- Every node is read once. -/
theorem nodup_readInto (n : Nat) (m : Mention α) (h : (targets log).Nodup) :
    (targets (readInto children n log m)).Nodup := by
  refine readInto_induction (P := fun l => (targets l).Nodup) (fun log m hl hm => ?_) n m h
  rw [targets_append, targets_singleton]
  exact hl.append (List.nodup_singleton _) (List.disjoint_singleton.mpr hm)

/-- What is read is mentioned on a way through nodes that were entered. -/
theorem mentioned_of_mem_readInto (hlog : ∀ m' ∈ log, Mentioned children
    (fun a => node a ∈ log) root m') (hm : Mentioned children (fun a => node a ∈ log) root m) :
    ∀ m' ∈ readInto children n log m, Mentioned children (fun a =>
      node a ∈ readInto children n log m) root m' := by
  have hadd : ∀ {log : List (Mention α)} {m : Mention α},
    (∀ m' ∈ log, Mentioned children (fun a => node a ∈ log) root m') →
      Mentioned children (fun a => node a ∈ log) root m →
      ∀ m' ∈ log ++ [m], Mentioned children (fun a => node a ∈ log ++ [m]) root m' := by
    intro log m hlog hm m' hm'
    have hold : Mentioned children (fun a => node a ∈ log) root m' := by
      rcases List.mem_append.mp hm' with h | h
      · exact hlog m' h
      · rw [List.mem_singleton.mp h]
        exact hm
    exact hold.mono fun a ha => List.mem_append_left _ ha
  have hleaf : ∀ (n : Nat) {log : List (Mention α)} (a : α),
    (∀ m' ∈ log, Mentioned children (fun a => node a ∈ log) root m') →
      Mentioned children (fun a => node a ∈ log) root (leaf a) →
        ∀ m' ∈ readInto children n log (leaf a),
      Mentioned children (fun b => node b ∈ readInto children n log (leaf a)) root m' := by
    intro n log a hlog hm
    rw [readInto_leaf]
    split
    · exact hlog
    · exact hadd hlog hm
  induction n generalizing log m with
  | zero =>
    cases m with
    | leaf a => exact hleaf 0 a hlog hm
    | node a => exact hlog
  | succ n ih =>
    cases m with
    | leaf a => exact hleaf (n + 1) a hlog hm
    | node a =>
      rw [readInto]
      split
      · exact hlog
      · -- the node is entered first, so that its children are mentioned behind it
        have hstart := hadd hlog hm
        have hnode : ∀ {l : List (Mention α)},
          (∀ m' ∈ l, Mentioned children (fun a => node a ∈ l) root m') → node a ∈ l →
            ∀ c ∈ children a, Mentioned children (fun a => node a ∈ l) root c :=
              fun hl ha c hc => .child (hl _ ha) ha hc
        refine (List.foldlRecOn (motive := fun l =>
          (∀ m' ∈ l, Mentioned children (fun a => node a ∈ l) root m') ∧ node a ∈ l)
          _ _ ⟨hstart, List.mem_append_right _ (List.mem_singleton_self _)⟩ fun l hl c hc => ?_).1
        exact ⟨ih hl.1 (hnode hl.1 hl.2 c hc), mem_readInto hl.2⟩

/-- Enough depth: every level enters one node more. -/
theorem readInto_closed {count : Nat} (hcount : ∀ l : List α, l.Nodup → l.length ≤ count)
    (hn : count < n + log.length) (hlog : (targets log).Nodup) :
      m.target ∈ targets (readInto children n log m) ∧
      ∀ a, node a ∈ readInto children n log m → node a ∈ log ∨
        ∀ c ∈ children a, c.target ∈ targets (readInto children n log m) := by
  have hleaf : ∀ (n : Nat) {log : List (Mention α)} (a : α),
    a ∈ targets (readInto children n log (leaf a)) ∧
      ∀ b, node b ∈ readInto children n log (leaf a) → node b ∈ log := by
    intro n log a
    rw [readInto_leaf]
    split
    · exact ⟨‹_›, fun _ h => h⟩
    · simp [target]
  induction n generalizing log m with
  | zero =>
    cases m with
    | leaf a => exact ⟨(hleaf 0 a).1, fun b hb => Or.inl ((hleaf 0 a).2 b hb)⟩
    | node a =>
      have hlen := hcount _ hlog
      rw [targets, List.length_map] at hlen
      omega
  | succ n ih =>
    cases m with
    | leaf a => exact ⟨(hleaf (n + 1) a).1, fun b hb => Or.inl ((hleaf (n + 1) a).2 b hb)⟩
    | node a =>
      rw [readInto]
      split
      · exact ⟨‹_›, fun _ h => Or.inl h⟩
      · rename_i hfresh
        have hstart : (targets (log ++ [node a])).Nodup := by
          rw [targets_append, targets_singleton]
          exact hlog.append (List.nodup_singleton _) (List.disjoint_singleton.mpr hfresh)
        -- the children, the list of those read so far growing
        have hfold : ∀ (cs : List (Mention α)) {l : List (Mention α)}, (targets l).Nodup →
          count < n + l.length →
            (∀ c ∈ cs, c.target ∈ targets (cs.foldl (readInto children n) l)) ∧
            ∀ b, node b ∈ cs.foldl (readInto children n) l → node b ∈ l ∨
              ∀ c ∈ children b, c.target ∈ targets (cs.foldl (readInto children n) l) := by
          intro cs
          induction cs with
          | nil => exact fun _ _ => ⟨nofun, fun _ h => Or.inl h⟩
          | cons c cs ihcs =>
            intro l hl hlen
            obtain ⟨hc, hclosed⟩ := @ih l c hlen hl
            have hgrown : l.length ≤ (readInto children n l c).length := by
              refine readInto_induction (P := fun l' => l.length ≤ l'.length) (fun l' m hl' _ =>
                ?_) n c (Nat.le_refl _)
              rw [List.length_append]
              omega
            obtain ⟨hcs, hclosed'⟩ :=
              @ihcs (readInto children n l c) (nodup_readInto n c hl) (by omega)
            rw [List.foldl_cons]
            refine ⟨List.forall_mem_cons.mpr ⟨targets_subset (fun _ => mem_foldl_readInto) hc, hcs⟩,
              fun b hb => ?_⟩
            rcases hclosed' b hb with hmid | hall
            · exact (hclosed b hmid).imp id fun h d hd =>
                targets_subset (fun _ => mem_foldl_readInto) (h d hd)
            · exact Or.inr hall
        obtain ⟨hcs, hclosed⟩ :=
          hfold (children a) hstart (by rw [List.length_append, List.length_singleton]; omega)
        have hmem : node a ∈ (children a).foldl (readInto children n) (log ++ [node a]) :=
          mem_foldl_readInto (List.mem_append_right _ (List.mem_singleton_self _))
        refine ⟨mem_targets.mpr (Or.inr hmem), fun b hb => ?_⟩
        rcases hclosed b hb with hold | hall
        · rcases List.mem_append.mp hold with h | h
          · exact Or.inl h
          · cases List.mem_singleton.mp h
            exact Or.inr hcs
        · exact Or.inr hall

/-- **The nodes that are read** are those to which a way leads through nodes that were entered. -/
theorem target_mem_reading {count : Nat} (hcount : ∀ l : List α, l.Nodup → l.length ≤ count)
    (hn : count < n) :
    a ∈ targets (reading children n root) ↔
      ∃ m, Mentioned children (fun a => node a ∈ reading children n root) root m ∧
        m.target = a := by
  obtain ⟨hroot, hclosed⟩ := @readInto_closed α _ children n [] (node root) count hcount
    (by simpa using hn) List.nodup_nil
  constructor
  · intro h
    obtain ⟨m, hm, rfl⟩ := List.mem_map.mp h
    exact ⟨m, mentioned_of_mem_readInto (by simp) .root m hm, rfl⟩
  · rintro ⟨m, hm, rfl⟩
    induction hm with
    | root => exact hroot
    | child _ hvia hm _ => exact (hclosed _ hvia).resolve_left List.not_mem_nil _ hm

/-- **Nothing is missed** where no node is mentioned in both ways. -/
theorem mentioned_of_separate {count : Nat} (hcount : ∀ l : List α, l.Nodup → l.length ≤ count)
    (hn : count < n) (hseparate : ∀ a, Mentioned children (fun _ => True) root (leaf a) →
      ¬Mentioned children (fun _ => True) root (node a))
    (h : Mentioned children (fun _ => True) root m) :
    Mentioned children (fun a => node a ∈ reading children n root) root m := by
  induction h with
  | root => exact .root
  | child hnode _ hm ih =>
    refine .child ih ?_ hm
    have hread := (target_mem_reading hcount hn).mpr ⟨_, ih, rfl⟩
    refine (mem_targets.mp hread).resolve_left fun hleaf => ?_
    exact hseparate _ ((mentioned_of_mem_readInto (by simp) .root _ hleaf).mono fun _ _ =>
      trivial) hnode

end
end Mention
end Puregit
