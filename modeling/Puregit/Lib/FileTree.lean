import Mathlib.Data.List.Infix
import Puregit.Lib.BTree

/-! # Directory trees

A `FileTree` maps paths, lists of names from the root, to directories and leaves.  Its
invariant is that whatever is bound lies in a directory, so that a path is either
present or cannot be reached.  The operations keep the invariant; each comes with what
it does to every path.
-/
namespace Puregit

/-- What a path is bound to. -/
inductive Entry (δ : Type) where
  | leaf (data : δ)
  | dir
  deriving DecidableEq

/-- A tree of directories with data of type `δ` at its leaves. -/
structure FileTree (κ δ : Type) [LinearOrder κ] where
  entries : BTreeMap (List κ) (Entry δ)
  root : entries.get? [] = some .dir
  closed : ∀ p e, p ≠ [] → entries.get? p = some e → entries.get? p.dropLast = some .dir

namespace FileTree
variable {κ δ : Type} [LinearOrder κ]

/-- What a path is bound to. -/
def get? (t : FileTree κ δ) (p : List κ) : Option (Entry δ) := t.entries.get? p

/-- The path is a directory. -/
def isDir (t : FileTree κ δ) (p : List κ) : Bool :=
  match t.get? p with
  | some .dir => true
  | _ => false

/-- The data at a leaf. -/
def leaf? (t : FileTree κ δ) (p : List κ) : Option δ :=
  match t.get? p with
  | some (.leaf d) => some d
  | _ => none

theorem isDir_iff {t : FileTree κ δ} {p : List κ} : t.isDir p = true ↔ t.get? p = some .dir := by
  rw [isDir]
  split <;> simp_all

theorem leaf?_eq_some {t : FileTree κ δ} {p : List κ} {d : δ} :
    t.leaf? p = some d ↔ t.get? p = some (.leaf d) := by
  rw [leaf?]
  split <;> simp_all

theorem ext_get? {t t' : FileTree κ δ} (h : ∀ p, t.get? p = t'.get? p) : t = t' := by
  have he : t.entries = t'.entries := BTreeMap.ext_get? h
  cases t
  cases t'
  cases he
  rfl

@[simp] theorem get?_nil (t : FileTree κ δ) : t.get? [] = some .dir := t.root

/-- Whatever is bound lies in a directory. -/
theorem get?_dropLast {t : FileTree κ δ} {p : List κ} {e : Entry δ} (hp : p ≠ [])
    (h : t.get? p = some e) : t.get? p.dropLast = some .dir := t.closed p e hp h

/-- All the way up to the root. -/
theorem get?_of_append {t : FileTree κ δ} {p q : List κ} {e : Entry δ} (hq : q ≠ [])
    (h : t.get? (p ++ q) = some e) : t.get? p = some .dir := by
  induction q using List.reverseRecOn generalizing e with
  | nil => exact absurd rfl hq
  | append_singleton q c ih =>
      have hdir := get?_dropLast (by simp) h
      rw [← List.append_assoc, List.dropLast_concat] at hdir
      by_cases hq' : q = []
      · rwa [hq', List.append_nil] at hdir
      · exact ih hq' hdir

theorem get?_of_isPrefix {t : FileTree κ δ} {p q : List κ} {e : Entry δ}
    (hpq : p <+: q) (hne : p ≠ q) (h : t.get? q = some e) : t.get? p = some .dir := by
  obtain ⟨r, rfl⟩ := hpq
  refine get?_of_append ?_ h
  rintro rfl
  exact hne (List.append_nil p).symm

/-- Nothing lies below a leaf. -/
theorem not_below_leaf {t : FileTree κ δ} {p q : List κ} {d : δ} (hp : t.get? p = some (.leaf d))
    (hpq : p <+: q) (hne : p ≠ q) : t.get? q = none := by
  cases hq : t.get? q with
  | none => rfl
  | some e =>
      rw [get?_of_isPrefix hpq hne hq] at hp
      cases hp

/-- The tree of the root alone. -/
def empty : FileTree κ δ where
  entries := BTreeMap.empty.insert [] .dir
  root := by simp
  closed p e hp h := by
    rw [BTreeMap.get?_insert, if_neg hp] at h
    simp at h

@[simp] theorem get?_empty {p : List κ} (hp : p ≠ []) : (empty : FileTree κ δ).get? p = none := by
  rw [get?, empty, BTreeMap.get?_insert, if_neg hp, BTreeMap.get?_empty]

/-! ## Changing one path -/

/-- Binds a path in an existing directory, unless the path is a directory. -/
def insert (t : FileTree κ δ) (p : List κ) (e : Entry δ) (hp : p ≠ [])
    (hparent : t.get? p.dropLast = some .dir) (hdir : t.get? p ≠ some .dir) : FileTree κ δ where
  entries := t.entries.insert p e
  root := by
    rw [BTreeMap.get?_insert, if_neg (Ne.symm hp)]
    exact t.root
  closed q e' hq h := by
    rw [BTreeMap.get?_insert] at h ⊢
    have hup : t.entries.get? q.dropLast = some .dir := by
      split at h
      · rename_i heq
        exact heq ▸ hparent
      · exact t.closed q e' hq h
    split
    · rename_i heq
      exact absurd (heq ▸ hup) hdir
    · exact hup

theorem get?_insert {t : FileTree κ δ} {p : List κ} {e : Entry δ} {hp : p ≠ []}
    {hparent : t.get? p.dropLast = some .dir} {hdir : t.get? p ≠ some .dir} (q : List κ)
    [Decidable (q = p)] : (t.insert p e hp hparent hdir).get? q = if q = p then some e
    else t.get? q := by
  by_cases hq : q = p
  · simp [get?, insert, BTreeMap.get?_insert, hq]
  · simp [get?, insert, BTreeMap.get?_insert, hq]

/-- Removes a path with nothing below it. -/
def erase (t : FileTree κ δ) (p : List κ) (hp : p ≠ [])
    (hbelow : ∀ c, t.get? (p ++ [c]) = none) : FileTree κ δ where
  entries := t.entries.erase p
  root := by
    rw [BTreeMap.get?_erase, if_neg (Ne.symm hp)]
    exact t.root
  closed q e hq h := by
    rw [BTreeMap.get?_erase] at h ⊢
    split at h
    · cases h
    split
    · rename_i heq
      have hqp : q = p ++ [q.getLast hq] := by
        rw [← heq]
        exact (List.dropLast_append_getLast hq).symm
      have hnone := hbelow (q.getLast hq)
      rw [← hqp, get?, h] at hnone
      cases hnone
    · exact t.closed q e hq h

theorem get?_erase {t : FileTree κ δ} {p : List κ} {hp : p ≠ []}
    {hbelow : ∀ c, t.get? (p ++ [c]) = none} (q : List κ) [Decidable (q = p)] :
    (t.erase p hp hbelow).get? q = if q = p then none else t.get? q := by
  by_cases hq : q = p
  · simp [get?, erase, BTreeMap.get?_erase, hq]
  · simp [get?, erase, BTreeMap.get?_erase, hq]

/-! ## The operations of a file system -/

/-- Binds a leaf in an existing directory; nothing happens where that is impossible. -/
def putLeaf (t : FileTree κ δ) (p : List κ) (d : δ) : Option (FileTree κ δ) :=
  if h : p ≠ [] ∧ t.isDir p.dropLast = true ∧ ¬ t.isDir p = true then
    some (t.insert p (.leaf d) h.1 (isDir_iff.mp h.2.1) fun hd => h.2.2 (isDir_iff.mpr hd))
  else none

theorem putLeaf_isSome {t : FileTree κ δ} {p : List κ} {d : δ} :
    (t.putLeaf p d).isSome = true ↔
      p ≠ [] ∧ t.get? p.dropLast = some .dir ∧ t.get? p ≠ some .dir := by
  rw [putLeaf, ne_eq (t.get? p), ← isDir_iff, ← isDir_iff]
  split
  · rename_i h
    exact ⟨fun _ => h, fun _ => rfl⟩
  · rename_i h
    exact ⟨fun hs => by simp at hs, fun h' => absurd h' h⟩

theorem get?_putLeaf {t t' : FileTree κ δ} {p : List κ} {d : δ} (h : t.putLeaf p d = some t')
    (q : List κ) [Decidable (q = p)] : t'.get? q = if q = p then some (.leaf d) else t.get? q := by
  rw [putLeaf] at h
  split at h
  · cases h
    exact get?_insert q
  · cases h

/-- Removes a leaf; nothing happens where there is none. -/
def removeLeaf (t : FileTree κ δ) (p : List κ) : Option (FileTree κ δ) :=
  match h : t.get? p with
  | some (.leaf _) =>
    some (t.erase p (by rintro rfl; rw [get?_nil] at h; cases h)
      fun c => not_below_leaf h (List.prefix_append p [c]) (by simp))
  | _ => none

theorem removeLeaf_isSome {t : FileTree κ δ} {p : List κ} :
    (t.removeLeaf p).isSome = true ↔ ∃ d, t.get? p = some (.leaf d) := by
  rw [removeLeaf]
  split
  · rename_i d h
    exact ⟨fun _ => ⟨d, h⟩, fun _ => rfl⟩
  · rename_i h
    refine ⟨fun hs => by simp at hs, ?_⟩
    rintro ⟨d, hd⟩
    exact absurd hd (h d)

theorem get?_removeLeaf {t t' : FileTree κ δ} {p : List κ} (h : t.removeLeaf p = some t')
    (q : List κ) [Decidable (q = p)] : t'.get? q = if q = p then none else t.get? q := by
  rw [removeLeaf] at h
  split at h
  · cases h
    exact get?_erase q
  · cases h

/-- Makes a directory in an existing one, where nothing is. -/
def makeDir (t : FileTree κ δ) (p : List κ) : Option (FileTree κ δ) :=
  if h : p ≠ [] ∧ t.isDir p.dropLast = true ∧ t.get? p = none then
    some (t.insert p .dir h.1 (isDir_iff.mp h.2.1) (by rw [h.2.2]; simp))
  else none

theorem makeDir_isSome {t : FileTree κ δ} {p : List κ} :
    (t.makeDir p).isSome = true ↔ p ≠ [] ∧ t.get? p.dropLast = some .dir ∧ t.get? p = none := by
  rw [makeDir, ← isDir_iff]
  split
  · rename_i h
    exact ⟨fun _ => h, fun _ => rfl⟩
  · rename_i h
    exact ⟨fun hs => by simp at hs, fun h' => absurd h' h⟩

theorem get?_makeDir {t t' : FileTree κ δ} {p : List κ} (h : t.makeDir p = some t')
    (q : List κ) [Decidable (q = p)] : t'.get? q = if q = p then some .dir else t.get? q := by
  rw [makeDir] at h
  split at h
  · cases h
    exact get?_insert q
  · cases h

/-- Makes the directories `p ++ [c₁]`, `p ++ [c₁, c₂]` and so on that are missing;
none if one of them is a leaf. -/
def createDirsFrom (t : FileTree κ δ) (p : List κ) : List κ → Option (FileTree κ δ)
  | [] => some t
  | c :: cs =>
    match h : t.get? (p ++ [c]) with
    | some .dir => createDirsFrom t (p ++ [c]) cs
    | some (.leaf _) => none
    | none =>
      if hp : t.isDir p = true then
        createDirsFrom (t.insert (p ++ [c]) .dir (by simp)
          (by rw [List.dropLast_concat]; exact isDir_iff.mp hp) (by rw [h]; simp)) (p ++ [c]) cs
      else none

/-- Makes a directory and those above it. -/
def createDirAll (t : FileTree κ δ) (p : List κ) : Option (FileTree κ δ) := createDirsFrom t [] p

/-- No leaf lies on the way to a path, the path included. -/
def NoLeafTo (t : FileTree κ δ) (p : List κ) : Prop := ∀ q d, q <+: p → t.get? q ≠ some (.leaf d)

open Classical in
theorem createDirsFrom_spec {t : FileTree κ δ} {p cs : List κ} (hp : t.get? p = some .dir) :
    ((t.createDirsFrom p cs).isSome = true ↔
      ∀ q d, q <+: cs → q ≠ [] → t.get? (p ++ q) ≠ some (.leaf d)) ∧
    ∀ t', t.createDirsFrom p cs = some t' → ∀ q, t'.get? q =
      if ∃ r, r <+: cs ∧ r ≠ [] ∧ q = p ++ r then some .dir else t.get? q := by
  induction cs generalizing t p with
  | nil =>
      refine ⟨⟨fun _ q d hq hne => absurd (List.prefix_nil.mp hq) hne, fun _ => rfl⟩, ?_⟩
      intro t' h q
      cases h
      rw [if_neg]
      rintro ⟨r, hr, hne, -⟩
      exact hne (List.prefix_nil.mp hr)
  | cons c cs ih =>
      have hcons : ∀ r, (r <+: c :: cs ∧ r ≠ []) ↔ ∃ r', r = c :: r' ∧ r' <+: cs := by
        intro r
        cases r with
        | nil => simp
        | cons c' r' =>
            simp only [List.cons_prefix_cons, ne_eq, reduceCtorEq, not_false_iff, and_true]
            constructor
            · rintro ⟨rfl, hr⟩
              exact ⟨r', rfl, hr⟩
            · rintro ⟨r'', h, hr⟩
              cases h
              exact ⟨rfl, hr⟩
      -- what holds below the next directory holds below this one
      have hstep : ∀ t₁ : FileTree κ δ, t₁.get? (p ++ [c]) = some .dir →
          (∀ q, q ≠ p ++ [c] → t₁.get? q = t.get? q) →
          (∀ d, t.get? (p ++ [c]) ≠ some (.leaf d)) →
          ((t₁.createDirsFrom (p ++ [c]) cs).isSome = true ↔
            ∀ q d, q <+: c :: cs → q ≠ [] → t.get? (p ++ q) ≠ some (.leaf d)) ∧
          ∀ t', t₁.createDirsFrom (p ++ [c]) cs = some t' → ∀ q, t'.get? q =
            if ∃ r, r <+: c :: cs ∧ r ≠ [] ∧ q = p ++ r then some .dir else t.get? q := by
        intro t₁ hdir hsame hnoleaf
        obtain ⟨ihsome, ihget⟩ := ih hdir
        have happ : ∀ r : List κ, p ++ [c] ++ r = p ++ c :: r := fun r => by simp
        constructor
        · rw [ihsome]
          constructor
          · intro h q d hq hne
            obtain ⟨r, rfl, hr⟩ := (hcons q).mp ⟨hq, hne⟩
            by_cases hnil : r = []
            · rw [hnil]
              exact hnoleaf d
            · have := h r d hr hnil
              rwa [happ, hsame _ (by simpa using hnil)] at this
          · intro h r d hr hne
            rw [happ, hsame _ (by simpa using hne)]
            obtain ⟨hq, hqne⟩ := (hcons (c :: r)).mpr ⟨r, rfl, hr⟩
            exact h _ d hq hqne
        · intro t' h q
          rw [ihget t' h q]
          by_cases hq : q = p ++ [c]
          · have hin : ∃ r, r <+: c :: cs ∧ r ≠ [] ∧ q = p ++ r := ⟨[c], by simp, by simp, hq⟩
            rw [if_pos hin]
            split
            · rfl
            · rw [hq, hdir]
          · have hiff : (∃ r, r <+: cs ∧ r ≠ [] ∧ q = p ++ [c] ++ r) ↔
                ∃ r, r <+: c :: cs ∧ r ≠ [] ∧ q = p ++ r := by
              constructor
              · rintro ⟨r, hr, -, rfl⟩
                obtain ⟨h1, h2⟩ := (hcons (c :: r)).mpr ⟨r, rfl, hr⟩
                exact ⟨c :: r, h1, h2, happ r⟩
              · rintro ⟨r, hr, hne, rfl⟩
                obtain ⟨r', rfl, hr'⟩ := (hcons r).mp ⟨hr, hne⟩
                refine ⟨r', hr', ?_, (happ r').symm⟩
                rintro rfl
                exact hq rfl
            simp only [hiff, hsame q hq]
      rw [createDirsFrom]
      split
      · rename_i h
        exact hstep t h (fun _ _ => rfl) (by rw [h]; simp)
      · rename_i d h
        refine ⟨⟨fun hs => by simp at hs, fun hall => ?_⟩, fun t' ht => by cases ht⟩
        obtain ⟨h1, h2⟩ := (hcons [c]).mpr ⟨[], rfl, List.nil_prefix⟩
        exact absurd h (hall [c] d h1 h2)
      · rename_i h
        rw [dif_pos (isDir_iff.mpr hp)]
        refine hstep _ ?_ (fun q hq => ?_) (by rw [h]; simp)
        · rw [get?_insert, if_pos rfl]
        · rw [get?_insert, if_neg hq]

/-- **Directories can be made unless a leaf is in the way.** -/
theorem createDirAll_isSome {t : FileTree κ δ} {p : List κ} :
    (t.createDirAll p).isSome = true ↔ t.NoLeafTo p := by
  rw [createDirAll, (createDirsFrom_spec t.get?_nil).1]
  constructor
  · intro h q d hq
    by_cases hnil : q = []
    · rw [hnil, get?_nil]
      simp
    · exact h q d hq hnil
  · exact fun h q d hq _ => h q d hq

/-- Making directories binds the way to the path, and changes nothing else. -/
theorem get?_createDirAll {t t' : FileTree κ δ} {p : List κ} (h : t.createDirAll p = some t')
    (q : List κ) [Decidable (q <+: p)] : t'.get? q = if q <+: p then some .dir else t.get? q := by
  rw [(createDirsFrom_spec t.get?_nil).2 t' h q]
  by_cases hq : q <+: p
  · rw [if_pos hq]
    by_cases hnil : q = []
    · rw [hnil, get?_nil, ite_self]
    · rw [if_pos ⟨q, hq, hnil, rfl⟩]
  · rw [if_neg hq, if_neg]
    rintro ⟨r, hr, -, rfl⟩
    exact hq hr

/-- Making directories where they are changes nothing. -/
theorem createDirAll_of_isDir {t : FileTree κ δ} {p : List κ} (h : t.get? p = some .dir) :
    t.createDirAll p = some t := by
  have hway : ∀ q, q <+: p → t.get? q = some .dir := by
    intro q hq
    by_cases hne : q = p
    · rwa [hne]
    · exact get?_of_isPrefix hq hne h
  obtain ⟨t', ht⟩ := Option.isSome_iff_exists.mp (createDirAll_isSome.mpr fun q d hq => by
    rw [hway q hq]
    simp)
  rw [ht]
  refine congrArg some (ext_get? fun q => ?_)
  rw [get?_createDirAll ht]
  split
  · rename_i hq
    exact (hway q hq).symm
  · rfl

/-- The entries of a directory, in order. -/
def children (t : FileTree κ δ) (p : List κ) : List (κ × Entry δ) :=
  t.entries.toList.filterMap fun b =>
    if b.1.dropLast = p then b.1.getLast?.map fun c => (c, b.2) else none

theorem mem_children {t : FileTree κ δ} {p : List κ} {c : κ} {e : Entry δ} :
    (c, e) ∈ t.children p ↔ t.get? (p ++ [c]) = some e := by
  rw [children, List.mem_filterMap, get?, BTreeMap.get?_eq_some]
  constructor
  · rintro ⟨⟨q, e'⟩, hb, h⟩
    split at h
    · rename_i hq
      obtain ⟨c', hc', heq⟩ := Option.map_eq_some_iff.mp h
      cases heq
      have hqc : q = p ++ [c] := by
        rw [← hq]
        exact (List.dropLast_append_getLast? c hc').symm
      rwa [← hqc]
    · cases h
  · intro h
    exact ⟨_, h, by simp⟩

/-- The entries of a directory depend on what is in it alone. -/
theorem children_congr {t t' : FileTree κ δ} {p : List κ}
    (h : ∀ q, q.dropLast = p → t'.get? q = t.get? q) :
    t'.children p = t.children p := by
  have hchildren : ∀ t : FileTree κ δ, t.children p =
      (t.entries.toList.filter fun b => b.1.dropLast = p).filterMap fun b =>
        b.1.getLast?.map fun c => (c, b.2) := by
    intro t
    rw [children, List.filterMap_filter]
    simp only [decide_eq_true_eq]
  have hin : t'.entries.toList.filter (fun b => b.1.dropLast = p) = t.entries.toList.filter fun b =>
      b.1.dropLast = p := by
    refine BTreeMap.eq_of_mem_iff (t'.entries.sorted.filter _)
      (t.entries.sorted.filter _) fun b => ?_
    rw [List.mem_filter, List.mem_filter, ← BTreeMap.get?_eq_some, ← BTreeMap.get?_eq_some,
      decide_eq_true_iff]
    exact and_congr_left fun hb => by rw [← get?, ← get?, h b.1 hb]
  rw [hchildren, hchildren, hin]

/-- Removes a directory with nothing in it. -/
def removeDir (t : FileTree κ δ) (p : List κ) : Option (FileTree κ δ) :=
  if h : p ≠ [] ∧ t.isDir p = true ∧ t.children p = [] then
    some (t.erase p h.1 fun c => by
      rw [Option.eq_none_iff_forall_ne_some]
      intro e he
      have hmem := mem_children.mpr he
      rw [h.2.2] at hmem
      cases hmem)
  else none

theorem removeDir_isSome {t : FileTree κ δ} {p : List κ} :
    (t.removeDir p).isSome = true ↔ p ≠ [] ∧ t.get? p = some .dir ∧
      ∀ c, t.get? (p ++ [c]) = none := by
  rw [removeDir, ← isDir_iff]
  have hempty : t.children p = [] ↔ ∀ c, t.get? (p ++ [c]) = none := by
    rw [List.eq_nil_iff_forall_not_mem]
    constructor
    · intro h c
      rw [Option.eq_none_iff_forall_ne_some]
      exact fun e he => h (c, e) (mem_children.mpr he)
    · rintro h ⟨c, e⟩ hmem
      rw [mem_children, h c] at hmem
      cases hmem
  split
  · rename_i h
    exact ⟨fun _ => ⟨h.1, h.2.1, hempty.mp h.2.2⟩, fun _ => rfl⟩
  · rename_i h
    exact ⟨fun hs => by simp at hs, fun h' => absurd ⟨h'.1, h'.2.1, hempty.mpr h'.2.2⟩ h⟩

theorem get?_removeDir {t t' : FileTree κ δ} {p : List κ} (h : t.removeDir p = some t')
    (q : List κ) [Decidable (q = p)] : t'.get? q = if q = p then none else t.get? q := by
  rw [removeDir] at h
  split at h
  · cases h
    exact get?_erase q
  · cases h

end FileTree
end Puregit
