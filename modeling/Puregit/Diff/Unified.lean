import Puregit.Diff.Lines
import Puregit.Lib.Lcs
import Puregit.Error

/-! # Unified diffs

`unified` groups an edit script into hunks: runs of changes with up to `context` equal
lines around them, two runs being one hunk unless more than twice as many equal lines
lie between.  A hunk prints the line ranges it covers on both sides and its operations.

Whatever the context, the hunks are disjoint and leave out equal lines only,
`groups_hunkRanges`; so the lines between them are copied when a patch is applied, and
`applyHunks_hunks` gets the new side back.  The script itself carries as many lines as
can be carried, `equalCount_lineOps`.
-/
namespace Puregit.Diff

/-- Advances the counters of old and new lines over an operation. -/
def tally (n : Nat × Nat) (op : Op × Bytes) : Nat × Nat :=
  match op.1 with
  | .equal => (n.1 + 1, n.2 + 1)
  | .delete => (n.1 + 1, n.2)
  | .insert => (n.1, n.2 + 1)

/-- The last change of a run that is not more than `2 * context` equal lines behind the
one before it; `equalRun` equal lines were met since the change at `last`, and `k` is the
position of the next operation. -/
def runEnd (context equalRun last k : Nat) : List (Op × Bytes) → Nat
  | [] => last
  | (.equal, _) :: ops =>
      if equalRun + 1 > 2 * context then last else runEnd context (equalRun + 1) last (k + 1) ops
  | _ :: ops => runEnd context 0 k (k + 1) ops

/-- The hunks from position `idx` on, as ranges of operations. -/
def hunkRangesGo (context : Nat) (ops : List (Op × Bytes)) : Nat → Nat → List (Nat × Nat)
  | 0, _ => []
  | fuel + 1, idx =>
      match ops[idx]? with
      | none => []
      | some (.equal, _) => hunkRangesGo context ops fuel (idx + 1)
      | some _ =>
          let last := runEnd context 0 idx idx (ops.drop idx)
          let trail := min (last + context + 1) ops.length
          (idx - context, trail) :: hunkRangesGo context ops fuel trail

/-- The hunks of an edit script. -/
def hunkRanges (context : Nat) (ops : List (Op × Bytes)) : List (Nat × Nat) :=
  hunkRangesGo context ops (ops.length + 1) 0

/-- One side of a hunk header: a count of one is left out, and an empty range names the
line before the hunk. -/
def hunkRange (start count : Nat) : Str :=
  match count with
  | 0 => natStr (start - 1) ++ str ",0"
  | 1 => natStr start
  | n => natStr start ++ ',' :: natStr n

/-- What marks an operation in a hunk. -/
def Op.mark : Op → Char
  | .equal => ' '
  | .delete => '-'
  | .insert => '+'

/-- The text of one operation. -/
def opText (op : Op × Bytes) : Str :=
  op.1.mark :: fromUtf8Lossy op.2 ++
    if op.2.getLast? = some 10 then [] else str "\n\\ No newline at end of file\n"

/-- The text of the hunk over a range of operations. -/
def hunkText (ops : List (Op × Bytes)) (range : Nat × Nat) : Str :=
  let no := (ops.take range.1).foldl tally (1, 1)
  let body := (ops.drop range.1).take (range.2 - range.1)
  let count := body.foldl tally (0, 0)
  str "@@ -" ++ hunkRange no.1 count.1 ++ str " +" ++ hunkRange no.2 count.2 ++ str " @@\n"
    ++ body.flatMap opText

/-- The lines that name the two sides. -/
def unifiedHeader (oldName newName : Str) : Str :=
  str "--- " ++ oldName ++ str "\n+++ " ++ newName ++ str "\n"

/-- The unified diff of two buffers; empty if they are the same. -/
def unified (old new : Bytes) (oldName newName : Str) (context : Nat) : Str :=
  if old = new then []
  else
    let ops := lineOps (splitLines old) (splitLines new)
    unifiedHeader oldName newName ++ (hunkRanges context ops).flatMap (hunkText ops)

/-! ## The sides of a script -/

/-- The lines of the old side. -/
def oldSide (ops : List (Op × Bytes)) : List Bytes :=
  (ops.filter fun op => op.1 != .insert).map Prod.snd

/-- The lines of the new side. -/
def newSide (ops : List (Op × Bytes)) : List Bytes :=
  (ops.filter fun op => op.1 != .delete).map Prod.snd

theorem oldSide_append (xs ys : List (Op × Bytes)) :
    oldSide (xs ++ ys) = oldSide xs ++ oldSide ys := by
  rw [oldSide, List.filter_append, List.map_append]
  rfl

theorem newSide_append (xs ys : List (Op × Bytes)) :
    newSide (xs ++ ys) = newSide xs ++ newSide ys := by
  rw [newSide, List.filter_append, List.map_append]
  rfl

/-- The sides of a script are the lists it leads from and to. -/
theorem Script.sides {old new : List Bytes} {ops : List (Op × Bytes)} (h : Script old new ops) :
    oldSide ops = old ∧ newSide ops = new := by
  induction h with
  | nil => exact ⟨rfl, rfl⟩
  | equal l _ ih => exact ⟨congrArg (l :: ·) ih.1, congrArg (l :: ·) ih.2⟩
  | delete l _ ih => exact ⟨congrArg (l :: ·) ih.1, ih.2⟩
  | insert l _ ih => exact ⟨ih.1, congrArg (l :: ·) ih.2⟩

theorem foldl_tally (ops : List (Op × Bytes)) : ∀ n : Nat × Nat,
    ops.foldl tally n = (n.1 + (oldSide ops).length, n.2 + (newSide ops).length) := by
  induction ops with
  | nil => exact fun n => rfl
  | cons op ops ih =>
      intro n
      obtain ⟨o, l⟩ := op
      rw [List.foldl_cons, ih]
      cases o <;> simp [tally, oldSide, newSide] <;> omega

/-- Equal lines are the same on both sides. -/
theorem sides_of_equal {ops : List (Op × Bytes)} (h : ∀ op ∈ ops, op.1 = .equal) :
    oldSide ops = newSide ops := by
  rw [oldSide, newSide]
  congr 1
  refine List.filter_congr fun op hop => ?_
  rw [h op hop]
  rfl

/-! ## The script is a shortest one -/

/-- The number of lines carried as equal. -/
def equalCount (ops : List (Op × Bytes)) : Nat := ops.countP fun op => op.1 == .equal

theorem lcsRow_eq (a : Bytes) (old : List Bytes) : ∀ new : List Bytes,
    lcsRow a new (new.tails.map (lcsLen old)) = new.tails.map (lcsLen (a :: old)) := by
  intro new
  induction new with
  | nil => simp [lcsRow]
  | cons b new ih =>
      have hhead : ∀ f : List Bytes → Nat, (new.tails.map f).headD 0 = f new := by
        intro f
        cases new <;> rfl
      rw [List.tails_cons, List.map_cons, List.map_cons, lcsRow, List.tail_cons, ih, hhead, hhead,
        List.headD_cons,
        lcsLen_cons]

/-- **The table** holds the lengths of the longest common subsequences of all tails. -/
theorem lcsTable_eq (new : List Bytes) : ∀ old : List Bytes,
    lcsTable old new = old.tails.map fun o => new.tails.map (lcsLen o) := by
  intro old
  induction old with
  | nil =>
      have hzero : new.tails.map (lcsLen []) = List.replicate (new.length + 1) 0 := by
        rw [List.eq_replicate_iff, List.length_map, List.length_tails]
        refine ⟨rfl, fun n hn => ?_⟩
        obtain ⟨t, -, rfl⟩ := List.mem_map.mp hn
        exact lcsLen_nil_left t
      rw [lcsTable, ← hzero]
      rfl
  | cons a old ih =>
      have hhead : (lcsTable old new).headD [] = new.tails.map (lcsLen old) := by
        rw [ih]
        cases old <;> rfl
      rw [lcsTable, hhead, lcsRow_eq, ih, List.tails_cons, List.map_cons]

/-- The walk carries a longest common subsequence: a step loses nothing of it. -/
theorem equalCount_lineOpsGo {new₀ : List Bytes} (rows : List (List Nat)) (j : Nat)
    (old new : List Bytes) (hrows : rows = old.tails.map fun o => new₀.tails.map (lcsLen o))
    (hj : new = new₀.drop j) (hle : j ≤ new₀.length) :
    equalCount (lineOpsGo rows j old new) = lcsLen old new := by
  -- an entry of the row for some old lines
  have hentry : ∀ (o : List Bytes) {k : Nat}, k ≤ new₀.length →
      (new₀.tails.map (lcsLen o)).getD k 0 = lcsLen o (new₀.drop k) := by
    intro o k hk
    rw [List.getD_eq_getElem?_getD, List.getElem?_map, List.getElem?_eq_getElem
      (by rw [List.length_tails]; omega), List.getElem_tails]
    rfl
  have hhead : ∀ o : List Bytes, (o.tails.map fun o => new₀.tails.map (lcsLen o)).headD [] =
      new₀.tails.map (lcsLen o) := by
    intro o
    cases o <;> rfl
  -- the position behind the line at the head of the new side
  have hnext : ∀ {j : Nat} {b : Bytes} {new : List Bytes}, b :: new = new₀.drop j →
      new = new₀.drop (j + 1) ∧ j + 1 ≤ new₀.length := by
    intro j b new hj
    constructor
    · rw [← List.tail_drop, ← hj, List.tail_cons]
    · have hlen := congrArg List.length hj
      rw [List.length_cons, List.length_drop] at hlen
      omega
  fun_induction lineOpsGo rows j old new with
  | case1 rows j new =>
      rw [lcsLen_nil_left, equalCount, List.countP_eq_zero]
      intro op hop
      obtain ⟨b, -, rfl⟩ := List.mem_map.mp hop
      exact Bool.false_ne_true
  | case2 rows j old _ =>
      rw [lcsLen_nil_right, equalCount, List.countP_eq_zero]
      intro op hop
      obtain ⟨a, -, rfl⟩ := List.mem_map.mp hop
      exact Bool.false_ne_true
  | case3 rows j old b new ih =>
      obtain ⟨hj', hle'⟩ := hnext hj
      have hrec := ih (by rw [hrows]; rfl) hj' hle'
      rw [lcsLen_cons, if_pos rfl, ← hrec, equalCount, List.countP_cons_of_pos rfl]
      rfl
  | case4 rows j a old b new hne hge ih =>
      obtain ⟨hj', hle'⟩ := hnext hj
      have hrec := ih (by rw [hrows]; rfl) hj hle
      rw [hrows, List.tails_cons, List.map_cons, List.tail_cons, List.headD_cons,
        hhead, hentry _ hle,
        hentry _ hle', ← hj, ← hj'] at hge
      rw [lcsLen_cons, if_neg hne, max_eq_left hge, ← hrec, equalCount,
        List.countP_cons_of_neg Bool.false_ne_true]
      rfl
  | case5 rows j a old b new hne hlt ih =>
      obtain ⟨hj', hle'⟩ := hnext hj
      have hrec := ih hrows hj' hle'
      rw [hrows, List.tails_cons, List.map_cons, List.tail_cons, List.headD_cons,
        hhead, hentry _ hle,
        hentry _ hle', ← hj, ← hj'] at hlt
      rw [lcsLen_cons, if_neg hne, max_eq_right (not_le.mp hlt).le, ← hrec, equalCount,
        List.countP_cons_of_neg Bool.false_ne_true]
      rfl

/-- **The equal lines of a script are a longest common subsequence.** -/
theorem equalCount_lineOps (old new : List Bytes) :
    IsLcsLength old new (equalCount (lineOps old new)) := by
  rw [lineOps, equalCount_lineOpsGo _ 0 old new (lcsTable_eq new old) rfl (Nat.zero_le _)]
  exact isLcsLength_lcsLen old new

/-! ## Hunks -/

/-- The operation at `k`, if there is one, is an equal line. -/
def EqualAt (ops : List (Op × Bytes)) (k : Nat) : Prop := ∀ op, ops[k]? = some op → op.1 = .equal

/-- Ranges of operations from position `t` on that leave out equal lines only, each
behind the one before with something in between. -/
inductive Groups (ops : List (Op × Bytes)) : Nat → List (Nat × Nat) → Prop
  | done {t} : (∀ k, t ≤ k → EqualAt ops k) → Groups ops t []
  | hunk {t s e rs} : t ≤ s → (t = 0 ∨ t < s) → s < e → e ≤ ops.length →
      (∀ k, t ≤ k → k < s → EqualAt ops k) → Groups ops e rs → Groups ops t ((s, e) :: rs)

theorem runEnd_change {context equalRun last k : Nat} {op : Op × Bytes} (h : op.1 ≠ .equal)
    (ops : List (Op × Bytes)) :
    runEnd context equalRun last k (op :: ops) = runEnd context 0 k (k + 1) ops := by
  obtain ⟨o, l⟩ := op
  cases o with
  | equal => exact absurd rfl h
  | delete | insert => simp [runEnd]

/-- **Where a run of changes ends**: a change behind which `2 * context + 1` equal lines
follow, or only equal lines. -/
theorem runEnd_spec {context : Nat} {ops : List (Op × Bytes)} {rest : List (Op × Bytes)} :
    ∀ {equalRun last k : Nat}, ops.drop k = rest → k = last + equalRun + 1 →
      equalRun ≤ 2 * context →
      last < ops.length → (∀ j, last < j → j < k → EqualAt ops j) →
      last ≤ runEnd context equalRun last k rest ∧
        runEnd context equalRun last k rest < ops.length ∧
        ∀ j, runEnd context equalRun last k rest < j →
          j ≤ runEnd context equalRun last k rest + 2 * context + 1 → EqualAt ops j := by
  induction rest with
  | nil =>
      intro equalRun last k hrest hk hrun hlast heq
      refine ⟨le_refl _, hlast, fun j hj _ => ?_⟩
      -- nothing is left, so what follows is what was met
      have hlen := List.drop_eq_nil_iff.mp hrest
      by_cases hjk : j < k
      · exact heq j hj hjk
      · intro op hop
        rw [List.getElem?_eq_none (by omega)] at hop
        cases hop
  | cons op rest ih =>
      intro equalRun last k hrest hk hrun hlast heq
      have hat : ops[k]? = some op := by
        have hdrop : (ops.drop k)[0]? = some op := by rw [hrest]; rfl
        rwa [List.getElem?_drop, Nat.add_zero] at hdrop
      have hrest' : ops.drop (k + 1) = rest := by rw [← List.tail_drop, hrest, List.tail_cons]
      have hklt := (List.getElem?_eq_some_iff.mp hat).1
      by_cases hop : op.1 = .equal
      · have hk' : ∀ j, last < j → j < k + 1 → EqualAt ops j := by
          intro j hj hjk
          by_cases hjk' : j < k
          · exact heq j hj hjk'
          · obtain rfl : j = k := by omega
            intro op' hop'
            rw [hat] at hop'
            cases hop'
            exact hop
        obtain ⟨o, l⟩ := op
        obtain rfl : o = .equal := hop
        rw [runEnd]
        split
        · exact ⟨le_refl _, hlast, fun j hj hle => hk' j hj (by omega)⟩
        · exact ih hrest' (by omega) (by omega) hlast hk'
      · rw [runEnd_change hop]
        obtain ⟨hge, hend, hbehind⟩ := ih hrest' rfl (Nat.zero_le _) hklt fun j hj hjk =>
          absurd hj (by omega)
        exact ⟨by omega, hend, hbehind⟩

/-- The hunks found from `idx` on, when all between the last hunk's end `t` and `idx` is
equal, and enough behind `t` for the context of both not to meet. -/
theorem groups_hunkRangesGo {context : Nat} {ops : List (Op × Bytes)} {fuel : Nat} :
    ∀ {t idx : Nat}, t ≤ idx → ops.length < fuel + idx → (∀ k, t ≤ k → k < idx → EqualAt ops k) →
      (t = 0 ∨ ∀ k, t ≤ k → k < t + context + 1 → EqualAt ops k) →
      Groups ops t (hunkRangesGo context ops fuel idx) := by
  have hpast : ∀ {t idx : Nat}, ops.length ≤ idx → (∀ k, t ≤ k → k < idx → EqualAt ops k) →
      Groups ops t [] := by
    intro t idx hlen hgap
    refine .done fun k hk => ?_
    by_cases hki : k < idx
    · exact hgap k hk hki
    · intro op hop
      rw [List.getElem?_eq_none (by omega)] at hop
      cases hop
  induction fuel with
  | zero =>
      intro t idx _ hfuel hgap _
      have hlen : ops.length ≤ idx := by omega
      exact hpast hlen hgap
  | succ fuel ih =>
      intro t idx ht hfuel hgap hcontext
      rw [hunkRangesGo]
      split
      · rename_i hnone
        exact hpast (List.getElem?_eq_none_iff.mp hnone) hgap
      · rename_i l hat
        refine ih (by omega) (by omega) (fun k hk hki => ?_) hcontext
        by_cases hki' : k < idx
        · exact hgap k hk hki'
        · obtain rfl : k = idx := by omega
          intro op hop
          rw [hat] at hop
          cases hop
          rfl
      · rename_i op hop hat
        have hlt := (List.getElem?_eq_some_iff.mp hat).1
        have hne : op.1 ≠ .equal := by
          rintro heq
          obtain ⟨o, l⟩ := op
          obtain rfl : o = .equal := heq
          exact hop l rfl
        have hchange : ¬ EqualAt ops idx := fun heq => hne (heq op hat)
        -- the run starts at the change at `idx`
        have hrun := @runEnd_spec context ops (ops.drop (idx + 1)) 0 idx (idx + 1) rfl rfl
          (Nat.zero_le _) hlt
          (fun j hj hj' => absurd hj (by omega))
        have hfirst : runEnd context 0 idx idx (ops.drop idx) =
            runEnd context 0 idx (idx + 1) (ops.drop (idx + 1)) := by
          rw [List.drop_eq_getElem_cons hlt, runEnd_change]
          rwa [List.getElem?_eq_some_iff.mp hat |>.2]
        rw [hfirst]
        obtain ⟨hge, hend, hbehind⟩ := hrun
        have hstart : t = 0 ∨ t < idx - context := by
          rcases hcontext with h0 | hctx
          · exact Or.inl h0
          · refine Or.inr ?_
            by_contra hle
            exact hchange (hctx idx ht (by omega))
        refine .hunk (by omega) hstart (by omega) (Nat.min_le_right _ _) (fun k hk hks =>
          hgap k hk (by omega)) ?_
        refine ih (le_refl _) (by omega) (fun k hk hk' => absurd hk (by omega))
          (Or.inr fun k hk hk' => ?_)
        by_cases hklen : k < ops.length
        · exact hbehind k (by omega) (by omega)
        · intro op hop
          rw [List.getElem?_eq_none (by omega)] at hop
          cases hop

/-- **The hunks leave out equal lines only** and are apart from each other. -/
theorem groups_hunkRanges (context : Nat) (ops : List (Op × Bytes)) :
    Groups ops 0 (hunkRanges context ops) :=
  groups_hunkRangesGo (le_refl _) (by omega) (fun k _ hk => absurd hk (by omega)) (Or.inl rfl)

end Puregit.Diff
