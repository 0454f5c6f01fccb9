import Puregit.Diff.Unified
import Puregit.Object.RoundTrip

/-! # Unified diffs are patches

What a unified diff is for: a reader takes its hunks, `readPatch`, and applies them to
the old side, `applyHunks`: it copies the lines up to a hunk, checks that the equal and
deleted lines of the hunk stand there, and writes the equal and inserted ones.

`unified_patch` says that every diff is read back as hunks in order that do not
overlap, whose headers give the lines they cover, and that turn the old buffer into the
new one.
-/
namespace Puregit.Diff

/-- A hunk as a patch states it. -/
structure Hunk where
  oldStart : Nat
  oldCount : Nat
  newStart : Nat
  newCount : Nat
  ops : List (Op × Bytes)

/-- The number of lines before a range: an empty range names the line before it, any
other its first line, counted from one. -/
def linesBefore (start count : Nat) : Nat := if count = 0 then start else start - 1

/-- The number of old lines before a hunk. -/
def Hunk.oldIndex (h : Hunk) : Nat := linesBefore h.oldStart h.oldCount

/-- The number of new lines before a hunk. -/
def Hunk.newIndex (h : Hunk) : Nat := linesBefore h.newStart h.newCount

/-- The header of a hunk gives the lines it covers on both sides. -/
structure Hunk.Covers (h : Hunk) (old new : List Bytes) : Prop where
  old_lines : (old.drop h.oldIndex).take h.oldCount = oldSide h.ops
  old_count : (oldSide h.ops).length = h.oldCount
  new_lines : (new.drop h.newIndex).take h.newCount = newSide h.ops
  new_count : (newSide h.ops).length = h.newCount

/-- One hunk ends before another starts, on both sides. -/
def Hunk.Before (h k : Hunk) : Prop :=
  h.oldIndex + h.oldCount < k.oldIndex ∧ h.newIndex + h.newCount < k.newIndex

/-! ## Applying a patch -/

/-- Applies the operations of a hunk: the lines written and the old lines left. -/
def applyOps : List (Op × Bytes) → List Bytes → Option (List Bytes × List Bytes)
  | [], old => some ([], old)
  | (.insert, l) :: ops, old => (applyOps ops old).map fun r => (l :: r.1, r.2)
  | (.equal, l) :: ops, a :: old =>
      if a = l then (applyOps ops old).map fun r => (l :: r.1, r.2) else none
  | (.delete, l) :: ops, a :: old => if a = l then applyOps ops old else none
  | _, [] => none

/-- Applies hunks to the old lines from position `pos` on. -/
def applyHunks (pos : Nat) (old : List Bytes) : List Hunk → Option (List Bytes)
  | [] => some old
  | h :: hs =>
      if pos ≤ h.oldIndex ∧ h.oldIndex - pos ≤ old.length then
        match applyOps h.ops (old.drop (h.oldIndex - pos)) with
        | none => none
        | some (written, rest) =>
            (applyHunks (h.oldIndex + h.oldCount) rest hs).map fun out =>
              old.take (h.oldIndex - pos) ++ written ++ out
      else none

theorem applyOps_sides (ops : List (Op × Bytes)) (rest : List Bytes) :
    applyOps ops (oldSide ops ++ rest) = some (newSide ops, rest) := by
  induction ops with
  | nil => rfl
  | cons op ops ih =>
      obtain ⟨o, l⟩ := op
      cases o with
      | equal =>
          show (if l = l then (applyOps ops (oldSide ops ++ rest)).map _ else none) = _
          rw [if_pos rfl, ih]
          rfl
      | delete =>
          show (if l = l then applyOps ops (oldSide ops ++ rest) else none) = _
          rw [if_pos rfl, ih]
          rfl
      | insert =>
          show (applyOps ops (oldSide ops ++ rest)).map _ = _
          rw [ih]
          rfl

/-! ## The hunks of a script -/

/-- The number of old lines among the first operations. -/
def oldAt (ops : List (Op × Bytes)) (k : Nat) : Nat := (oldSide (ops.take k)).length

/-- The number of new lines among the first operations. -/
def newAt (ops : List (Op × Bytes)) (k : Nat) : Nat := (newSide (ops.take k)).length

/-- The operations in a range. -/
def slice (ops : List (Op × Bytes)) (s e : Nat) : List (Op × Bytes) := (ops.drop s).take (e - s)

/-- The start a header prints for the lines behind `before` others. -/
def shownStart (before count : Nat) : Nat := if count = 0 then before else before + 1

/-- The hunk over a range of operations. -/
def hunkOf (ops : List (Op × Bytes)) (range : Nat × Nat) : Hunk :=
  let body := slice ops range.1 range.2
  { oldStart := shownStart (oldAt ops range.1) (oldSide body).length
    oldCount := (oldSide body).length
    newStart := shownStart (newAt ops range.1) (newSide body).length
    newCount := (newSide body).length
    ops := body }

theorem linesBefore_shownStart (before count : Nat) :
    linesBefore (shownStart before count) count = before := by
  rw [linesBefore, shownStart]
  split <;> rfl

theorem oldIndex_hunkOf (ops : List (Op × Bytes)) (r : Nat × Nat) :
    (hunkOf ops r).oldIndex = oldAt ops r.1 :=
  linesBefore_shownStart _ _

theorem newIndex_hunkOf (ops : List (Op × Bytes)) (r : Nat × Nat) :
    (hunkOf ops r).newIndex = newAt ops r.1 :=
  linesBefore_shownStart _ _

theorem take_eq_append_slice (ops : List (Op × Bytes)) {s e : Nat} (h : s ≤ e) :
    ops.take e = ops.take s ++ slice ops s e := by
  rw [slice, ← List.take_add, Nat.add_sub_cancel' h]

theorem drop_eq_slice_append (ops : List (Op × Bytes)) {s e : Nat} (h : s ≤ e) :
    ops.drop s = slice ops s e ++ ops.drop e := by
  have hsplit := (List.take_append_drop (e - s) (ops.drop s)).symm
  rwa [List.drop_drop, Nat.add_sub_cancel' h] at hsplit

theorem oldAt_add (ops : List (Op × Bytes)) {s e : Nat} (h : s ≤ e) :
    oldAt ops e = oldAt ops s + (oldSide (slice ops s e)).length := by
  rw [oldAt, take_eq_append_slice ops h, oldSide_append, List.length_append]
  rfl

theorem newAt_add (ops : List (Op × Bytes)) {s e : Nat} (h : s ≤ e) :
    newAt ops e = newAt ops s + (newSide (slice ops s e)).length := by
  rw [newAt, take_eq_append_slice ops h, newSide_append, List.length_append]
  rfl

theorem drop_oldSide (ops : List (Op × Bytes)) (k : Nat) :
    (oldSide ops).drop (oldAt ops k) = oldSide (ops.drop k) := by
  conv_lhs => rw [← List.take_append_drop k ops, oldSide_append]
  exact List.drop_left' (by rw [List.take_append_drop]; rfl)

theorem drop_newSide (ops : List (Op × Bytes)) (k : Nat) :
    (newSide ops).drop (newAt ops k) = newSide (ops.drop k) := by
  conv_lhs => rw [← List.take_append_drop k ops, newSide_append]
  exact List.drop_left' (by rw [List.take_append_drop]; rfl)

/-- **A hunk's header gives the lines it covers.** -/
theorem covers_hunkOf (ops : List (Op × Bytes)) {r : Nat × Nat} (h : r.1 ≤ r.2) :
    (hunkOf ops r).Covers (oldSide ops) (newSide ops) := by
  refine ⟨?_, rfl, ?_, rfl⟩
  · rw [oldIndex_hunkOf, drop_oldSide, drop_eq_slice_append ops h, oldSide_append]
    exact List.take_left' rfl
  · rw [newIndex_hunkOf, drop_newSide, drop_eq_slice_append ops h, newSide_append]
    exact List.take_left' rfl

section
variable {ops : List (Op × Bytes)}

theorem Groups.le {t : Nat} {rs : List (Nat × Nat)} (h : Groups ops t rs) :
    ∀ r ∈ rs, r.1 ≤ r.2 := by
  induction h with
  | done _ => exact fun r hr => by cases hr
  | hunk _ _ hlt _ _ _ ih =>
      intro r hr
      rcases List.mem_cons.mp hr with rfl | hr
      · exact hlt.le
      · exact ih r hr

/-- The lines of a range that holds an equal line. -/
theorem exists_of_equalAt {k e : Nat} (hk : EqualAt ops k) (hke : k < e) (hlen : k < ops.length) :
    oldAt ops k < oldAt ops e ∧ newAt ops k < newAt ops e := by
  have hstep : oldAt ops (k + 1) = oldAt ops k + 1 ∧ newAt ops (k + 1) = newAt ops k + 1 := by
    have hone : slice ops k (k + 1) = [ops[k]] := by
      rw [slice, List.drop_eq_getElem_cons hlen, Nat.add_sub_cancel_left]
      rfl
    have hop := hk _ (List.getElem?_eq_getElem hlen)
    rw [oldAt_add ops (Nat.le_succ k), newAt_add ops (Nat.le_succ k), hone]
    generalize ops[k] = op at hop
    obtain ⟨o, l⟩ := op
    obtain rfl : o = .equal := hop
    exact ⟨rfl, rfl⟩
  have hold := oldAt_add ops (show k + 1 ≤ e from hke)
  have hnew := newAt_add ops (show k + 1 ≤ e from hke)
  omega

/-- Hunks behind a position stand behind the lines before it. -/
theorem Groups.after {t : Nat} {rs : List (Nat × Nat)} (h : Groups ops t rs) (ht : 0 < t) :
    ∀ r ∈ rs, oldAt ops t < oldAt ops r.1 ∧ newAt ops t < newAt ops r.1 := by
  induction h with
  | done _ => exact fun r hr => by cases hr
  | @hunk t s e rs hts hgap hse hlen hequal _ ih =>
      intro r hr
      have hlt : t < s := hgap.resolve_left (by omega)
      have hfirst := exists_of_equalAt (hequal t (le_refl t) hlt) hlt (by omega)
      rcases List.mem_cons.mp hr with rfl | hr
      · exact hfirst
      · have hrest := ih (by omega) r hr
        have hold := oldAt_add ops hse.le
        have hnew := newAt_add ops hse.le
        omega

/-- **The hunks are in order and disjoint.** -/
theorem Groups.before {t : Nat} {rs : List (Nat × Nat)} (h : Groups ops t rs) :
    (rs.map (hunkOf ops)).Pairwise Hunk.Before := by
  induction h with
  | done _ => exact List.Pairwise.nil
  | @hunk t s e rs _ _ hse _ _ hrest ih =>
      refine List.pairwise_cons.mpr ⟨fun k hk => ?_, ih⟩
      obtain ⟨r, hr, rfl⟩ := List.mem_map.mp hk
      have hafter := hrest.after (by omega) r hr
      have hold := oldAt_add ops hse.le
      have hnew := newAt_add ops hse.le
      rw [Hunk.Before, oldIndex_hunkOf, oldIndex_hunkOf, newIndex_hunkOf, newIndex_hunkOf]
      show oldAt ops s + (oldSide (slice ops s e)).length < _ ∧
        newAt ops s + (newSide (slice ops s e)).length < _
      omega

/-- **Applying the hunks turns the old side into the new.** -/
theorem Groups.applyHunks {t : Nat} {rs : List (Nat × Nat)} (h : Groups ops t rs) :
    applyHunks (oldAt ops t) (oldSide (ops.drop t)) (rs.map (hunkOf ops)) =
      some (newSide (ops.drop t)) := by
  induction h with
  | @done t hequal =>
      have hsides : oldSide (ops.drop t) = newSide (ops.drop t) := by
        refine sides_of_equal fun op hop => ?_
        obtain ⟨k, hk⟩ := List.mem_iff_getElem?.mp hop
        rw [List.getElem?_drop] at hk
        exact hequal (t + k) (Nat.le_add_right t k) op hk
      rw [← hsides]
      rfl
  | @hunk t s e rs hts _ hse hlen hequal _ ih =>
      -- the lines before the hunk are copied
      have hgap : oldSide (slice ops t s) = newSide (slice ops t s) := by
        refine sides_of_equal fun op hop => ?_
        obtain ⟨k, hk⟩ := List.mem_iff_getElem?.mp hop
        rw [slice, List.getElem?_take] at hk
        split at hk
        · rw [List.getElem?_drop] at hk
          exact hequal (t + k) (Nat.le_add_right t k) (by omega) op hk
        · cases hk
      have hpos := oldAt_add ops hts
      have hindex := oldIndex_hunkOf ops (s, e)
      have hskip : (hunkOf ops (s, e)).oldIndex - oldAt ops t =
          (oldSide (slice ops t s)).length := by
        rw [hindex]
        show oldAt ops s - oldAt ops t = _
        omega
      have hold : oldSide (ops.drop t) = oldSide (slice ops t s) ++ oldSide (ops.drop s) := by
        rw [← oldSide_append, ← drop_eq_slice_append ops hts]
      rw [List.map_cons, Diff.applyHunks, hskip, hold,
        if_pos ⟨by rw [hindex]; show oldAt ops t ≤ oldAt ops s; omega,
        by rw [List.length_append]; omega⟩, List.drop_left, List.take_left,
          drop_eq_slice_append ops hse.le,
        oldSide_append]
      have hbody : applyOps (hunkOf ops (s, e)).ops
        (oldSide (slice ops s e) ++ oldSide (ops.drop e)) =
          some (newSide (slice ops s e), oldSide (ops.drop e)) := applyOps_sides _ _
      have hend : (hunkOf ops (s, e)).oldIndex + (hunkOf ops (s, e)).oldCount = oldAt ops e := by
        rw [hindex, oldAt_add ops hse.le]
        rfl
      rw [hbody]
      simp only [hend, ih, Option.map_some]
      rw [drop_eq_slice_append ops hts, drop_eq_slice_append ops hse.le, newSide_append,
        newSide_append, hgap,
        List.append_assoc]

end

/-! ## Reading a patch -/

/-- What stands behind a line that has no newline. -/
def noNewline : Bytes := bytes "\\ No newline at end of file\n"

/-- The lines of a patch without the markers, and whether a marker comes first; the line
before a marker loses its newline. -/
def joinMarkers : List Bytes → Bool × List Bytes
  | [] => (false, [])
  | l :: ls =>
      let rest := joinMarkers ls
      if l = noNewline then (true, rest.2)
      else (false, (if rest.1 then l.dropLast else l) :: rest.2)

/-- Reads one side of a hunk header. -/
def readRange (s : Str) : Option (Nat × Nat) :=
  match splitOnce ',' s with
  | some (start, count) => do
      let start ← parseDigits start
      let count ← parseDigits count
      some (start, count)
  | none => (parseDigits s).map fun start => (start, 1)

/-- Reads the header of a hunk. -/
def readHeader (line : Bytes) : Option ((Nat × Nat) × Nat × Nat) := do
  let s ← fromUtf8 line
  let s ← stripPrefix? (str "@@ -") s
  let s ← stripSuffix? (str " @@\n") s
  let (old, new) ← splitOnce ' ' s
  let new ← stripPrefix? (str "+") new
  let old ← readRange old
  let new ← readRange new
  some (old, new)

/-- Reads operations until they cover the counts of the header. -/
def readOps (old new : Nat) : List Bytes → Option (List (Op × Bytes) × List Bytes)
  | [] => if old = 0 ∧ new = 0 then some ([], []) else none
  | line :: lines =>
      if old = 0 ∧ new = 0 then some ([], line :: lines)
      else
        match line with
        | [] => none
        | mark :: l =>
            if mark = 32 then
              if old = 0 ∨ new = 0 then none
              else (readOps (old - 1) (new - 1) lines).map fun r => ((.equal, l) :: r.1, r.2)
            else if mark = 45 then
              if old = 0 then none
              else (readOps (old - 1) new lines).map fun r => ((.delete, l) :: r.1, r.2)
            else if mark = 43 then
              if new = 0 then none
              else (readOps old (new - 1) lines).map fun r => ((.insert, l) :: r.1, r.2)
            else none

/-- Reads hunks until the lines end. -/
def readHunks : Nat → List Bytes → Option (List Hunk)
  | _, [] => some []
  | 0, _ => none
  | fuel + 1, line :: lines => do
      let (old, new) ← readHeader line
      let (ops, rest) ← readOps old.2 new.2 lines
      let hs ← readHunks fuel rest
      some (⟨old.1, old.2, new.1, new.2, ops⟩ :: hs)

/-- Reads the hunks of a patch of which the names of the two sides are known. -/
def readPatch (oldName newName : Str) (patch : Bytes) : Option (List Hunk) := do
  let body ← stripPrefix? (toUtf8 (unifiedHeader oldName newName)) patch
  let lines := (joinMarkers (splitLines body)).2
  readHunks lines.length lines

/-! ## Reading back what was written -/

theorem parse_hunkRange (start count : Nat) :
    readRange (hunkRange start count) = some (if count = 0 then start - 1 else start, count) := by
  have hcomma : ∀ n : Nat, ',' ∉ natStr n := by
    intro n h
    have hdigit := isDigit_natStr h
    revert hdigit
    decide
  have hpair : ∀ (a : Nat) (b : Str) (m : Nat), parseDigits b = some m →
      readRange (natStr a ++ ',' :: b) = some (a, m) := by
    intro a b m hb
    rw [readRange, splitOnce_eq_some.mpr ⟨rfl, hcomma a⟩]
    simp only [parseDigits_natStr, hb, Option.bind_eq_bind, Option.bind_some]
  match count with
  | 0 =>
      rw [if_pos rfl]
      exact hpair (start - 1) ['0'] 0 rfl
  | 1 =>
      rw [hunkRange, readRange, splitOnce_eq_none.mpr (hcomma start), parseDigits_natStr]
      rfl
  | n + 2 =>
      rw [if_neg (by omega)]
      exact hpair start (natStr (n + 2)) (n + 2) (parseDigits_natStr _)

/-- The header line of a hunk. -/
def headerText (old new : Nat × Nat) : Str :=
  str "@@ -" ++ hunkRange old.1 old.2 ++ str " +" ++ hunkRange new.1 new.2 ++ str " @@\n"

theorem hunkRange_plain {start count : Nat} {c : Char} (h : c ∈ hunkRange start count) :
    c.isDigit = true ∨ c = ',' := by
  have hdigit : ∀ {n : Nat}, c ∈ natStr n → c.isDigit = true ∨ c = ',' :=
    fun h => Or.inl (isDigit_natStr h)
  match count with
  | 0 =>
      rcases List.mem_append.mp h with h | h
      · exact hdigit h
      · rcases List.mem_cons.mp h with rfl | h
        · exact Or.inr rfl
        · rw [List.mem_singleton.mp h]
          exact Or.inl rfl
  | 1 => exact hdigit h
  | n + 2 =>
      rcases List.mem_append.mp h with h | h
      · exact hdigit h
      · rcases List.mem_cons.mp h with rfl | h
        · exact Or.inr rfl
        · exact hdigit h

theorem readHeader_headerText (old new : Nat × Nat) : readHeader (toUtf8 (headerText old new)) =
    some ((if old.2 = 0 then old.1 - 1 else old.1, old.2),
      (if new.2 = 0 then new.1 - 1 else new.1, new.2)) := by
  have hspace : ' ' ∉ hunkRange old.1 old.2 := by
    intro h
    rcases hunkRange_plain h with hd | hc
    · revert hd
      decide
    · revert hc
      decide
  have hprefix : stripPrefix? (str "@@ -") (headerText old new) =
      some (hunkRange old.1 old.2 ++ str " +" ++ hunkRange new.1 new.2 ++ str " @@\n") := by
    rw [stripPrefix?_eq_some, headerText]
    simp only [List.append_assoc]
  have hsuffix : stripSuffix? (str " @@\n")
      (hunkRange old.1 old.2 ++ str " +" ++ hunkRange new.1 new.2 ++ str " @@\n") =
      some (hunkRange old.1 old.2 ++ str " +" ++ hunkRange new.1 new.2) := by
    rw [stripSuffix?, List.reverse_append, stripPrefix?_eq_some.mpr rfl, Option.map_some,
      List.reverse_reverse]
  have hsplit : splitOnce ' ' (hunkRange old.1 old.2 ++ str " +" ++ hunkRange new.1 new.2) =
      some (hunkRange old.1 old.2, str "+" ++ hunkRange new.1 new.2) := by
    rw [splitOnce_eq_some]
    exact ⟨by rw [List.append_assoc]; rfl, hspace⟩
  rw [readHeader, fromUtf8_toUtf8]
  simp only [Option.bind_eq_bind, Option.bind_some, hprefix, hsuffix, hsplit,
    stripPrefix?_eq_some.mpr rfl,
    parse_hunkRange]

theorem terminated_headerText (old new : Nat × Nat) : Terminated (toUtf8 (headerText old new)) := by
  have hrange : ∀ start count : Nat, '\n' ∉ hunkRange start count := by
    intro start count h
    rcases hunkRange_plain h with hd | hc
    · revert hd
      decide
    · revert hc
      decide
  have hplain : '\n' ∉ str "@@ -" ++ hunkRange old.1 old.2 ++ str " +" ++ hunkRange new.1 new.2 ++
      str " @@" := by
    intro h
    simp only [List.mem_append] at h
    rcases h with (((h | h) | h) | h) | h
    · exact absurd h (by decide)
    · exact hrange _ _ h
    · exact absurd h (by decide)
    · exact hrange _ _ h
    · exact absurd h (by decide)
  refine ⟨toUtf8 (str "@@ -" ++ hunkRange old.1 old.2 ++ str " +" ++
    hunkRange new.1 new.2 ++ str " @@"),
    fun hin => hplain ((ascii_mem_toUtf8 (by decide)).mp hin), ?_⟩
  rw [headerText, show str " @@\n" = str " @@" ++ ['\n'] from rfl, ← List.append_assoc,
    toUtf8_append]
  rfl

/-- The byte that marks an operation. -/
def Op.byte : Op → UInt8
  | .equal => 32
  | .delete => 45
  | .insert => 43

/-- Operations are read until both sides are covered. -/
theorem readOps_ops (ops : List (Op × Bytes)) (rest : List Bytes) :
    readOps (oldSide ops).length (newSide ops).length
      (ops.map (fun op => op.1.byte :: op.2) ++ rest) =
      some (ops, rest) := by
  induction ops with
  | nil => cases rest <;> rfl
  | cons op ops ih =>
      obtain ⟨o, l⟩ := op
      cases o with
      | equal =>
          show readOps ((oldSide ops).length + 1) ((newSide ops).length + 1) ((32 :: l) :: _) = _
          rw [readOps, if_neg (by omega)]
          simp only [if_true,
            if_neg (show ¬ ((oldSide ops).length + 1 = 0 ∨ (newSide ops).length + 1 = 0) by omega),
            Nat.add_sub_cancel]
          rw [show (List.map _ ops).append rest = List.map (fun op => op.1.byte :: op.2) ops ++
            rest from rfl, ih]
          rfl
      | delete =>
          show readOps ((oldSide ops).length + 1) (newSide ops).length ((45 :: l) :: _) = _
          rw [readOps, if_neg (by omega)]
          simp only [if_neg (show ¬ ((45 : UInt8) = 32) by decide), if_true,
            if_neg (show ¬ ((oldSide ops).length + 1 = 0) by omega), Nat.add_sub_cancel]
          rw [show (List.map _ ops).append rest = List.map (fun op => op.1.byte :: op.2) ops ++
            rest from rfl, ih]
          rfl
      | insert =>
          show readOps (oldSide ops).length ((newSide ops).length + 1) ((43 :: l) :: _) = _
          rw [readOps, if_neg (by omega)]
          simp only [if_neg (show ¬ ((43 : UInt8) = 32) by decide),
            if_neg (show ¬ ((43 : UInt8) = 45) by decide),
            if_true, if_neg (show ¬ ((newSide ops).length + 1 = 0) by omega), Nat.add_sub_cancel]
          rw [show (List.map _ ops).append rest = List.map (fun op => op.1.byte :: op.2) ops ++
            rest from rfl, ih]
          rfl

/-! ## The text of a diff -/

/-- A line of a buffer, whole or the last one. -/
def IsLine (l : Bytes) : Prop := Terminated l ∨ Unterminated l

theorem Lines.isLine {ls : List Bytes} (h : Lines ls) : ∀ l ∈ ls, IsLine l := by
  intro l hl
  rcases h.all_or_last with hall | ⟨xs, last, rfl, hxs, hlast⟩
  · exact Or.inl (hall l hl)
  · rcases List.mem_append.mp hl with hl | hl
    · exact Or.inl (hxs l hl)
    · rw [List.mem_singleton.mp hl]
      exact Or.inr hlast

/-- The lines of a text are texts. -/
theorem utf8_splitLines (s : Str) : ∀ l ∈ splitLines (toUtf8 s), ∃ t, l = toUtf8 t := by
  have hgo : ∀ (s t : Str), ∀ l ∈ splitLinesGo (toUtf8 t).reverse (toUtf8 s), ∃ t,
      l = toUtf8 t := by
    intro s
    induction s with
    | nil =>
        intro t l hl
        rw [toUtf8_nil, splitLinesGo] at hl
        split at hl
        · cases hl
        · rw [List.reverse_reverse] at hl
          exact ⟨t, List.mem_singleton.mp hl⟩
    | cons c s ih =>
        intro t l hl
        rw [toUtf8_cons] at hl
        by_cases hc : c = '\n'
        · rw [hc, show utf8Char '\n' = [10] from rfl, List.singleton_append, splitLinesGo,
            if_pos rfl] at hl
          rcases List.mem_cons.mp hl with rfl | hl
          · refine ⟨t ++ ['\n'], ?_⟩
            rw [List.reverse_cons, List.reverse_reverse, toUtf8_append]
            rfl
          · exact ih [] l hl
        · have hnot : (10 : UInt8) ∉ utf8Char c := by
            intro hin
            exact hc ((ascii_mem_utf8Char (by decide)).mp hin)
          rw [splitLinesGo_append hnot, ← List.reverse_append] at hl
          refine ih (t ++ [c]) l ?_
          rw [toUtf8_append]
          simpa using hl
  exact hgo s []

/-- The lines the text of an operation consists of. -/
def opLines (op : Op × Bytes) : List Bytes :=
  if op.2.getLast? = some 10 then [op.1.byte :: op.2] else [op.1.byte :: op.2 ++ [10], noNewline]

theorem utf8_mark (o : Op) (s : Str) : toUtf8 (o.mark :: s) = o.byte :: toUtf8 s := by
  cases o <;> rfl

theorem toUtf8_opText {op : Op × Bytes} (h : ∃ t, op.2 = toUtf8 t) :
    toUtf8 (opText op) = (opLines op).flatten := by
  obtain ⟨o, l⟩ := op
  obtain ⟨t, ht⟩ := h
  obtain rfl : l = toUtf8 t := ht
  rw [opText, opLines]
  simp only [fromUtf8Lossy_toUtf8]
  split
  · rw [List.append_nil, utf8_mark]
    simp
  · rw [List.cons_append, utf8_mark, toUtf8_append]
    simp only [List.flatten_cons, List.flatten_nil, List.append_nil, List.cons_append,
      List.append_assoc]
    rfl

theorem terminated_noNewline : Terminated noNewline :=
  ⟨bytes "\\ No newline at end of file", by decide, rfl⟩

theorem terminated_opLines {op : Op × Bytes} (h : IsLine op.2) :
    ∀ l ∈ opLines op, Terminated l := by
  have hbyte : (10 : UInt8) ≠ op.1.byte := by
    cases op.1 <;> decide
  have hcons : ∀ {s : Bytes}, 10 ∉ s → 10 ∉ op.1.byte :: s := by
    intro s hs hin
    rcases List.mem_cons.mp hin with heq | hin
    · exact hbyte heq
    · exact hs hin
  intro l hl
  rw [opLines] at hl
  rcases h with ⟨s, hs, hop⟩ | hop
  · rw [hop, List.getLast?_concat, if_pos rfl] at hl
    rw [List.mem_singleton.mp hl]
    exact ⟨op.1.byte :: s, hcons hs, rfl⟩
  · obtain ⟨b, hb, hne⟩ := hop.lacksNewline
    rw [hb, if_neg (by simpa using hne)] at hl
    rcases List.mem_cons.mp hl with rfl | hl
    · exact ⟨op.1.byte :: op.2, hcons hop.2, rfl⟩
    · rw [List.mem_singleton.mp hl]
      exact terminated_noNewline

theorem ne_noNewline {c : UInt8} (h : c ≠ 92) (s : Bytes) : c :: s ≠ noNewline := by
  have hmarker : noNewline.head? = some 92 := by decide
  intro heq
  have hhead := congrArg List.head? heq
  rw [hmarker, List.head?_cons] at hhead
  exact h (Option.some.inj hhead)

theorem joinMarkers_cons {l : Bytes} (h : l ≠ noNewline) (ls : List Bytes) : joinMarkers (l :: ls) =
    (false, (if (joinMarkers ls).1 then l.dropLast else l) :: (joinMarkers ls).2) := by
  rw [joinMarkers]
  exact if_neg h

theorem joinMarkers_noNewline (ls : List Bytes) :
    joinMarkers (noNewline :: ls) = (true, (joinMarkers ls).2) := by
  rw [joinMarkers]
  exact if_pos rfl

/-- The lines of an operation without the marker. -/
theorem joinMarkers_opLines {op : Op × Bytes} (h : IsLine op.2) {ls : List Bytes}
    (hls : (joinMarkers ls).1 = false) :
    joinMarkers (opLines op ++ ls) = (false, (op.1.byte :: op.2) :: (joinMarkers ls).2) := by
  have hbyte : op.1.byte ≠ 92 := by
    cases op.1 <;> decide
  rw [opLines]
  rcases h with hop | hop
  · rw [hop.getLast?, if_pos rfl, List.singleton_append,
      joinMarkers_cons (ne_noNewline hbyte _), hls]
    rfl
  · obtain ⟨b, hb, hlast⟩ := hop.lacksNewline
    rw [hb, if_neg (by simpa using hlast)]
    show joinMarkers ((op.1.byte :: (op.2 ++ [10])) :: noNewline :: ls) = _
    rw [joinMarkers_cons (ne_noNewline hbyte _), joinMarkers_noNewline, if_pos rfl,
      ← List.cons_append,
      List.dropLast_concat]

section
variable {ops : List (Op × Bytes)}

/-- The header line of the hunk over a range. -/
def rangeHeader (ops : List (Op × Bytes)) (r : Nat × Nat) : Bytes :=
  toUtf8 (headerText (1 + oldAt ops r.1, (oldSide (slice ops r.1 r.2)).length)
    (1 + newAt ops r.1, (newSide (slice ops r.1 r.2)).length))

/-- The lines the text of a hunk consists of. -/
def rangeLines (ops : List (Op × Bytes)) (r : Nat × Nat) : List Bytes :=
  rangeHeader ops r :: (slice ops r.1 r.2).flatMap opLines

theorem mem_slice {op : Op × Bytes} {s e : Nat} (h : op ∈ slice ops s e) : op ∈ ops :=
  List.mem_of_mem_drop (List.mem_of_mem_take h)

theorem toUtf8_hunkText (h : ∀ op ∈ ops, ∃ t, op.2 = toUtf8 t) (r : Nat × Nat) :
    toUtf8 (hunkText ops r) = (rangeLines ops r).flatten := by
  have hbody : ∀ body : List (Op × Bytes), (∀ op ∈ body, ∃ t, op.2 = toUtf8 t) →
      toUtf8 (body.flatMap opText) = (body.flatMap opLines).flatten := by
    intro body
    induction body with
    | nil => exact fun _ => rfl
    | cons op body ih =>
        intro hbody
        rw [List.flatMap_cons, List.flatMap_cons, toUtf8_append, List.flatten_append,
          toUtf8_opText (hbody op List.mem_cons_self), ih fun x hx =>
            hbody x (List.mem_cons_of_mem op hx)]
  rw [rangeLines, List.flatten_cons, ← hbody _ fun op hop => h op (mem_slice hop), rangeHeader,
    ← toUtf8_append,
    hunkText, foldl_tally, foldl_tally]
  simp only [Nat.zero_add]
  rfl

theorem head_rangeHeader (r : Nat × Nat) : ∃ s, rangeHeader ops r = 64 :: s := ⟨_, rfl⟩

/-- The lines of the hunks without the markers. -/
theorem joinMarkers_rangeLines (hline : ∀ op ∈ ops, IsLine op.2) (rs : List (Nat × Nat)) :
    joinMarkers (rs.flatMap (rangeLines ops)) = (false, rs.flatMap fun r =>
      rangeHeader ops r :: (slice ops r.1 r.2).map fun op => op.1.byte :: op.2) := by
  have hbody : ∀ (body : List (Op × Bytes)) (ls : List Bytes), (∀ op ∈ body, IsLine op.2) →
      (joinMarkers ls).1 = false → joinMarkers (body.flatMap opLines ++ ls) =
        (false, body.map (fun op => op.1.byte :: op.2) ++ (joinMarkers ls).2) := by
    intro body ls
    induction body with
    | nil =>
        intro _ hls
        rw [← hls]
        rfl
    | cons op body ih =>
        intro hbody hls
        have hrest := ih (fun x hx => hbody x (List.mem_cons_of_mem op hx)) hls
        rw [List.flatMap_cons, List.append_assoc, joinMarkers_opLines (hbody op List.mem_cons_self)
          (by rw [hrest]), hrest]
        rfl
  induction rs with
  | nil => rfl
  | cons r rs ih =>
      have hslice := hbody (slice ops r.1 r.2) (rs.flatMap (rangeLines ops))
        (fun op hop => hline op (mem_slice hop)) (by rw [ih])
      obtain ⟨s, hs⟩ := @head_rangeHeader ops r
      have hne : rangeHeader ops r ≠ noNewline := by
        rw [hs]
        exact ne_noNewline (by decide) s
      rw [List.flatMap_cons, List.flatMap_cons, rangeLines, List.cons_append,
        joinMarkers_cons hne, hslice, ih]
      rfl

/-- **The hunks are read back.** -/
theorem readHunks_rangeLines (rs : List (Nat × Nat)) : ∀ {fuel : Nat}, rs.length ≤ fuel →
    readHunks fuel (rs.flatMap fun r => rangeHeader ops r ::
      (slice ops r.1 r.2).map fun op => op.1.byte :: op.2) = some (rs.map (hunkOf ops)) := by
  induction rs with
  | nil => intro fuel _; cases fuel <;> rfl
  | cons r rs ih =>
      intro fuel hfuel
      cases fuel with
      | zero => exact absurd hfuel (by simp)
      | succ fuel =>
          have hrest := ih (Nat.le_of_succ_le_succ hfuel)
          rw [List.flatMap_cons, List.cons_append, readHunks, rangeHeader, readHeader_headerText]
          simp only [Option.bind_eq_bind, Option.bind_some, readOps_ops, hrest]
          have hshown : ∀ before count : Nat,
              (if count = 0 then 1 + before - 1 else 1 + before) = shownStart before count := by
            intro before count
            rw [shownStart, Nat.add_sub_cancel_left, Nat.add_comm]
          rw [List.map_cons, hunkOf, hshown, hshown]

theorem Script.mem_or {old new : List Bytes} (h : Script old new ops) :
    ∀ op ∈ ops, op.2 ∈ old ∨ op.2 ∈ new := by
  obtain ⟨rfl, rfl⟩ := h.sides
  intro op hop
  obtain ⟨o, l⟩ := op
  cases o with
  | insert => exact Or.inr (List.mem_map.mpr ⟨(.insert, l), List.mem_filter.mpr ⟨hop, rfl⟩, rfl⟩)
  | equal => exact Or.inl (List.mem_map.mpr ⟨(.equal, l), List.mem_filter.mpr ⟨hop, rfl⟩, rfl⟩)
  | delete => exact Or.inl (List.mem_map.mpr ⟨(.delete, l), List.mem_filter.mpr ⟨hop, rfl⟩, rfl⟩)

/-- **A diff is read back** as the hunks of the script. -/
theorem readPatch_unified {old new : Str} (hne : toUtf8 old ≠ toUtf8 new) (oldName newName : Str)
    (context : Nat) (hops : lineOps (splitLines (toUtf8 old)) (splitLines (toUtf8 new)) = ops) :
    readPatch oldName newName (toUtf8 (unified (toUtf8 old) (toUtf8 new) oldName newName context)) =
      some ((hunkRanges context ops).map (hunkOf ops)) := by
  have hscript : Script (splitLines (toUtf8 old)) (splitLines (toUtf8 new)) ops := by
    rw [← hops]
    exact script_lineOpsGo _ _ _ _
  have hutf8 : ∀ op ∈ ops, ∃ t, op.2 = toUtf8 t := by
    intro op hop
    rcases hscript.mem_or op hop with hmem | hmem
    · exact utf8_splitLines old _ hmem
    · exact utf8_splitLines new _ hmem
  have hline : ∀ op ∈ ops, IsLine op.2 := by
    intro op hop
    rcases hscript.mem_or op hop with hmem | hmem
    · exact (lines_splitLines _).isLine _ hmem
    · exact (lines_splitLines _).isLine _ hmem
  have htext : ∀ rs : List (Nat × Nat), toUtf8 (rs.flatMap (hunkText ops)) =
      (rs.flatMap (rangeLines ops)).flatten := by
    intro rs
    induction rs with
    | nil => rfl
    | cons r rs ih =>
        rw [List.flatMap_cons, List.flatMap_cons, toUtf8_append, List.flatten_append,
          toUtf8_hunkText hutf8, ih]
  have hlines : Lines ((hunkRanges context ops).flatMap (rangeLines ops)) := by
    rw [← List.append_nil (List.flatMap _ _)]
    refine Lines.append (fun l hl => ?_) trivial
    obtain ⟨r, -, hl⟩ := List.mem_flatMap.mp hl
    rcases List.mem_cons.mp hl with rfl | hl
    · exact terminated_headerText _ _
    · obtain ⟨op, hop, hl⟩ := List.mem_flatMap.mp hl
      exact terminated_opLines (hline op (mem_slice hop)) l hl
  have hcount : ∀ rs : List (Nat × Nat), rs.length ≤ (rs.flatMap fun r =>
      rangeHeader ops r :: (slice ops r.1 r.2).map fun op => op.1.byte :: op.2).length := by
    intro rs
    induction rs with
    | nil => exact Nat.le_refl 0
    | cons r rs ih =>
        rw [List.flatMap_cons, List.length_append, List.length_cons, List.length_cons]
        omega
  rw [readPatch, unified, if_neg hne]
  simp only [hops, toUtf8_append, htext, stripPrefix?_eq_some.mpr rfl, Option.bind_eq_bind,
    Option.bind_some,
    splitLines_flatten hlines, joinMarkers_rangeLines hline]
  exact readHunks_rangeLines _ (hcount _)

end

/-- **A unified diff is a correct patch.**  It is read back as hunks in order that do not
overlap and whose headers give the lines they cover; applied to the old lines they give
the new buffer; and the script it shows carries as many lines as any can. -/
theorem unified_patch {old new : Bytes} (hold : (fromUtf8 old).isSome = true)
    (hnew : (fromUtf8 new).isSome = true) (hne : old ≠ new) (oldName newName : Str)
    (context : Nat) :
    ∃ hs, readPatch oldName newName (toUtf8 (unified old new oldName newName context)) = some hs ∧
      hs.Pairwise Hunk.Before ∧ (∀ h ∈ hs, h.Covers (splitLines old) (splitLines new)) ∧
      (applyHunks 0 (splitLines old) hs).map List.flatten = some new ∧
      IsLcsLength (splitLines old) (splitLines new)
        (equalCount (lineOps (splitLines old) (splitLines new))) := by
  obtain ⟨s, hs⟩ := Option.isSome_iff_exists.mp hold
  obtain ⟨t, ht⟩ := Option.isSome_iff_exists.mp hnew
  obtain rfl := toUtf8_of_fromUtf8 hs
  obtain rfl := toUtf8_of_fromUtf8 ht
  have hsides := (script_lineOpsGo (lcsTable (splitLines (toUtf8 s)) (splitLines (toUtf8 t))) 0
    (splitLines (toUtf8 s)) (splitLines (toUtf8 t))).sides
  rw [← lineOps] at hsides
  have hgroups := groups_hunkRanges context
    (lineOps (splitLines (toUtf8 s)) (splitLines (toUtf8 t)))
  refine ⟨_, readPatch_unified hne oldName newName context rfl, hgroups.before, fun h hh => ?_, ?_,
    equalCount_lineOps _ _⟩
  · obtain ⟨r, hr, rfl⟩ := List.mem_map.mp hh
    have hcovers := covers_hunkOf (lineOps (splitLines (toUtf8 s)) (splitLines (toUtf8 t)))
      (hgroups.le r hr)
    rwa [hsides.1, hsides.2] at hcovers
  · have happly := hgroups.applyHunks
    rw [List.drop_zero, hsides.1, hsides.2] at happly
    rw [show oldAt _ 0 = 0 from rfl] at happly
    rw [happly, Option.map_some, flatten_splitLines]

/-- A change in the middle, and a last line that loses its newline. -/
theorem unified_patch_sample : ∃ hs, readPatch (str "a") (str "b")
      (toUtf8 (unified (bytes "one\ntwo\nthree\n") (bytes "one\nTWO\nthree") (str "a")
        (str "b") 0)) = some hs ∧
    hs.Pairwise Hunk.Before ∧
    (applyHunks 0 (splitLines (bytes "one\ntwo\nthree\n")) hs).map List.flatten =
      some (bytes "one\nTWO\nthree") := by
  obtain ⟨hs, hread, hbefore, -, happly, -⟩ := @unified_patch (bytes "one\ntwo\nthree\n")
    (bytes "one\nTWO\nthree") (by decide) (by decide) (by decide)
      (str "a") (str "b") 0
  exact ⟨hs, hread, hbefore, happly⟩

example : unified (bytes "one\ntwo\nthree\n") (bytes "one\nTWO\nthree\n") (str "a") (str "b") 0 =
    str "--- a\n+++ b\n@@ -2 +2 @@\n-two\n+TWO\n" := by decide +kernel

end Puregit.Diff
