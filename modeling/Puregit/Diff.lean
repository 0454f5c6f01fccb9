import Puregit.Lib.BTree
import Puregit.Lib.Text

/-! # Line diffs and the three-way line merge

`lineOps` compares two lists of lines by the table of longest common subsequences:
entry `(i, j)` of the table is the length of one of `old[i..]` and `new[j..]`, and the
walk deletes when that loses nothing against inserting.  `merge3` cuts the base and the
two sides at the lines unchanged on both sides and resolves each region between cuts.
-/
namespace Puregit.Diff

/-- A line-level edit operation. -/
inductive Op where
  | equal
  | delete
  | insert
  deriving DecidableEq, Repr

/-- The lines of a buffer, each with its newline; `acc` is the line so far, last byte
first. -/
def splitLinesGo (acc : Bytes) : Bytes → List Bytes
  | [] => if acc.isEmpty then [] else [acc.reverse]
  | b :: r => if b = 10 then (b :: acc).reverse :: splitLinesGo [] r else splitLinesGo (b :: acc) r

/-- The lines of a buffer, each with its newline. -/
def splitLines (data : Bytes) : List Bytes := splitLinesGo [] data

/-- The row of the table for the line `a`, from the row below it. -/
def lcsRow (a : Bytes) : List Bytes → List Nat → List Nat
  | [], _ => [0]
  | b :: bs, below =>
      let rest := lcsRow a bs below.tail
      (if a = b then below.tail.headD 0 + 1 else max (below.headD 0) (rest.headD 0)) :: rest

/-- The rows of the table, the last one all zeros. -/
def lcsTable : List Bytes → List Bytes → List (List Nat)
  | [], new => [List.replicate (new.length + 1) 0]
  | a :: old, new =>
      let rows := lcsTable old new
      lcsRow a new (rows.headD []) :: rows

/-- The edit script from line `j` of the new side on; `rows` are the rows of the table
from the current old line on. -/
def lineOpsGo (rows : List (List Nat)) (j : Nat) : List Bytes → List Bytes → List (Op × Bytes)
  | [], new => new.map fun b => (.insert, b)
  | old, [] => old.map fun a => (.delete, a)
  | a :: old, b :: new =>
      if a = b then (.equal, a) :: lineOpsGo rows.tail (j + 1) old new
      else if (rows.tail.headD []).getD j 0 ≥ (rows.headD []).getD (j + 1) 0 then
        (.delete, a) :: lineOpsGo rows.tail j old (b :: new)
      else (.insert, b) :: lineOpsGo rows (j + 1) (a :: old) new
termination_by old new => old.length + new.length

/-- The line-level edit script between two lists of lines. -/
def lineOps (old new : List Bytes) : List (Op × Bytes) :=
  lineOpsGo (lcsTable old new) 0 old new

/-- The index pairs of the equal lines of an edit script. -/
def matchesGo (bi oi : Nat) : List (Op × Bytes) → List (Nat × Nat)
  | [] => []
  | (.equal, _) :: ops => (bi, oi) :: matchesGo (bi + 1) (oi + 1) ops
  | (.delete, _) :: ops => matchesGo (bi + 1) oi ops
  | (.insert, _) :: ops => matchesGo bi (oi + 1) ops

/-- The index pairs of the lines unchanged between the base and another side. -/
def lineMatches (base other : List Bytes) : List (Nat × Nat) := matchesGo 0 0 (lineOps base other)

/-- The result of a three-way line merge. -/
structure Merge3 where
  merged : Bytes
  conflicted : Bool
  deriving DecidableEq

/-- The lines at positions `i` up to `j`. -/
def region (ls : List Bytes) (i j : Nat) : List Bytes := (ls.drop i).take (j - i)

/-- Resolves one region between cuts. -/
def mergeRegion (base ours theirs : List Bytes) : Merge3 :=
  if ours = theirs then ⟨ours.flatten, false⟩
  else if ours = base then ⟨theirs.flatten, false⟩
  else if theirs = base then ⟨ours.flatten, false⟩
  else ⟨bytes "<<<<<<< ours\n" ++ ours.flatten ++ bytes "=======\n" ++ theirs.flatten
    ++ bytes ">>>>>>> theirs\n", true⟩

/-- Merges region by region; `pb`, `po`, `pt` are the positions after the last cut. -/
def merge3Go (base ours theirs : List Bytes) (pb po pt : Nat) :
    List (Nat × Nat × Nat) → Merge3
  | [] => ⟨[], false⟩
  | (bi, oi, ti) :: anchors =>
      let r := mergeRegion (region base pb bi) (region ours po oi) (region theirs pt ti)
      let rest := merge3Go base ours theirs (bi + 1) (oi + 1) (ti + 1) anchors
      -- the cut itself is a line but at the end of the base
      ⟨r.merged ++ base.getD bi [] ++ rest.merged, r.conflicted || rest.conflicted⟩

/-- The cuts: base lines unchanged on both sides, and the ends of all three. -/
def anchors (base ours theirs : List Bytes) : List (Nat × Nat × Nat) :=
  let oursOf := BTreeMap.ofList (lineMatches base ours)
  let theirsOf := BTreeMap.ofList (lineMatches base theirs)
  oursOf.toList.filterMap (fun b => (theirsOf.get? b.1).map fun ti => (b.1, b.2, ti))
    ++ [(base.length, ours.length, theirs.length)]

/-- The three-way line merge of two sides against their base. -/
def merge3 (base ours theirs : Bytes) : Merge3 :=
  let baseL := splitLines base
  let oursL := splitLines ours
  let theirsL := splitLines theirs
  merge3Go baseL oursL theirsL 0 0 0 (anchors baseL oursL theirsL)

end Puregit.Diff
