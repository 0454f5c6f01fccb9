import Mathlib.Data.Bool.AllAny
import Puregit.Glob
import Puregit.Lib.LastWord

/-! # Which files are large

The attributes file of a work tree says which paths are kept as large files, by the attribute
`filter=lfs`.  A line has a pattern and attributes; the last line that matches a path and mentions
the filter decides.

The code compiles the lines that it takes for a setting, and matches whole paths by a loop that does
not stop at a `/`; it knows some of the words that mention the filter.  `isLfs_iff` says when that
comes to what the rule says: of the last line that concerns the path it matters whether its pattern
fits, whether its wildcards also fit across the slashes, and which of its words comes last.
`taken_eq_rule` names lines that are read as they say.
-/
namespace Puregit

/-- A line: a pattern and attributes. -/
structure AttributesLine where
  pattern : Str
  attrs : List Str
  deriving DecidableEq

namespace AttributesLine

/-- Takes a line apart; blank lines and comments have no pattern. -/
def ofLine (line : Str) : Option AttributesLine :=
  let line := trim line
  if line = [] ∨ startsWith line ['#'] then none
  else match splitWhitespace line with
    | [] => none
    | pattern :: parts => some ⟨pattern, parts⟩

/-- What a line is taken for: the last of its attributes that is known decides. -/
def lfs (l : AttributesLine) : Option Bool :=
  l.attrs.foldl (fun lfs attr =>
    if attr = str "filter=lfs" then some true
    else if attr = str "-filter" ∨ attr = str "filter=" ∨ attr = str "!filter" then some false
    else lfs) none

end AttributesLine

/-- The rules of an attributes file, in its order. -/
structure Attributes where
  rules : List (Str × Bool)

/-- Matches a pattern against a path. -/
def patternMatches (pattern path : Str) : Bool :=
  let anchored := pattern.contains '/'
  let pat := (stripPrefix? ['/'] pattern).getD pattern
  if anchored then Attributes.globMatch (toUtf8 pat) (toUtf8 path)
  else
    let base := ((path.splitOn '/').getLast?).getD path
    Attributes.globMatch (toUtf8 pat) (toUtf8 base)

namespace Attributes

/-- Compiles a file. -/
def parse (text : Str) : Attributes :=
  ⟨(lines text).filterMap fun line => do
    let l ← AttributesLine.ofLine line
    let isLfs ← l.lfs
    some (l.pattern, isLfs)⟩

/-- Whether a path is kept as a large file: the last rule that matches decides. -/
def isLfs (a : Attributes) (path : Bytes) : Bool :=
  let path := (fromUtf8 path).getD []
  a.rules.foldl (fun tracked r => if patternMatches r.1 path then r.2 else tracked) false

end Attributes

/-! ## The rule -/

/-- What an attribute says of the filter, if it mentions it: only `filter=lfs` tracks. -/
def filterMention (attr : Str) : Option Bool :=
  if attr = str "filter" ∨ attr = str "-filter" ∨ attr = str "!filter" ∨
    startsWith attr (str "filter=") then
    some (attr = str "filter=lfs")
  else none

/-- What a word that the code knows says of the filter. -/
def knownWord (attr : Str) : Option Bool :=
  if attr = str "filter=lfs" then some true
  else if attr = str "-filter" ∨ attr = str "filter=" ∨ attr = str "!filter" then some false
  else none

/-- The last of some words that says anything sets this. -/
def Sets (said : Str → Option Bool) (attrs : List Str) (b : Bool) : Prop :=
  ∃ front attr back, attrs = front ++ attr :: back ∧ said attr = some b ∧
    ∀ attr' ∈ back, said attr' = none

/-- The last mention of the filter is a word that the code does not know. -/
def Unheard (attrs : List Str) : Prop :=
  ∃ front attr back, attrs = front ++ attr :: back ∧
    (filterMention attr ≠ none ∧ knownWord attr = none) ∧
    ∀ attr' ∈ back, filterMention attr' = none

namespace AttributesLine

/-- The last mention of the filter in a line. -/
def filter (l : AttributesLine) : Option Bool := (l.attrs.filterMap filterMention).getLast?

/-- A component fits a token, in which `*` is any run of bytes and `?` any byte. -/
def tokenFits (tok comp : Str) : Bool := decide (SegFits (toUtf8 tok) (toUtf8 comp))

/-- The components of a path fit the tokens of a pattern.  `**` is any number of directories; at the
end it is all that is in a directory, so it takes the last component too. -/
def PathFits (toks comps : List Str) : Prop :=
  Wildcard.Spans (· == str "**") tokenFits toks
    (if toks.getLast? = some (str "**") then comps.dropLast else comps)

instance (toks comps : List Str) : Decidable (PathFits toks comps) :=
  inferInstanceAs (Decidable (Wildcard.Spans _ _ _ _))

/-- A line applies to a path: a pattern without a slash to the last component in any directory, one
with a slash to the whole path. -/
def Fits (l : AttributesLine) (path : Str) : Prop :=
  if '/' ∈ l.pattern then PathFits (((stripPrefix? ['/'] l.pattern).getD l.pattern).splitOn '/')
    (path.splitOn '/')
  else tokenFits l.pattern (((path.splitOn '/').getLast?).getD path) = true

instance (l : AttributesLine) (path : Str) : Decidable (l.Fits path) := by
  delta Fits
  infer_instance

/-- A line fits a path across its slashes: a wildcard takes a `/` like any other byte, in the whole
path if the pattern has a slash and in the last component if not. -/
def Across (l : AttributesLine) (path : Str) : Prop :=
  DenotesStars (toUtf8 ((stripPrefix? ['/'] l.pattern).getD l.pattern))
    (toUtf8 (if '/' ∈ l.pattern then path else ((path.splitOn '/').getLast?).getD path))

/-- What the code takes a line for, for a path. -/
def taken (path : Str) (l : AttributesLine) : Option Bool :=
  if patternMatches l.pattern path then l.lfs else none

/-- What a line says of a path. -/
def rule (path : Str) (l : AttributesLine) : Option Bool := if l.Fits path then l.filter else none

end AttributesLine

/-- The lines of a file. -/
def attributesLines (text : Str) : List AttributesLine :=
  (lines text).filterMap AttributesLine.ofLine

/-- **A path is to be kept as a large file**: the last line that applies to it and mentions the
filter sets it to `lfs`. -/
def Tracked (ls : List AttributesLine) (path : Str) : Prop :=
  ∃ front l back, ls = front ++ l :: back ∧ (l.Fits path ∧ l.filter = some true) ∧
    ∀ l' ∈ back, ¬(l'.Fits path ∧ l'.filter ≠ none)

/-- The last line that fits the path across its slashes and has a word that the code knows sets it
to `lfs`. -/
def TrackedAcross (ls : List AttributesLine) (path : Str) : Prop :=
  ∃ front l back, ls = front ++ l :: back ∧ (l.Across path ∧ Sets knownWord l.attrs true) ∧
    ∀ l' ∈ back, ¬(l'.Across path ∧ ∃ b, Sets knownWord l'.attrs b)

namespace AttributesLine

/-- A line concerns a path: it fits and mentions the filter, or fits across the slashes and does so
by a word that the code knows. -/
def Concerns (path : Str) (l : AttributesLine) : Prop :=
  l.Across path ∧ (∃ b, Sets knownWord l.attrs b) ∨ l.Fits path ∧ ∃ b, Sets filterMention l.attrs b

/-- A line settles a path, with the lines before it. -/
structure Settles (front : List AttributesLine) (l : AttributesLine) (path : Str) : Prop where
  /-- It fits both ways and ends in a word that the code does not know: the words before do not set
  `lfs`, and neither do the lines before if there is no word. -/
  unheard : l.Across path → l.Fits path → Unheard l.attrs →
    ¬Sets knownWord l.attrs true ∧ ((∀ b, ¬Sets knownWord l.attrs b) → ¬TrackedAcross front path)
  /-- It fits only across the slashes: the lines before say the same. -/
  overrun : l.Across path → ¬l.Fits path → ∀ b, Sets knownWord l.attrs b →
    (b = true ↔ Tracked front path)
  /-- It does not fit across the slashes: the lines before do, and say the same. -/
  missed : l.Fits path → ¬l.Across path → ∀ b, Sets filterMention l.attrs b →
    (b = true ↔ TrackedAcross front path)

end AttributesLine

/-- The last line that concerns a path settles it. -/
def ReadRight (ls : List AttributesLine) (path : Str) : Prop :=
  ∀ front l back, ls = front ++ l :: back → l.Concerns path → (∀ l' ∈ back, ¬l'.Concerns path) →
    l.Settles front path

/-! ## Words -/

section Words
variable {said : Str → Option Bool} {attrs : List Str} {b : Bool}

theorem sets_iff : Sets said attrs b ↔ (attrs.filterMap said).getLast? = some b := by
  constructor
  · rintro ⟨front, attr, back, rfl, hattr, hback⟩
    rw [List.filterMap_append, List.filterMap_cons_some hattr, List.filterMap_eq_nil_iff.mpr hback]
    exact List.getLast?_concat
  · induction attrs using List.reverseRecOn with
    | nil => exact fun h => by cases h
    | append_singleton attrs attr ih =>
      intro h
      cases hattr : said attr with
      | some b' =>
        rw [List.filterMap_append, List.filterMap_cons_some hattr, List.filterMap_nil,
          List.getLast?_concat] at h
        cases h
        exact ⟨attrs, attr, [], rfl, hattr, List.forall_mem_nil _⟩
      | none =>
        rw [List.filterMap_append, List.filterMap_cons_none hattr, List.filterMap_nil,
          List.append_nil] at h
        obtain ⟨front, attr', back, rfl, hsaid, hback⟩ := ih h
        refine ⟨front, attr', back ++ [attr], by simp, hsaid, ?_⟩
        exact List.forall_mem_append.mpr ⟨hback, List.forall_mem_singleton.mpr hattr⟩

theorem Sets.unique {b' : Bool} (h : Sets said attrs b) (h' : Sets said attrs b') : b = b' :=
  Option.some.inj ((sets_iff.mp h).symm.trans (sets_iff.mp h'))

/-- A word that the code knows mentions the filter, and says the same of it. -/
theorem filterMention_of_known {attr : Str} (h : knownWord attr = some b) :
    filterMention attr = some b := by
  rw [knownWord] at h
  split at h
  · rename_i hlfs
    cases h
    rw [hlfs]
    decide
  split at h
  · rename_i hother
    cases h
    rcases hother with rfl | rfl | rfl <;> decide
  · cases h

/-- Where the last mention is known the code hears what is said. -/
theorem sets_knownWord (h : ¬Unheard attrs) :
    Sets knownWord attrs b ↔ Sets filterMention attrs b := by
  have hheard : ∀ b, Sets filterMention attrs b → Sets knownWord attrs b := by
    rintro b ⟨front, attr, back, hsplit, hattr, hback⟩
    cases hknown : knownWord attr with
    | none => exact absurd ⟨front, attr, back, hsplit, ⟨by simp [hattr], hknown⟩, hback⟩ h
    | some b' =>
      cases hattr.symm.trans (filterMention_of_known hknown)
      refine ⟨front, attr, back, hsplit, hknown, fun attr' hattr' => ?_⟩
      rw [Option.eq_none_iff_forall_ne_some]
      intro b' hb'
      cases (hback attr' hattr').symm.trans (filterMention_of_known hb')
  refine ⟨fun hsets => ?_, hheard b⟩
  have hmentioned : ∃ attr ∈ attrs, filterMention attr ≠ none := by
    obtain ⟨front, attr, back, rfl, hattr, -⟩ := hsets
    exact ⟨attr, List.mem_append_right front List.mem_cons_self,
      by simp [filterMention_of_known hattr]⟩
  obtain ⟨front, attr, back, hsplit, hmention, hback⟩ := LastWord.exists_last hmentioned
  obtain ⟨b', hb'⟩ := Option.ne_none_iff_exists'.mp hmention
  have hlast : Sets filterMention attrs b' :=
    ⟨front, attr, back, hsplit, hb', fun a ha => not_not.mp (hback a ha)⟩
  rw [Sets.unique hsets (hheard b' hlast)]
  exact hlast

/-- A mention that the code does not know is not of `lfs`. -/
theorem Unheard.sets (h : Unheard attrs) : Sets filterMention attrs false := by
  obtain ⟨front, attr, back, hsplit, ⟨hmention, hknown⟩, hback⟩ := h
  refine ⟨front, attr, back, hsplit, ?_, hback⟩
  rw [filterMention] at hmention ⊢
  split
  · rw [Option.some.injEq, decide_eq_false_iff_not]
    rintro rfl
    cases hknown
  · rename_i hnone
    rw [if_neg hnone] at hmention
    exact absurd rfl hmention

end Words

/-! ## What the code decides -/

open LastWord AttributesLine

theorem patternMatches_iff_across {l : AttributesLine} {path : Str} :
    patternMatches l.pattern path = true ↔ l.Across path := by
  rw [patternMatches, Across]
  by_cases hslash : '/' ∈ l.pattern
  · simp only [List.contains_iff_mem.mpr hslash, if_true, if_pos hslash]
    rw [Attributes.globMatch_eq, globSeg_iff_denotesStars]
  · have hcontains : l.pattern.contains '/' = false := by
      rw [← Bool.not_eq_true, List.contains_iff_mem]
      exact hslash
    simp only [hcontains, Bool.false_eq_true, if_false, if_neg hslash]
    rw [Attributes.globMatch_eq, globSeg_iff_denotesStars]

theorem lfs_eq_some {l : AttributesLine} {b : Bool} :
    l.lfs = some b ↔ Sets knownWord l.attrs b := by
  obtain ⟨pattern, attrs⟩ := l
  rw [sets_iff, lfs]
  have hlast : ∀ attrs : List Str, attrs.foldl (fun lfs attr =>
      if attr = str "filter=lfs" then some true
      else if attr = str "-filter" ∨ attr = str "filter=" ∨ attr = str "!filter" then some false
      else lfs) none = (attrs.filterMap knownWord).getLast? := by
    intro attrs
    induction attrs using List.reverseRecOn with
    | nil => rfl
    | append_singleton attrs attr ih =>
      rw [List.foldl_append, ih, List.filterMap_append, List.foldl_cons, List.foldl_nil,
        List.filterMap_cons,
        List.filterMap_nil, knownWord]
      split_ifs <;> simp
  rw [hlast]

theorem taken_eq_some {l : AttributesLine} {path : Str} {b : Bool} :
    l.taken path = some b ↔ l.Across path ∧ Sets knownWord l.attrs b := by
  rw [← patternMatches_iff_across, ← lfs_eq_some, taken]
  split <;> simp_all

theorem rule_eq_some {l : AttributesLine} {path : Str} {b : Bool} :
    l.rule path = some b ↔ l.Fits path ∧ Sets filterMention l.attrs b := by
  rw [sets_iff, rule, AttributesLine.filter]
  split <;> simp_all

theorem silent_iff {l : AttributesLine} {path : Str} :
    l.taken path = none ∧ l.rule path = none ↔ ¬l.Concerns path := by
  rw [Concerns, not_or, Option.eq_none_iff_forall_ne_some, Option.eq_none_iff_forall_ne_some]
  simp only [ne_eq, taken_eq_some, rule_eq_some, ← exists_and_left, not_exists]

theorem isLfs_parse (text path : Str) :
    (Attributes.parse text).isLfs (toUtf8 path) =
      lastSaid false (taken path) (attributesLines text) := by
  have hcompile : (Attributes.parse text).rules = (attributesLines text).filterMap fun l =>
      l.lfs.map (l.pattern, ·) := by
    rw [Attributes.parse, attributesLines, List.filterMap_filterMap]
    refine List.filterMap_congr fun line _ => ?_
    cases AttributesLine.ofLine line with
    | none => rfl
    | some l => cases h : l.lfs <;> simp [h]
  rw [Attributes.isLfs, hcompile, fromUtf8_toUtf8, Option.getD_some, lastSaid, List.foldl_filterMap]
  congr 1
  funext tracked l
  rw [taken]
  cases l.lfs with
  | none => simp
  | some b => cases h : patternMatches l.pattern path <;> simp [h]

theorem tracked_iff {ls : List AttributesLine} {path : Str} :
    Tracked ls path ↔ lastSaid false (rule path) ls = true := by
  have hsilent : ∀ l : AttributesLine, rule path l = none ↔ ¬(l.Fits path ∧ l.filter ≠ none) := by
    intro l
    rw [rule]
    split <;> simp_all
  have hsaid : ∀ (l : AttributesLine) b, rule path l = some b ↔ l.Fits path ∧
      l.filter = some b := by
    intro l b
    rw [rule]
    split <;> simp_all
  rw [lastSaid_iff, LastSays, or_iff_left (by simp), Tracked]
  simp only [hsaid, hsilent]

theorem trackedAcross_iff {ls : List AttributesLine} {path : Str} :
    TrackedAcross ls path ↔ lastSaid false (taken path) ls = true := by
  have hsilent : ∀ l, taken path l = none ↔ ¬(l.Across path ∧ ∃ b, Sets knownWord l.attrs b) := by
    intro l
    rw [Option.eq_none_iff_forall_ne_some]
    simp only [ne_eq, taken_eq_some, ← exists_and_left, not_exists]
  rw [lastSaid_iff, LastSays, or_iff_left (by simp), TrackedAcross]
  simp only [taken_eq_some, hsilent]

/-- What the lines before come to. -/
theorem lastSays_iff {f : AttributesLine → Option Bool} {ls : List AttributesLine}
    {b : Bool} {P : Prop} (hP : P ↔ lastSaid false f ls = true) :
    LastSays false f ls b ↔ (b = true ↔ P) := by
  rw [← lastSaid_iff, hP, eq_comm]
  exact Bool.eq_iff_iff

/-- **A line that concerns the path is read alike just if it settles it.** -/
theorem agreeAt_iff {front : List AttributesLine} {l : AttributesLine} {path : Str} :
    AgreeAt false (taken path) (rule path) front l ↔ l.Settles front path := by
  have hrule : ∀ {b}, LastSays false (rule path) front b ↔ (b = true ↔ Tracked front path) :=
    lastSays_iff tracked_iff
  have htaken : ∀ {b}, LastSays false (taken path) front b ↔
      (b = true ↔ TrackedAcross front path) :=
    lastSays_iff trackedAcross_iff
  have hnone : ∀ {b}, l.taken path = none → l.Across path → ¬Sets knownWord l.attrs b := by
    intro b hnone hacross hsets
    cases hnone.symm.trans (taken_eq_some.mpr ⟨hacross, hsets⟩)
  constructor
  · refine fun h => ⟨fun hacross hfits hunheard => ⟨fun hsets => ?_, fun hsilent htracked => ?_⟩,
      fun hacross hfits b hsets => ?_, fun hfits hacross b hsets => ?_⟩
    · cases h.both true false (taken_eq_some.mpr ⟨hacross, hsets⟩)
        (rule_eq_some.mpr ⟨hfits, hunheard.sets⟩)
    · have hright := h.right false (Option.eq_none_iff_forall_ne_some.mpr fun b hb =>
        hsilent b (taken_eq_some.mp hb).2)
        (rule_eq_some.mpr ⟨hfits, hunheard.sets⟩)
      cases (htaken.mp hright).mpr htracked
    · refine hrule.mp (h.left b (taken_eq_some.mpr ⟨hacross, hsets⟩) ?_)
      exact Option.eq_none_iff_forall_ne_some.mpr fun b' hb' => hfits (rule_eq_some.mp hb').1
    · refine htaken.mp (h.right b ?_ (rule_eq_some.mpr ⟨hfits, hsets⟩))
      exact Option.eq_none_iff_forall_ne_some.mpr fun b' hb' => hacross (taken_eq_some.mp hb').1
  · intro h
    refine ⟨fun a b ha hb => ?_, fun a ha hb => ?_, fun b ha hb => ?_⟩
    · obtain ⟨hacross, hknown⟩ := taken_eq_some.mp ha
      obtain ⟨hfits, hmention⟩ := rule_eq_some.mp hb
      by_cases hunheard : Unheard l.attrs
      · have hfalse := (h.unheard hacross hfits hunheard).1
        rw [hmention.unique hunheard.sets]
        cases a with
        | true => exact absurd hknown hfalse
        | false => rfl
      · exact ((sets_knownWord hunheard).mp hknown).unique hmention
    · obtain ⟨hacross, hknown⟩ := taken_eq_some.mp ha
      by_cases hfits : l.Fits path
      · -- a line that fits and has a known word says something
        have hmention : ∃ b, Sets filterMention l.attrs b := by
          by_cases hunheard : Unheard l.attrs
          · exact ⟨false, hunheard.sets⟩
          · exact ⟨a, (sets_knownWord hunheard).mp hknown⟩
        obtain ⟨b, hsets⟩ := hmention
        cases hb.symm.trans (rule_eq_some.mpr ⟨hfits, hsets⟩)
      · exact hrule.mpr (h.overrun hacross hfits a hknown)
    · obtain ⟨hfits, hmention⟩ := rule_eq_some.mp hb
      by_cases hacross : l.Across path
      · by_cases hunheard : Unheard l.attrs
        · have hlines := (h.unheard hacross hfits hunheard).2 fun b' => hnone ha hacross
          rw [htaken, hmention.unique hunheard.sets]
          exact iff_of_false Bool.false_ne_true hlines
        · exact absurd ((sets_knownWord hunheard).mpr hmention) (hnone ha hacross)
      · exact htaken.mpr (h.missed hfits hacross b hmention)

/-- **A path is kept as a large file as the rule has it** exactly when the last line that concerns
it settles it.  A line that fits both ways and ends in a word that the code knows does; one that
fits only across the slashes, or only between them, has to repeat what the lines before come to. -/
theorem isLfs_iff (text path : Str) :
    ((Attributes.parse text).isLfs (toUtf8 path) = true ↔ Tracked (attributesLines text) path) ↔
      ReadRight (attributesLines text) path := by
  have hagree : ((Attributes.parse text).isLfs (toUtf8 path) = true ↔
    Tracked (attributesLines text) path) ↔
      Agree false (taken path) (rule path) (attributesLines text) := by
    rw [isLfs_parse, tracked_iff, ← lastSaid_eq_iff]
    exact Bool.eq_iff_iff.symm
  rw [hagree, Agree, ReadRight]
  refine forall_congr' fun front => forall_congr' fun l => forall_congr' fun back =>
    imp_congr_right fun _ => ?_
  simp only [silent_iff, agreeAt_iff]
  constructor
  · exact fun h _ hback => h hback
  · intro h hback
    by_cases hl : l.Concerns path
    · exact h hl hback
    · -- a line that says nothing to either settles nothing
      obtain ⟨htaken, hrule⟩ := silent_iff.mpr hl
      rw [← agreeAt_iff]
      refine ⟨fun a b ha _ => ?_, fun a ha _ => ?_, fun b _ hb => ?_⟩
      · cases htaken.symm.trans ha
      · cases htaken.symm.trans ha
      · cases hrule.symm.trans hb

/-! ## Lines that are read as they say -/

/-- An attribute that the code knows, or that does not mention the filter. -/
def Known (attr : Str) : Prop :=
  attr ∈ [str "filter=lfs", str "-filter", str "filter=", str "!filter"] ∨ filterMention attr = none

/-- The code takes known attributes as the rule does. -/
theorem lfs_eq_filter {l : AttributesLine} (h : ∀ attr ∈ l.attrs, Known attr) :
    l.lfs = l.filter := by
  have hheard : ¬Unheard l.attrs := by
    rintro ⟨front, attr, back, hsplit, ⟨hmention, hknown⟩, -⟩
    rcases h attr (hsplit ▸ List.mem_append_right front List.mem_cons_self) with hmem | hnone
    · simp only [List.mem_cons, List.not_mem_nil, or_false] at hmem
      rcases hmem with rfl | rfl | rfl | rfl <;> exact absurd hknown (by decide)
    · exact hmention hnone
  refine Option.ext fun b => ?_
  rw [lfs_eq_some, sets_knownWord hheard, sets_iff, AttributesLine.filter]

/-- A pattern without wildcards matches itself only. -/
theorem segFits_iff_eq {tok comp : Str} (h : '*' ∉ tok ∧ '?' ∉ tok) :
    SegFits (toUtf8 tok) (toUtf8 comp) ↔ tok = comp := by
  have hbyte : ∀ b ∈ toUtf8 tok, (b == 42) = false ∧ ∀ s, (b == 63 || b == s) = true ↔ b = s := by
    intro b hb
    have hstar : b ≠ 42 := by
      rintro rfl
      exact h.1 ((ascii_mem_toUtf8 (by decide)).mp hb)
    have hmark : (b == 63) = false := beq_false_of_ne fun heq =>
      h.2 ((ascii_mem_toUtf8 (by decide)).mp (heq ▸ hb))
    exact ⟨beq_false_of_ne hstar, fun s => by rw [hmark, Bool.false_or, beq_iff_eq]⟩
  rw [SegFits, Wildcard.spans_iff_eq hbyte]
  exact ⟨toUtf8_injective, congrArg toUtf8⟩

/-- Where the pattern or the text has no `*`, no `*` stands at one. -/
theorem denotesStars_iff_segFits {pat text : Str} (h : '*' ∉ pat ∨ '*' ∉ text) :
    DenotesStars (toUtf8 pat) (toUtf8 text) ↔ SegFits (toUtf8 pat) (toUtf8 text) := by
  have hbytes : (42 : UInt8) ∉ toUtf8 pat ∨ (42 : UInt8) ∉ toUtf8 text :=
    h.imp (fun h hmem => h ((ascii_mem_toUtf8 (by decide)).mp hmem)) fun h hmem =>
      h ((ascii_mem_toUtf8 (by decide)).mp hmem)
  exact denotesStars_iff hbytes

theorem pathFits_iff_eq {pat path : Str} (h : '*' ∉ pat ∧ '?' ∉ pat) :
    PathFits (pat.splitOn '/') (path.splitOn '/') ↔ pat = path := by
  have hpart : ∀ tok ∈ pat.splitOn '/', '*' ∉ tok ∧ '?' ∉ tok := fun tok htok =>
    ⟨fun hmem => h.1 (mem_of_mem_splitOn htok hmem), fun hmem => h.2 (mem_of_mem_splitOn htok hmem)⟩
  have htok : ∀ tok ∈ pat.splitOn '/', (tok == str "**") = false ∧
      ∀ s, tokenFits tok s = true ↔ tok = s := by
    intro tok htok
    refine ⟨beq_false_of_ne ?_, fun s => by rw [tokenFits, decide_eq_true_iff,
      segFits_iff_eq (hpart tok htok)]⟩
    rintro rfl
    exact (hpart _ htok).1 (by decide)
  have hlast : (pat.splitOn '/').getLast? ≠ some (str "**") := fun hlast =>
    (hpart _ (List.mem_of_getLast? hlast)).1 (by decide)
  rw [PathFits, if_neg hlast, Wildcard.spans_iff_eq htok]
  refine ⟨fun heq => ?_, fun heq => heq ▸ rfl⟩
  rw [← @List.intercalate_splitOn _ pat _ _ '/', heq, List.intercalate_splitOn]

/-- A pattern without a slash, with stars in it or in the path but not in both; or one without
wildcards. -/
def PlainFor (pattern path : Str) : Prop :=
  '/' ∉ pattern ∧ ('*' ∉ pattern ∨ '*' ∉ path) ∨ '*' ∉ pattern ∧ '?' ∉ pattern

/-- A plain pattern fits across the slashes just where it fits. -/
theorem across_iff_fits {l : AttributesLine} {path : Str} (h : PlainFor l.pattern path) :
    l.Across path ↔ l.Fits path := by
  have hstrip : ∀ c, c ∉ l.pattern → c ∉ (stripPrefix? ['/'] l.pattern).getD l.pattern := by
    intro c hc
    cases hsplit : stripPrefix? ['/'] l.pattern with
    | none => exact hc
    | some rest =>
        rw [stripPrefix?_eq_some.mp hsplit] at hc
        exact fun hmem => hc (List.mem_append_right _ hmem)
  rw [Across, Fits]
  by_cases hslash : '/' ∈ l.pattern
  · obtain ⟨hstar, hmark⟩ := h.resolve_left fun hleft => hleft.1 hslash
    have hplain := And.intro (hstrip _ hstar) (hstrip _ hmark)
    rw [if_pos hslash, if_pos hslash, denotesStars_iff_segFits (Or.inl hplain.1),
      segFits_iff_eq hplain,
      pathFits_iff_eq hplain]
  · have hnone : stripPrefix? ['/'] l.pattern = none := by
      rw [Option.eq_none_iff_forall_ne_some]
      intro rest hrest
      exact hslash (stripPrefix?_eq_some.mp hrest ▸ List.mem_cons_self)
    have hstar : '*' ∉ l.pattern ∨ '*' ∉ ((path.splitOn '/').getLast?).getD path := by
      refine (h.elim And.right fun hright => Or.inl hright.1).imp_right fun hpath hmem => hpath ?_
      cases hlast : (path.splitOn '/').getLast? with
      | none => rwa [hlast] at hmem
      | some base =>
          rw [hlast] at hmem
          exact mem_of_mem_splitOn (List.mem_of_getLast? hlast) hmem
    rw [if_neg hslash, if_neg hslash, hnone, Option.getD_none, denotesStars_iff_segFits hstar,
      tokenFits, decide_eq_true_iff]

/-- **A plain line is taken for what it says.** -/
theorem taken_eq_rule {l : AttributesLine} {path : Str} (hpattern : PlainFor l.pattern path)
    (hattrs : ∀ attr ∈ l.attrs, Known attr) : l.taken path = l.rule path := by
  rw [taken, rule, lfs_eq_filter hattrs]
  exact if_congr (patternMatches_iff_across.trans (across_iff_fits hpattern)) rfl rfl

/-- A file of plain lines keeps as large files what it should. -/
theorem isLfs_plain {text path : Str}
    (h : ∀ l ∈ attributesLines text, PlainFor l.pattern path ∧ ∀ attr ∈ l.attrs, Known attr) :
    (Attributes.parse text).isLfs (toUtf8 path) = true ↔ Tracked (attributesLines text) path := by
  rw [isLfs_parse, tracked_iff]
  have hsame := lastSaid_congr (d := false) fun l hl => taken_eq_rule (h l hl).1 (h l hl).2
  rw [hsame]

/-- **A star does not stop at a slash**: of the directory `a` only what is in it is to be kept as
large files, and what is in a directory in it is too. -/
theorem not_isLfs_iff : ¬∀ text path : Str, (∀ c ∈ text, c ∉ str "\"[]\\") →
    ((Attributes.parse text).isLfs (toUtf8 path) = true ↔ Tracked (attributesLines text) path) := by
  intro h
  have hdeep := h (str "a/* filter=lfs\n") (str "a/b/c") (List.all_iff_forall_prop.mp (by decide))
  rw [tracked_iff] at hdeep
  revert hdeep
  decide

end Puregit
