import Puregit.Error
import Puregit.Lib.Exec

/-! # The git configuration format

A configuration is an ordered list of keys and values.  Sections, subsections and
`name = value` lines are read by a cursor over the text, which only ever splits it at
ASCII characters; the cursor counts lines for its error messages.  A value may be
quoted, escaped, commented and continued; what is written quotes and escapes it again.
-/
namespace Puregit

/-- An ASCII letter. -/
def isAsciiAlphabetic (c : Char) : Bool := ('a' ≤ c && c ≤ 'z') || ('A' ≤ c && c ≤ 'Z')

/-- An ASCII letter or digit. -/
def isAsciiAlphanumeric (c : Char) : Bool := isAsciiAlphabetic c || ('0' ≤ c && c ≤ '9')

/-- The form feed. -/
def formFeed : Char := Char.ofNat 0x0C

/-- The backspace. -/
def backspace : Char := Char.ofNat 0x08

/-- Space, tab, newline, form feed or carriage return. -/
def isAsciiWhitespace (c : Char) : Bool :=
  c = ' ' || c = '\t' || c = '\n' || c = formFeed || c = '\r'

/-- An upper-case ASCII letter in lower case, any other character as it is. -/
def toAsciiLower (c : Char) : Char := if 'A' ≤ c ∧ c ≤ 'Z' then Char.ofNat (c.toNat + 32) else c

/-- A text in ASCII lower case. -/
def toAsciiLowercase (s : Str) : Str := s.map toAsciiLower

namespace Config

/-- A key: section and name in lower case, the subsection as it is. -/
structure Key where
  section_ : Str
  subsection : Option Str
  name : Str
  deriving DecidableEq

/-- The key of a section, a subsection and a name in any case. -/
def Key.new (section_ : Str) (subsection : Option Str) (name : Str) : Key :=
  ⟨toAsciiLowercase section_, subsection, toAsciiLowercase name⟩

/-! ## The cursor -/

/-- A cursor: what is left of the text, and the line it is on. -/
structure Parser where
  rest : Str
  line : Nat

/-- The error of a line. -/
def lineError (line : Nat) (msg : String) : Error :=
  .config (str "line " ++ natStr line ++ str ": " ++ str msg)

/-- Skips white space, newlines too. -/
def skipWhitespace (line : Nat) : Str → Parser
  | [] => ⟨[], line⟩
  | c :: r =>
      if isAsciiWhitespace c then skipWhitespace (if c = '\n' then line + 1 else line) r
      else ⟨c :: r, line⟩

/-- Skips spaces, tabs and carriage returns. -/
def skipBlanks (s : Str) : Str := s.dropWhile fun c => c = ' ' || c = '\t' || c = '\r'

/-- Skips to past the end of the line. -/
def skipLine (line : Nat) : Str → Parser
  | [] => ⟨[], line⟩
  | c :: r => if c = '\n' then ⟨r, line + 1⟩ else skipLine line r

/-- A character of a key name. -/
def isNameChar (c : Char) : Bool := isAsciiAlphanumeric c || c = '-'

/-- A character of a section name. -/
def isSectionChar (c : Char) : Bool := isAsciiAlphanumeric c || c = '-' || c = '.'

/-- The line of a cursor that has moved past the next character, if there is one. -/
def bumpedLine (line : Nat) (s : Str) : Nat := if s.head? = some '\n' then line + 1 else line

/-- The rest of a quoted subsection, through its closing quote. -/
def subsection (line : Nat) : Str → Except Error (Str × Str)
  | [] => .error (lineError line "unterminated subsection")
  | '"' :: r => .ok ([], r)
  | '\n' :: _ => .error (lineError (line + 1) "unterminated subsection")
  | '\\' :: [] => .error (lineError line "unterminated subsection")
  | '\\' :: c :: r =>
      if c = '\n' then .error (lineError (line + 1) "unterminated subsection")
      else (subsection line r).map fun x => (c :: x.1, x.2)
  | c :: r => (subsection line r).map fun x => (c :: x.1, x.2)

/-- A section and a subsection. -/
abbrev Header := Str × Option Str

/-- The rest of a section header after the opening bracket, through the closing one. -/
def sectionHeader (p : Parser) : Except Error (Header × Parser) :=
  let name := toAsciiLowercase (p.rest.takeWhile isSectionChar)
  let rest := p.rest.dropWhile isSectionChar
  if name.isEmpty then .error (lineError p.line "empty section name")
  else match rest with
    | ']' :: r =>
      -- a subsection after a dot is in lower case like the section
      match splitOnce '.' name with
      | some (sec, sub) => .ok ((sec, some sub), ⟨r, p.line⟩)
      | none => .ok ((name, none), ⟨r, p.line⟩)
    | c :: r =>
      if c = ' ' ∨ c = '\t' then
        match skipBlanks r with
        | '"' :: r =>
          match subsection p.line r with
          | .error e => .error e
          | .ok (sub, ']' :: r) => .ok ((name, some sub), ⟨r, p.line⟩)
          | .ok (_, r) => .error (lineError (bumpedLine p.line r) "bad section header")
        | r => .error (lineError (bumpedLine p.line r) "bad section header")
      else .error (lineError (bumpedLine p.line (c :: r)) "unclosed section")
    | [] => .error (lineError p.line "unclosed section")

/-- What an escape in a value stands for. -/
def unescape (c : Char) : Option Char :=
  if c = 'n' then some '\n'
  else if c = 't' then some '\t'
  else if c = 'b' then some backspace
  else if c = '"' ∨ c = '\\' then some c
  else none

/-- A value after the equals sign, through the end of its line; `out` is the value so
far and `pending` the spaces due before the next character. -/
def valueGo (out : Str) (inQuotes inComment : Bool) (pending line : Nat) :
    Str → Except Error (Str × Parser)
  | [] =>
      if inQuotes then .error (lineError line "unterminated quoted value")
        else .ok (out, ⟨[], line⟩)
  | c :: r =>
      if c = '\n' then
        if inQuotes then .error (lineError line "unterminated quoted value")
        else .ok (out, ⟨r, line + 1⟩)
      else if inComment then valueGo out inQuotes inComment pending line r
      else if isAsciiWhitespace c && !inQuotes then
        valueGo out inQuotes inComment (if out.isEmpty then pending else pending + 1) line r
      else if !inQuotes && (c = '#' || c = ';') then valueGo out inQuotes true pending line r
      else
        let out := out ++ List.replicate pending ' '
        if c = '\\' then
          match r with
          | '\n' :: r => valueGo out inQuotes inComment 0 (line + 1) r
          | '\r' :: '\n' :: r => valueGo out inQuotes inComment 0 (line + 1) r
          | e :: r =>
            match unescape e with
            | some u => valueGo (out ++ [u]) inQuotes inComment 0 line r
            | none => .error (lineError line "bad escape in value")
          | [] => .error (lineError line "bad escape in value")
        else if c = '"' then valueGo out (!inQuotes) inComment 0 line r
        else valueGo (out ++ [c]) inQuotes inComment 0 line r

/-- A value after the equals sign. -/
def value (p : Parser) : Except Error (Str × Parser) := valueGo [] false false 0 p.line p.rest

/-- The value of a key, from after its name on. -/
def keyValue (p : Parser) : Except Error (Str × Parser) :=
  match skipBlanks p.rest with
  | '=' :: r => value ⟨r, p.line⟩
  | r =>
      if r.head?.all fun c => c = '\n' || c = '\r' || c = '#' || c = ';' then
        .ok (str "true", ⟨r, p.line⟩)
      else .error (lineError p.line "bad config line")

/-! ## How much text is left -/

theorem length_skipWhitespace (line : Nat) (s : Str) :
    (skipWhitespace line s).rest.length ≤ s.length := by
  induction s generalizing line with
  | nil => exact Nat.le_refl 0
  | cons c s ih =>
      unfold skipWhitespace
      by_cases h : isAsciiWhitespace c = true
      · rw [if_pos h]
        exact Nat.le_succ_of_le (ih _)
      · rw [if_neg h]

theorem length_skipLine (line : Nat) (s : Str) : (skipLine line s).rest.length ≤ s.length := by
  induction s generalizing line with
  | nil => exact Nat.le_refl 0
  | cons c s ih =>
      unfold skipLine
      by_cases h : c = '\n'
      · rw [if_pos h]
        exact Nat.le_succ s.length
      · rw [if_neg h]
        exact Nat.le_succ_of_le (ih _)

theorem length_skipBlanks (s : Str) : (skipBlanks s).length ≤ s.length :=
  List.length_dropWhile_le _ s

theorem length_subsection {line : Nat} {s sub r : Str} (h : subsection line s = .ok (sub, r)) :
    r.length ≤ s.length := by
  fun_induction subsection line s generalizing sub r with
  | case1 | case3 | case4 | case5 => cases h
  | case2 r =>
      cases h
      exact Nat.le_succ _
  | case6 c r _ ih | case7 c r _ _ _ _ ih =>
      obtain ⟨⟨sub', r'⟩, hr, heq⟩ := except_map_ok.mp h
      cases heq
      have := ih hr
      simp only [List.length_cons]
      omega

theorem length_sectionHeader {p p' : Parser} {hd : Header} (h : sectionHeader p = .ok (hd, p')) :
    p'.rest.length ≤ p.rest.length := by
  have hdrop := List.length_dropWhile_le isSectionChar p.rest
  unfold sectionHeader at h
  simp only at h
  split at h
  · cases h
  split at h
  · rename_i r hrest
    rw [hrest, List.length_cons] at hdrop
    split at h <;> cases h <;> exact Nat.le_of_succ_le hdrop
  · rename_i c r _ hrest
    rw [hrest, List.length_cons] at hdrop
    split at h
    · split at h
      · rename_i r' hblanks
        have hr' := length_skipBlanks r
        rw [hblanks, List.length_cons] at hr'
        split at h
        · cases h
        · rename_i sub r'' hsub
          cases h
          have hlen := length_subsection hsub
          rw [List.length_cons] at hlen
          show r''.length ≤ p.rest.length
          omega
        · cases h
      · cases h
    · cases h
  · cases h

theorem length_valueGo {out v s : Str} {inQuotes inComment : Bool} {pending line : Nat} {p : Parser}
    (h : valueGo out inQuotes inComment pending line s = .ok (v, p)) :
    p.rest.length ≤ s.length := by
  fun_induction valueGo out inQuotes inComment pending line s with
  | case1 | case3 => cases h
  | case2 =>
      cases h
      exact Nat.le_refl 0
  | case4 =>
      cases h
      exact Nat.le_succ _
  | case11 | case12 => cases h
  | case5 | case6 | case7 | case8 | case9 | case10 | case13 | case14 =>
      rename_i ih
      have hlen := ih h
      simp only [List.length_cons]
      omega

theorem length_keyValue {p p' : Parser} {v : Str} (h : keyValue p = .ok (v, p')) :
    p'.rest.length ≤ p.rest.length := by
  have hblanks := length_skipBlanks p.rest
  unfold keyValue at h
  split at h
  · rename_i r hrest
    rw [hrest, List.length_cons] at hblanks
    have hvalue := length_valueGo h
    show p'.rest.length ≤ p.rest.length
    exact Nat.le_trans hvalue (Nat.le_of_succ_le hblanks)
  · split at h
    · cases h
      exact hblanks
    · cases h

/-! ## The configuration -/

/-- The entries of a text; `sec` is the section entries are in. -/
def parseLoop (sec : Option Header) (entries : List (Key × Str)) (p : Parser) :
    Except Error (List (Key × Str)) :=
  match _h : skipWhitespace p.line p.rest with
  | ⟨[], _⟩ => .ok entries
  | ⟨c :: r, line⟩ =>
    if c = '#' ∨ c = ';' then parseLoop sec entries (skipLine line r)
    else if c = '[' then
      match _h' : sectionHeader ⟨r, line⟩ with
      | .error e => .error e
      | .ok (hd, p') => parseLoop (some hd) entries p'
    else if isAsciiAlphabetic c then
      match sec with
      | none => .error (lineError line "entry before any section")
      | some (s, sub) =>
        let name := c :: r.takeWhile isNameChar
        match _h' : keyValue ⟨r.dropWhile isNameChar, line⟩ with
        | .error e => .error e
        | .ok (v, p') => parseLoop sec (entries ++ [(Key.new s sub name, v)]) p'
    else .error (lineError line "bad config line")
termination_by p.rest.length
decreasing_by
  all_goals
    have hskip := length_skipWhitespace p.line p.rest
    rw [_h, List.length_cons] at hskip
  · have hline := length_skipLine line r
    omega
  · have hheader := length_sectionHeader _h'
    exact Nat.lt_of_le_of_lt hheader hskip
  · have hdrop := List.length_dropWhile_le isNameChar r
    have hvalue := length_keyValue _h'
    exact Nat.lt_of_le_of_lt (Nat.le_trans hvalue hdrop) hskip

end Config

/-- A configuration. -/
structure Config where
  entries : List (Config.Key × Str)

namespace Config

/-- The empty configuration. -/
def new : Config := ⟨[]⟩

/-- The byte order mark. -/
def byteOrderMark : Char := Char.ofNat 0xFEFF

/-- Parses a configuration text. -/
def parse (text : Str) : Except Error Config :=
  (parseLoop none [] ⟨(stripPrefix? [byteOrderMark] text).getD text, 1⟩).map Config.mk

/-- Every value of a key, in order. -/
def getAll (cfg : Config) (section_ : Str) (subsection : Option Str) (name : Str) : List Str :=
  (cfg.entries.filter fun e => e.1 = Key.new section_ subsection name).map Prod.snd

/-- Sets a key, replacing all its values. -/
def set (cfg : Config) (section_ : Str) (subsection : Option Str) (name value : Str) : Config :=
  let key := Key.new section_ subsection name
  ⟨cfg.entries.filter (fun e => e.1 ≠ key) ++ [(key, value)]⟩

/-- Whether a value is written between quotes. -/
def needsQuotes (value : Str) : Bool :=
  value.head? = some ' ' || value.getLast? = some ' ' || value.contains '#' || value.contains ';'

/-- A character of a value as it is written. -/
def escapeChar (c : Char) : Str :=
  if c = '\n' then str "\\n"
  else if c = '\t' then str "\\t"
  else if c = backspace then str "\\b"
  else if c = '"' then str "\\\""
  else if c = '\\' then str "\\\\"
  else [c]

/-- A value as it is written. -/
def quoteValue (value : Str) : Str :=
  if needsQuotes value then '"' :: value.flatMap escapeChar ++ ['"'] else value.flatMap escapeChar

/-- A subsection as it is written between quotes. -/
def escapeSubsection (name : Str) : Str :=
  name.flatMap fun c => if c = '"' ∨ c = '\\' then ['\\', c] else [c]

/-- A section header as it is written. -/
def headerText (hd : Header) : Str :=
  match hd.2 with
  | some sub => '[' :: hd.1 ++ str " \"" ++ escapeSubsection sub ++ str "\"]\n"
  | none => '[' :: hd.1 ++ str "]\n"

/-- Writes the entries after the text `out`, whose last header is `current`. -/
def serializeGo (out : Str) (current : Option Header) : List (Key × Str) → Str
  | [] => out
  | (key, value) :: es =>
      let header := (key.section_, key.subsection)
      let out :=
        if current ≠ some header then (if out.isEmpty then out else out ++ ['\n']) ++
          headerText header
        else out
      serializeGo (out ++ '\t' :: key.name ++ str " = " ++ quoteValue value ++ ['\n'])
        (some header) es

/-- Serializes the configuration, a header wherever the section changes. -/
def serialize (cfg : Config) : Str := serializeGo [] none cfg.entries

end Config
end Puregit
