import Puregit.Lib.Text

/-! # Reading a shell command

How a POSIX shell reads a command line: blanks separate words, and within single quotes, within
double quotes and behind a backslash characters stand for themselves.  `read` gives the words of a
line that is one simple command of such words.  On any other line it gives nothing: where a quote
is left open, and where a character outside of quotes may do more than stand for itself, as one that
ends the command or that is replaced by something else.

`readFrom_single` and `readFrom_quoted` say what is read of text between single quotes, and of text
quoted so that it may have single quotes itself.
-/
namespace Puregit.Shell

/-- Where a reader is: outside of quotes, within them, or behind a backslash; with the word that it
is reading, if it is in one. -/
inductive State where
  | bare (w : Option Str)
  | escape (w : Option Str)
  | single (w : Str)
  | double (w : Str)
  | doubleEscape (w : Str)

/-- The characters that must or may have to be quoted, other than blanks, backslashes and quotes. -/
def special : Str := str "|&;<>()$`\n*?[]^!#~=%{,}"

/-- The characters that a backslash quotes within double quotes. -/
def escapable : Str := str "$`\"\\"

/-- The words that have a meaning of their own where a command begins. -/
def reserved : List Str :=
  [str "case", str "do", str "done", str "elif", str "else", str "esac", str "fi", str "for",
    str "if", str "in",
    str "then", str "until", str "while"]

/-- Reads a character; with the state comes the word that it ends. -/
def step : State → Char → Option (Option Str × State)
  | .bare w, c =>
    if c = ' ' ∨ c = '\t' then some (w, .bare none)
    else if c = '\'' then some (none, .single (w.getD []))
    else if c = '"' then some (none, .double (w.getD []))
    else if c = '\\' then some (none, .escape w)
    else if c ∈ special then none
    else some (none, .bare (some (w.getD [] ++ [c])))
  | .escape w, c => some (none, .bare (if c = '\n' then w else some (w.getD [] ++ [c])))
  | .single w, c => some (none, if c = '\'' then .bare (some w) else .single (w ++ [c]))
  | .double w, c =>
    if c = '"' then some (none, .bare (some w))
    else if c = '\\' then some (none, .doubleEscape w)
    else if c = '$' ∨ c = '`' then none
    else some (none, .double (w ++ [c]))
  | .doubleEscape w, c =>
    some (none, .double
      (if c = '\n' then w else if c ∈ escapable then w ++ [c] else w ++ ['\\', c]))

/-- The words of the rest of a line. -/
def readFrom : State → Str → Option (List Str)
  | .bare w, [] => some w.toList
  | _, [] => none
  | st, c :: s => do
    let (word, st) ← step st c
    let words ← readFrom st s
    some (word.toList ++ words)

/-- The words of a line that is a command of nothing but words. -/
def read (s : Str) : Option (List Str) :=
  match readFrom (.bare none) s with
  | some (w :: ws) => if w ∈ reserved then none else some (w :: ws)
  | _ => none

theorem readFrom_cons {st st' : State} {c : Char} (h : step st c = some (none, st')) (s : Str) :
    readFrom st (c :: s) = readFrom st' s := by
  rw [readFrom, h]
  simp

/-- A character that stands for itself. -/
def Plain (c : Char) : Prop := c ∉ str " \t'\"\\" ∧ c ∉ special

instance (c : Char) : Decidable (Plain c) := instDecidableAnd

theorem step_plain {c : Char} (h : Plain c) (w : Option Str) :
    step (.bare w) c = some (none, .bare (some (w.getD [] ++ [c]))) := by
  obtain ⟨hmark, hspecial⟩ := h
  have hne : ∀ d ∈ str " \t'\"\\", c ≠ d := fun d hd heq => hmark (heq ▸ hd)
  rw [step, if_neg, if_neg (hne _ (by decide)), if_neg (hne _ (by decide)),
    if_neg (hne _ (by decide)), if_neg hspecial]
  rintro (heq | heq)
  · exact hne _ (by decide) heq
  · exact hne _ (by decide) heq

/-- Plain text is a word, or goes on with one. -/
theorem readFrom_plain {t : Str} (h : ∀ c ∈ t, Plain c) (w rest : Str) :
    readFrom (.bare (some w)) (t ++ rest) = readFrom (.bare (some (w ++ t))) rest := by
  induction t generalizing w with
  | nil => rw [List.nil_append, List.append_nil]
  | cons c t ih =>
      rw [List.forall_mem_cons] at h
      rw [List.cons_append, readFrom_cons (step_plain h.1 (some w)), Option.getD_some, ih h.2,
        List.append_assoc, List.singleton_append]

/-- Plain text begins a word. -/
theorem readFrom_word {t : Str} (h : ∀ c ∈ t, Plain c) (hne : t ≠ []) (rest : Str) :
    readFrom (.bare none) (t ++ rest) = readFrom (.bare (some t)) rest := by
  obtain ⟨c, t, rfl⟩ := List.exists_cons_of_ne_nil hne
  rw [List.forall_mem_cons] at h
  rw [List.cons_append, readFrom_cons (step_plain h.1 none), readFrom_plain h.2]
  rfl

/-- A blank ends a word. -/
theorem readFrom_blank (w rest : Str) :
    readFrom (.bare (some w)) (' ' :: rest) = (readFrom (.bare none) rest).map (w :: ·) := by
  cases h : readFrom (.bare none) rest with
  | none => simp [readFrom, step, h]
  | some words => simp [readFrom, step, h]

/-- **Between single quotes everything stands for itself.** -/
theorem readFrom_single {t : Str} (h : '\'' ∉ t) (w rest : Str) :
    readFrom (.single w) (t ++ rest) = readFrom (.single (w ++ t)) rest := by
  induction t generalizing w with
  | nil => rw [List.nil_append, List.append_nil]
  | cons c t ih =>
      rw [List.mem_cons, not_or] at h
      rw [List.cons_append, readFrom_cons (by rw [step, if_neg (Ne.symm h.1)]), ih h.2,
        List.append_assoc,
        List.singleton_append]

/-- A single quote between single quotes: they are closed, the quote follows behind a backslash, and
they are opened again. -/
theorem readFrom_quote (w rest : Str) :
    readFrom (.single w) (str "'\\''" ++ rest) = readFrom (.single (w ++ ['\''])) rest := by
  have hstr : str "'\\''" ++ rest = '\'' :: '\\' :: '\'' :: '\'' :: rest := rfl
  rw [hstr, readFrom_cons rfl, readFrom_cons rfl, readFrom_cons rfl, readFrom_cons rfl]
  rfl

/-- Text as it is written between single quotes. -/
def quoteChar (c : Char) : Str := if c = '\'' then str "'\\''" else [c]

/-- **Quoted text is read as it was**, whatever is in it. -/
theorem readFrom_quoted (t w rest : Str) :
    readFrom (.single w) (t.flatMap quoteChar ++ rest) = readFrom (.single (w ++ t)) rest := by
  induction t generalizing w with
  | nil => rw [List.flatMap_nil, List.nil_append, List.append_nil]
  | cons c t ih =>
      rw [List.flatMap_cons, List.append_assoc, List.append_cons, ← ih]
      by_cases hc : c = '\''
      · subst hc
        exact readFrom_quote w _
      · rw [quoteChar, if_neg hc, readFrom_single (by simpa using Ne.symm hc)]

end Puregit.Shell
