import Mathlib.Data.Bool.AllAny
import Puregit.Lib.Shell
import Puregit.Server.Serve

/-! # The command of an SSH connection

A client asks for a service by a command line, which the login shell of the remote reads.  The path
comes from a URL and is quoted.  A server without a shell takes the command apart itself.

`execCommand_spec` says that both find the service and the path, whatever characters the path has.
-/
namespace Puregit.Server

/-- The name of a service. -/
def Service.name : Service → Str
  | uploadPack => str "git-upload-pack"
  | receivePack => str "git-receive-pack"

/-- Every occurrence of `pat` replaced, from the left; `skip` characters are of one that has
been. -/
def replaceFrom (pat new : Str) : Nat → Str → Str
  | _, [] => []
  | skip + 1, _ :: s => replaceFrom pat new skip s
  | 0, c :: s =>
    if pat <+: c :: s then new ++ replaceFrom pat new (pat.length - 1) s
    else c :: replaceFrom pat new 0 s

/-- Every occurrence of `pat`, which is not empty, replaced. -/
def replace (s pat new : Str) : Str := replaceFrom pat new 0 s

/-- Undoes the quotes of an argument that is between them. -/
def unquotePosix (s : Str) : Str :=
  if 2 ≤ (toUtf8 s).length ∧ startsWith s ['\''] ∧ endsWith s ['\''] then
    replace (s.tail.dropLast) (str "'\\''") ['\'']
  else s

/-- Parses a command: the service and the path. -/
def parseSshCommand (command : Str) : Except Error (Service × Str) :=
  let command := trim command
  match stripPrefix? (Service.name .uploadPack) command with
  | some rest => .ok (.uploadPack, unquotePosix (trim rest))
  | none =>
    match stripPrefix? (Service.name .receivePack) command with
    | some rest => .ok (.receivePack, unquotePosix (trim rest))
    | none => .error (.protocol (str "ssh: unsupported command " ++ debugStr command))

theorem replaceFrom_cons {pat new : Str} {c : Char} {s : Str} (h : ¬pat <+: c :: s) :
    replaceFrom pat new 0 (c :: s) = c :: replaceFrom pat new 0 s := by
  rw [replaceFrom, if_neg h]

end Puregit.Server

namespace Puregit.Transport
open Server

/-- Wraps a text in single quotes. -/
def shellSingleQuote (s : Str) : Str :=
  '\'' :: s.flatMap (fun c => if c = '\'' then str "'\\''" else [c]) ++ ['\'']

/-- The command of a service for a path. -/
def execCommand (service : Service) (path : Str) : Str :=
  service.name ++ ' ' :: shellSingleQuote path

/-- A quoted character is a character again. -/
theorem replace_quoted (s : Str) :
    replace (s.flatMap Shell.quoteChar) (str "'\\''") ['\''] = s := by
  induction s with
  | nil => rfl
  | cons c s ih =>
      rw [replace] at ih ⊢
      rw [List.flatMap_cons]
      by_cases hc : c = '\''
      · subst hc
        have hquote : ∀ rest, replaceFrom (str "'\\''") ['\''] 0 (Shell.quoteChar '\'' ++ rest) =
            '\'' :: replaceFrom (str "'\\''") ['\''] 0 rest := fun _ => rfl
        rw [hquote, ih]
      · rw [Shell.quoteChar, if_neg hc, List.singleton_append, replaceFrom_cons, ih]
        intro h
        exact hc (List.cons_prefix_cons.mp h).1.symm

theorem shellSingleQuote_eq (s : Str) :
    shellSingleQuote s = '\'' :: (s.flatMap Shell.quoteChar ++ ['\'']) := rfl

theorem unquotePosix_shellSingleQuote (s : Str) : unquotePosix (shellSingleQuote s) = s := by
  have hends : endsWith (shellSingleQuote s) ['\''] = true :=
    List.isSuffixOf_iff_suffix.mpr (List.suffix_append _ _)
  have hlength : 2 ≤ (toUtf8 (shellSingleQuote s)).length := by
    rw [shellSingleQuote_eq, toUtf8_cons, toUtf8_append, List.length_append, List.length_append]
    exact Nat.add_le_add (le_refl 1) (Nat.le_add_left 1 _)
  rw [unquotePosix, if_pos ⟨hlength, rfl, hends⟩, shellSingleQuote_eq, List.tail_cons,
    List.dropLast_concat, replace_quoted]

theorem unpadded_shellSingleQuote (front s : Str) (h : ∀ c ∈ front.head?, isWhitespace c = false) :
    Unpadded (front ++ shellSingleQuote s) := by
  refine ⟨fun c hc => ?_, fun c hc => ?_⟩
  · cases front with
    | nil =>
        cases hc
        decide
    | cons a front => exact h c hc
  · rw [shellSingleQuote_eq, List.append_cons, ← List.append_assoc, List.getLast?_concat] at hc
    cases hc
    decide

/-- **The command of a service.**  A shell reads it as two words, the service and the path; and a
server parses it to them. -/
theorem execCommand_spec (service : Service) (path : Str) :
    Shell.read (execCommand service path) = some [service.name, path] ∧
      parseSshCommand (execCommand service path) = .ok (service, path) := by
  constructor
  · have hname : ∀ rest, Shell.readFrom (.bare none) (service.name ++ rest) =
        Shell.readFrom (.bare (some service.name)) rest := by
      intro rest
      cases service with
      | uploadPack =>
        exact Shell.readFrom_word (List.all_iff_forall_prop.mp (by decide)) (by decide) rest
      | receivePack =>
        exact Shell.readFrom_word (List.all_iff_forall_prop.mp (by decide)) (by decide) rest
    have hquoted : Shell.readFrom (.bare none) (shellSingleQuote path) = some [path] := by
      rw [shellSingleQuote_eq, Shell.readFrom_cons rfl, Option.getD_none, Shell.readFrom_quoted]
      rfl
    have hwords : Shell.readFrom (.bare none) (execCommand service path) =
        some [service.name, path] := by
      rw [execCommand, hname, Shell.readFrom_blank, hquoted]
      rfl
    have hreserved : service.name ∉ Shell.reserved := by
      cases service <;> decide
    rw [Shell.read, hwords]
    exact if_neg hreserved
  · have hcommand : trim (execCommand service path) = execCommand service path := by
      rw [execCommand, List.append_cons]
      refine trim_eq_self_iff.mpr (unpadded_shellSingleQuote _ path fun c hc => ?_)
      cases service
      all_goals
        cases hc
        decide
    have hrest : trim (' ' :: shellSingleQuote path) = shellSingleQuote path := by
      have hdrop : trim (' ' :: shellSingleQuote path) = trim (shellSingleQuote path) := rfl
      rw [hdrop]
      exact trim_eq_self_iff.mpr (unpadded_shellSingleQuote [] path nofun)
    rw [parseSshCommand, hcommand]
    cases service with
    | uploadPack =>
        have hstrip : stripPrefix? (Service.name .uploadPack) (execCommand .uploadPack path) =
            some (' ' :: shellSingleQuote path) :=
          stripPrefix?_eq_some.mpr rfl
        simp only [hstrip]
        rw [hrest, unquotePosix_shellSingleQuote]
    | receivePack =>
        have hno : stripPrefix? (Service.name .uploadPack) (execCommand .receivePack path) = none :=
          rfl
        have hstrip : stripPrefix? (Service.name .receivePack) (execCommand .receivePack path) =
            some (' ' :: shellSingleQuote path) :=
          stripPrefix?_eq_some.mpr rfl
        simp only [hno, hstrip]
        rw [hrest, unquotePosix_shellSingleQuote]

end Puregit.Transport
