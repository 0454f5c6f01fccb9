import Puregit.Lib.Text

/-! # String literals of JSON

A literal is a sequence of pieces between quotes: a character as it is, an escape of two characters,
or `\u` and four hex digits, which are a UTF-16 code unit.  A character outside of the basic plane
takes two of these, a surrogate pair.  Each piece denotes one character; a literal denotes the text
of them.
-/
namespace Puregit.JsonString

/-- The value of a hex digit of either case. -/
def hexValue (c : Char) : Option Nat :=
  if '0' ≤ c ∧ c ≤ '9' then some (c.toNat - 48)
  else if 'a' ≤ c ∧ c ≤ 'f' then some (c.toNat - 87)
  else if 'A' ≤ c ∧ c ≤ 'F' then some (c.toNat - 55)
  else none

/-- A hex digit. -/
abbrev HexDigit := {c : Char // (hexValue c).isSome}

/-- What a hex digit stands for. -/
def HexDigit.value (d : HexDigit) : Nat := (hexValue d.1).get d.2

theorem HexDigit.value_lt (d : HexDigit) : d.value < 16 := by
  obtain ⟨c, hc⟩ := d
  have hlt : ∀ n, hexValue c = some n → n < 16 := by
    intro n hn
    have hle : ∀ x y : Char, x ≤ y ↔ x.toNat ≤ y.toNat := fun _ _ => UInt32.le_iff_toNat_le
    simp only [hexValue, hle, Char.reduceToNat] at hn
    split at hn
    · cases hn
      omega
    split at hn
    · cases hn
      omega
    split at hn
    · cases hn
      omega
    · cases hn
  exact hlt _ (Option.some_get hc).symm

/-- A code unit, as four hex digits. -/
structure CodeUnit where
  a : HexDigit
  b : HexDigit
  c : HexDigit
  d : HexDigit

namespace CodeUnit

/-- The value of a code unit. -/
def value (u : CodeUnit) : Nat := ((u.a.value * 16 + u.b.value) * 16 + u.c.value) * 16 + u.d.value

/-- The escape of a code unit. -/
def text (u : CodeUnit) : Str := ['\\', 'u', u.a.1, u.b.1, u.c.1, u.d.1]

/-- The first of a surrogate pair. -/
def High (u : CodeUnit) : Prop := 0xD800 ≤ u.value ∧ u.value < 0xDC00

/-- The second of a surrogate pair. -/
def Low (u : CodeUnit) : Prop := 0xDC00 ≤ u.value ∧ u.value < 0xE000

theorem value_lt (u : CodeUnit) : u.value < 0x10000 := by
  have ha := u.a.value_lt
  have hb := u.b.value_lt
  have hc := u.c.value_lt
  have hd := u.d.value_lt
  unfold value
  omega

end CodeUnit

/-- The character of an escape of two characters, by its second. -/
def shortEscape (e : Char) : Option Char :=
  if e = '"' ∨ e = '\\' ∨ e = '/' then some e
  else if e = 'b' then some (Char.ofNat 0x08)
  else if e = 'f' then some (Char.ofNat 0x0C)
  else if e = 'n' then some '\n'
  else if e = 'r' then some '\r'
  else if e = 't' then some '\t'
  else none

/-- What a character of a text may be written as. -/
inductive Piece where
  | raw (c : Char) (unescaped : c ≠ '"' ∧ c ≠ '\\' ∧ 0x20 ≤ c.toNat)
  | short (e c : Char) (escape : shortEscape e = some c)
  | unit (u : CodeUnit) (basic : ¬u.High ∧ ¬u.Low)
  | pair (high low : CodeUnit) (surrogates : high.High ∧ low.Low)

namespace Piece

/-- The piece as it stands in a literal. -/
def text : Piece → Str
  | raw c _ => [c]
  | short e _ _ => ['\\', e]
  | unit u _ => u.text
  | pair high low _ => high.text ++ low.text

/-- The character that a piece denotes. -/
def char : Piece → Char
  | raw c _ => c
  | short _ c _ => c
  | unit u _ => Char.ofNat u.value
  | pair high low _ => Char.ofNat (0x10000 + (high.value - 0xD800) * 0x400 + (low.value - 0xDC00))

/-- A character outside of the basic plane, as a surrogate pair. -/
def IsPair : Piece → Prop
  | pair .. => True
  | _ => False

end Piece

/-- The literal of some pieces. -/
def literal (pieces : List Piece) : Str := '"' :: pieces.flatMap Piece.text ++ ['"']

/-- **A literal denotes a text.** -/
def Denotes (l s : Str) : Prop := ∃ pieces, l = literal pieces ∧ s = pieces.map Piece.char

end Puregit.JsonString
