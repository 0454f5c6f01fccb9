import Puregit.Lib.JsonString
import Puregit.Oid

/-! # The JSON of a server for large files

The answers of such a server are JSON, read by a parser of their own.  How deep they nest is
bounded; numbers are floating-point, which are left open here.

A string literal is scanned byte by byte: escapes are decoded, and the bytes of a character are
copied.  Each `\u` escape is decoded by itself, so `parse_literal_iff` excludes surrogate pairs: all
other literals are read as what they denote.  `escape` writes no surrogate pairs.
-/
namespace Puregit

/-- A JSON value. -/
inductive Json (ν : Type) where
  | null
  | bool (b : Bool)
  | num (n : ν)
  | str (s : Str)
  | arr (items : List (Json ν))
  | obj (pairs : List (Str × Json ν))

namespace JsonParser

/-- How deep objects and arrays may nest. -/
def maxDepth : Nat := 128

/-- A character of a text, as it is written. -/
def escapeChar (c : Char) : Str :=
  if c = '"' then str "\\\""
  else if c = '\\' then str "\\\\"
  else if c = '\n' then str "\\n"
  else if c = '\r' then str "\\r"
  else if c = '\t' then str "\\t"
  else if c.toNat < 0x20 then
    str "\\u" ++ [3, 2, 1, 0].map fun i => ObjectId.hexDigit (c.toNat / 16 ^ i % 16)
  else [c]

/-- The literal of a text. -/
def escape (s : Str) : Str := '"' :: s.flatMap escapeChar ++ ['"']

/-- Skips blanks and line ends. -/
def skipWs (rest : Bytes) : Bytes := rest.dropWhile fun b => b == 32 || b == 9 || b == 10 || b == 13

/-- The value of a hex digit. -/
def hexByte (b : UInt8) : Option Nat :=
  if 48 ≤ b ∧ b ≤ 57 then some (b.toNat - 48)
  else if 97 ≤ b ∧ b ≤ 102 then some (b.toNat - 97 + 10)
  else if 65 ≤ b ∧ b ≤ 70 then some (b.toNat - 65 + 10)
  else none

/-- Reads some more hex digits. -/
def hexFrom : Nat → Nat → Bytes → Except Error (Nat × Bytes)
  | 0, v, rest => .ok (v, rest)
  | _ + 1, _, [] => .error (.parse (str "json: short \\u escape"))
  | n + 1, v, b :: rest =>
    match hexByte b with
    | some d => hexFrom n (v * 16 + d) rest
    | none => .error (.parse (str "json: bad \\u hex"))

/-- Reads four hex digits. -/
def hex4 (rest : Bytes) : Except Error (Nat × Bytes) := hexFrom 4 0 rest

/-- What an escape of one letter stands for. -/
def unescape (e : UInt8) : Option Char :=
  if e = 34 then some '"'
  else if e = 92 then some '\\'
  else if e = 47 then some '/'
  else if e = 110 then some '\n'
  else if e = 114 then some '\r'
  else if e = 116 then some '\t'
  else if e = 98 then some (Char.ofNat 0x08)
  else if e = 102 then some (Char.ofNat 0x0C)
  else none

/-- A continuation byte of UTF-8. -/
def isContinuation (b : UInt8) : Bool := b &&& 0xC0 == 0x80

theorem hexFrom_length {n v : Nat} {rest : Bytes} {r : Nat × Bytes} (h : hexFrom n v rest = .ok r) :
    r.2.length ≤ rest.length := by
  induction n generalizing v rest with
  | zero =>
      cases h
      exact le_rfl
  | succ n ih =>
      cases rest with
      | nil => cases h
      | cons b rest =>
          rw [hexFrom] at h
          split at h
          · exact Nat.le_succ_of_le (ih h)
          · cases h

/-- Reads a literal from behind its first quote. -/
def stringFrom (out : Str) : Bytes → Except Error (Str × Bytes)
  | [] => .error (.parse (str "json: unterminated string"))
  | b :: rest =>
    if b = 34 then .ok (out, rest)
    else if b = 92 then
      match rest with
      | [] => .error (.parse (str "json: bad escape"))
      | e :: rest =>
        if e = 117 then
          match h : hex4 rest with
          | .ok r =>
            have := hexFrom_length h
            stringFrom (out ++ [(scalar 0 r.1).getD replacementChar]) r.2
          | .error e => .error e
        else match unescape e with
          | some c => stringFrom (out ++ [c]) rest
          | none => .error (.parse (str "json: bad escape"))
    else
      match fromUtf8 (b :: rest.takeWhile isContinuation) with
      | some s =>
        have := (List.dropWhile_suffix (l := rest) isContinuation).length_le
        stringFrom (out ++ s) (rest.dropWhile isContinuation)
      | none => .error (.parse (str "json: bad utf-8 in string"))
  termination_by rest => rest.length
  decreasing_by all_goals simp only [List.length_cons]; omega

/-- Reads a literal. -/
def string : Bytes → Except Error (Str × Bytes)
  | 34 :: rest => stringFrom [] rest
  | _ => .error (.parse (str "json: expected string"))

variable {ν : Type} (parseF64 : Str → Option ν)

/-- Reads `true` or `false`. -/
def boolean (rest : Bytes) : Except Error (Json ν × Bytes) :=
  match stripPrefix? (bytes "true") rest, stripPrefix? (bytes "false") rest with
  | some rest, _ => .ok (.bool true, rest)
  | _, some rest => .ok (.bool false, rest)
  | _, _ => .error (.parse (str "json: invalid literal"))

/-- Reads `null`. -/
def null (rest : Bytes) : Except Error (Json ν × Bytes) :=
  match stripPrefix? (bytes "null") rest with
  | some rest => .ok (.null, rest)
  | none => .error (.parse (str "json: invalid literal"))

/-- A byte of a number. -/
def isNumberByte (b : UInt8) : Bool := (48 ≤ b && b ≤ 57) || b ∈ bytes "-+.eE"

/-- Reads a number. -/
def number (rest : Bytes) : Except Error (Json ν × Bytes) :=
  match (fromUtf8 (rest.takeWhile isNumberByte)).bind parseF64 with
  | some n => .ok (.num n, rest.dropWhile isNumberByte)
  | none => .error (.parse (str "json: bad number"))

/-- Reads the members of an object.  Each takes a byte at least, so there are fewer than bytes. -/
def membersFrom (value : Bytes → Except Error (Json ν × Bytes)) :
    Nat → List (Str × Json ν) → Bytes → Except Error (Json ν × Bytes)
  | 0, _, _ => .error (.parse (str "json: expected ',' or '\x7d'"))
  | n + 1, pairs, rest => do
    let (key, rest) ← string (skipWs rest)
    match skipWs rest with
    | 58 :: rest => do
      let (val, rest) ← value rest
      match skipWs rest with
      | 44 :: rest => membersFrom value n (pairs ++ [(key, val)]) rest
      | 125 :: rest => .ok (.obj (pairs ++ [(key, val)]), rest)
      | _ => .error (.parse (str "json: expected ',' or '\x7d'"))
    | _ => .error (.parse (str "json: expected ':'"))

/-- Reads an object from behind its brace. -/
def object (value : Bytes → Except Error (Json ν × Bytes)) (rest : Bytes) :
    Except Error (Json ν × Bytes) :=
  match skipWs rest with
  | 125 :: rest => .ok (.obj [], rest)
  | rest => membersFrom value (rest.length + 1) [] rest

/-- Reads the items of an array. -/
def itemsFrom (value : Bytes → Except Error (Json ν × Bytes)) :
    Nat → List (Json ν) → Bytes → Except Error (Json ν × Bytes)
  | 0, _, _ => .error (.parse (str "json: expected ',' or ']'"))
  | n + 1, items, rest => do
    let (val, rest) ← value rest
    match skipWs rest with
    | 44 :: rest => itemsFrom value n (items ++ [val]) rest
    | 93 :: rest => .ok (.arr (items ++ [val]), rest)
    | _ => .error (.parse (str "json: expected ',' or ']'"))

/-- Reads an array from behind its bracket. -/
def array (value : Bytes → Except Error (Json ν × Bytes)) (rest : Bytes) :
    Except Error (Json ν × Bytes) :=
  match skipWs rest with
  | 93 :: rest => .ok (.arr [], rest)
  | rest => itemsFrom value (rest.length + 1) [] rest

/-- Reads a value, of which an object and an array are read by the functions given. -/
def valueBy (object array : Bytes → Except Error (Json ν × Bytes)) (rest : Bytes) :
    Except Error (Json ν × Bytes) :=
  match skipWs rest with
  | 123 :: rest => object rest
  | 91 :: rest => array rest
  | 34 :: rest => (stringFrom [] rest).map fun r => (.str r.1, r.2)
  | rest =>
    match rest.head? with
    | some b =>
      if b = 116 ∨ b = 102 then boolean rest
      else if b = 110 then null rest
      else if b = 45 ∨ (48 ≤ b ∧ b ≤ 57) then number parseF64 rest
      else .error (.parse (str "json: unexpected token"))
    | none => .error (.parse (str "json: unexpected token"))

/-- Reads a value in which objects and arrays may nest to a depth. -/
def value : Nat → Bytes → Except Error (Json ν × Bytes)
  | 0 => valueBy parseF64 (fun _ => .error (.parse (str "json: nesting too deep")))
      fun _ => .error (.parse (str "json: nesting too deep"))
  | left + 1 => valueBy parseF64 (object (value left)) (array (value left))

/-- Parses a document. -/
def parse (input : Str) : Except Error (Json ν) := do
  let (v, rest) ← value parseF64 maxDepth (skipWs (toUtf8 input))
  if skipWs rest = [] then .ok v
  else .error (.parse (str "json: trailing data"))

/-! ## The characters of a literal -/

theorem isContinuation_ofNat {n : Nat} (h : n < 256) :
    isContinuation (UInt8.ofNat n) = decide (0x80 ≤ n ∧ n < 0xC0) := by
  have hall : ∀ n < 256, isContinuation (UInt8.ofNat n) = decide (0x80 ≤ n ∧ n < 0xC0) := by
    decide +kernel
  exact hall n h

/-- A character is a byte that does not continue another and bytes that continue it. -/
theorem exists_utf8Char (c : Char) :
    ∃ lead conts, utf8Char c = lead :: conts ∧ isContinuation lead = false ∧
    ∀ b ∈ conts, isContinuation b = true := by
  have hmax : c.toNat < 0x110000 := by
    rcases c.valid with h | h
    · exact Nat.lt_trans h (by decide)
    · exact h.2
  have hcont : ∀ x, isContinuation (UInt8.ofNat (0x80 + x % 64)) = true := by
    intro x
    have hx : x % 64 < 64 := Nat.mod_lt x (by decide)
    rw [isContinuation_ofNat (by omega), decide_eq_true_iff]
    omega
  have hlead : ∀ n, n < 256 → n < 0x80 ∨ 0xC0 ≤ n → isContinuation (UInt8.ofNat n) = false := by
    intro n hn hside
    rw [isContinuation_ofNat hn, decide_eq_false_iff_not]
    omega
  rw [utf8Char]
  split
  · exact ⟨_, _, rfl, hlead _ (by omega) (by omega), List.forall_mem_nil _⟩
  split
  · exact ⟨_, _, rfl, hlead _ (by omega) (by omega), List.forall_mem_singleton.mpr (hcont _)⟩
  split
  · exact ⟨_, _, rfl, hlead _ (by omega) (by omega), List.forall_mem_cons.mpr ⟨hcont _,
      List.forall_mem_singleton.mpr (hcont _)⟩⟩
  · exact ⟨_, _, rfl, hlead _ (by omega) (by omega), List.forall_mem_cons.mpr ⟨hcont _,
      List.forall_mem_cons.mpr ⟨hcont _, List.forall_mem_singleton.mpr (hcont _)⟩⟩⟩

/-- Bytes that begin a character, or end a literal. -/
def Begins (rest : Bytes) : Prop := rest.takeWhile isContinuation = []

theorem begins_toUtf8 (t : Str) (rest : Bytes) : Begins (toUtf8 t ++ 34 :: rest) := by
  cases t with
  | nil => rfl
  | cons c t =>
      obtain ⟨lead, conts, hc, hlead, -⟩ := exists_utf8Char c
      rw [Begins, toUtf8_cons, hc, List.append_assoc, List.cons_append,
        List.takeWhile_cons_of_neg (by simp [hlead])]

/-- A character that is no quote and no backslash is copied. -/
theorem stringFrom_raw {c : Char} (hc : c ≠ '"' ∧ c ≠ '\\') {rest : Bytes}
    (hrest : Begins rest) (out : Str) :
    stringFrom out (utf8Char c ++ rest) = stringFrom (out ++ [c]) rest := by
  obtain ⟨lead, conts, heq, -, hconts⟩ := exists_utf8Char c
  have hmark : ∀ b ∈ utf8Char c, b ≠ 34 ∧ b ≠ 92 := by
    intro b hb
    constructor
    · rintro rfl
      exact hc.1 ((ascii_mem_utf8Char (by decide)).mp hb)
    · rintro rfl
      exact hc.2 ((ascii_mem_utf8Char (by decide)).mp hb)
  have hlead := hmark lead (heq ▸ List.mem_cons_self)
  have hdrop : rest.dropWhile isContinuation = rest := by
    have h := List.takeWhile_append_dropWhile (p := isContinuation) (l := rest)
    rwa [hrest, List.nil_append] at h
  have hchar : fromUtf8 (lead :: conts) = some [c] := by
    rw [← heq, ← List.append_nil (utf8Char c)]
    exact fromUtf8_toUtf8 [c]
  rw [heq, List.cons_append, stringFrom.eq_def]
  simp only
  rw [if_neg hlead.1, if_neg hlead.2, List.takeWhile_append_of_pos hconts, hrest,
    List.append_nil, hchar,
    List.dropWhile_append_of_pos hconts, hdrop]

theorem utf8Char_of_lt {c : Char} (h : c.toNat < 0x80) : utf8Char c = [UInt8.ofNat c.toNat] := by
  rw [utf8Char]
  exact if_pos h

open JsonString

/-- An escape of two characters is decoded. -/
theorem stringFrom_short {e c : Char} (h : shortEscape e = some c) (out : Str) (rest : Bytes) :
    stringFrom out (toUtf8 ['\\', e] ++ rest) = stringFrom (out ++ [c]) rest := by
  have hlow : e.toNat < 128 := by
    by_contra hlarge
    have hne : ∀ d : Char, d.toNat < 128 → e ≠ d := by
      rintro d hd rfl
      exact hlarge hd
    rw [shortEscape, if_neg, if_neg (hne _ (by decide)), if_neg (hne _ (by decide)),
      if_neg (hne _ (by decide)),
      if_neg (hne _ (by decide)), if_neg (hne _ (by decide))] at h
    · cases h
    · rintro (heq | heq | heq)
      · exact hne _ (by decide) heq
      · exact hne _ (by decide) heq
      · exact hne _ (by decide) heq
  have hall : ∀ n < 128, unescape (UInt8.ofNat n) = shortEscape (Char.ofNat n) ∧
      (UInt8.ofNat n = 117 → shortEscape (Char.ofNat n) = none) := by
    decide
  obtain ⟨hdecode, hu⟩ := hall e.toNat hlow
  rw [Char.ofNat_toNat, h] at hdecode hu
  rw [toUtf8_cons, toUtf8_cons, utf8Char_of_lt hlow]
  show stringFrom out (92 :: UInt8.ofNat e.toNat :: rest) = _
  rw [stringFrom, if_neg (by decide), if_pos rfl]
  simp only
  rw [if_neg fun heq => nomatch hu heq]
  simp only [hdecode]

theorem hexByte_digit (d : HexDigit) : ∃ b, utf8Char d.1 = [b] ∧ hexByte b = some d.value := by
  obtain ⟨c, hc⟩ := d
  have hlow : c.toNat < 128 := by
    by_contra hlarge
    have hle : ∀ x y : Char, x ≤ y ↔ x.toNat ≤ y.toNat := fun _ _ => UInt32.le_iff_toNat_le
    simp only [hexValue, hle, Char.reduceToNat] at hc
    rw [if_neg (by omega), if_neg (by omega), if_neg (by omega)] at hc
    cases hc
  have hall : ∀ n < 128, hexByte (UInt8.ofNat n) = hexValue (Char.ofNat n) := by
    decide
  refine ⟨_, utf8Char_of_lt hlow, ?_⟩
  rw [hall _ hlow, Char.ofNat_toNat, HexDigit.value, Option.some_get]

theorem hex4_codeUnit (u : CodeUnit) (rest : Bytes) :
    hex4 (toUtf8 [u.a.1, u.b.1, u.c.1, u.d.1] ++ rest) = .ok (u.value, rest) := by
  obtain ⟨a, ha, hva⟩ := hexByte_digit u.a
  obtain ⟨b, hb, hvb⟩ := hexByte_digit u.b
  obtain ⟨c, hc, hvc⟩ := hexByte_digit u.c
  obtain ⟨d, hd, hvd⟩ := hexByte_digit u.d
  rw [toUtf8_cons, toUtf8_cons, toUtf8_cons, toUtf8_cons, ha, hb, hc, hd]
  show hexFrom 4 0 (a :: b :: c :: d :: rest) = _
  simp only [hexFrom, hva, hvb, hvc, hvd]
  rw [CodeUnit.value, Nat.zero_mul, Nat.zero_add]

/-- What the escape of a code unit is decoded to, by itself. -/
def readUnit (u : CodeUnit) : Char := (scalar 0 u.value).getD replacementChar

theorem stringFrom_unit (u : CodeUnit) (out : Str) (rest : Bytes) :
    stringFrom out (toUtf8 u.text ++ rest) = stringFrom (out ++ [readUnit u]) rest := by
  have htext : toUtf8 u.text ++ rest = 92 :: 117 :: (toUtf8 [u.a.1, u.b.1, u.c.1, u.d.1] ++ rest) :=
    rfl
  rw [htext, stringFrom, if_neg (by decide), if_pos rfl]
  simp only [if_true]
  split
  · rename_i r hr
    rw [hex4_codeUnit] at hr
    cases hr
    rfl
  · rename_i e hr
    rw [hex4_codeUnit] at hr
    cases hr

/-- What a piece is decoded to. -/
def readPiece : Piece → Str
  | .raw c _ => [c]
  | .short _ c _ => [c]
  | .unit u _ => [readUnit u]
  | .pair high low _ => [readUnit high, readUnit low]

/-- **The pieces of a literal are decoded one by one.** -/
theorem stringFrom_pieces (pieces : List Piece) (out : Str) (rest : Bytes) :
    stringFrom out (toUtf8 (pieces.flatMap Piece.text) ++ 34 :: rest) =
      .ok (out ++ pieces.flatMap readPiece, rest) := by
  induction pieces generalizing out with
  | nil =>
      rw [List.flatMap_nil, List.flatMap_nil, List.append_nil, toUtf8_nil, List.nil_append,
        stringFrom.eq_def]
      exact if_pos rfl
  | cons piece pieces ih =>
      rw [List.flatMap_cons, toUtf8_append, List.append_assoc, List.flatMap_cons,
        ← List.append_assoc out, ← ih]
      cases piece with
      | raw c hc =>
          have htext : toUtf8 (Piece.raw c hc).text = utf8Char c := List.append_nil _
          rw [htext, stringFrom_raw ⟨hc.1, hc.2.1⟩ (begins_toUtf8 _ _)]
          rfl
      | short e c h => exact stringFrom_short h out _
      | unit u hu => exact stringFrom_unit u out _
      | pair high low hs =>
          rw [Piece.text, toUtf8_append, List.append_assoc, stringFrom_unit, stringFrom_unit,
            List.append_assoc]
          rfl

/-! ## Documents that are a literal -/

theorem parse_literal (pieces : List Piece) :
    parse parseF64 (literal pieces) = .ok (.str (pieces.flatMap readPiece)) := by
  have hbytes : toUtf8 (literal pieces) =
      34 :: (toUtf8 (pieces.flatMap Piece.text) ++ 34 :: []) := by
    rw [literal, toUtf8_append, toUtf8_cons, List.append_assoc]
    rfl
  have hskip : ∀ rest, skipWs (34 :: rest) = 34 :: rest := fun _ => rfl
  have hvalue : value parseF64 maxDepth (toUtf8 (literal pieces)) =
      .ok (.str (pieces.flatMap readPiece), []) := by
    rw [hbytes, maxDepth, value, valueBy, hskip]
    simp only
    rw [stringFrom_pieces]
    rfl
  have hstart : skipWs (toUtf8 (literal pieces)) = toUtf8 (literal pieces) := by
    rw [hbytes, hskip]
  rw [parse, hstart, hvalue]
  rfl

/-- A piece that is no surrogate pair is decoded to what it denotes. -/
theorem readPiece_eq {p : Piece} (h : ¬p.IsPair) : readPiece p = [p.char] := by
  cases p with
  | raw c hc => rfl
  | short e c hc => rfl
  | unit u hu =>
      have hvalid : u.value.isValidChar := by
        have hlt := u.value_lt
        rw [CodeUnit.High, CodeUnit.Low] at hu
        rw [Nat.isValidChar]
        omega
      rw [readPiece, readUnit, scalar, if_pos ⟨Nat.zero_le _, hvalid⟩]
      rfl
  | pair high low hs => exact absurd trivial h

theorem readPiece_ne_nil (p : Piece) : 1 ≤ (readPiece p).length := by
  cases p with
  | raw c hc => exact le_rfl
  | short e c hc => exact le_rfl
  | unit u hu => exact le_rfl
  | pair high low hs => exact Nat.le_succ 1

theorem length_le_flatMap_readPiece (pieces : List Piece) :
    pieces.length ≤ (pieces.flatMap readPiece).length := by
  induction pieces with
  | nil => exact le_rfl
  | cons p pieces ih =>
      rw [List.flatMap_cons, List.length_cons, List.length_append, Nat.add_comm]
      exact Nat.add_le_add (readPiece_ne_nil p) ih

/-- A surrogate pair is decoded to two characters, and no other piece makes up for that. -/
theorem flatMap_readPiece_iff {pieces : List Piece} :
    pieces.flatMap readPiece = pieces.map Piece.char ↔ ∀ p ∈ pieces, ¬p.IsPair := by
  induction pieces with
  | nil => simp
  | cons p pieces ih =>
      rw [List.flatMap_cons, List.map_cons, List.forall_mem_cons]
      by_cases hp : p.IsPair
      · refine iff_of_false (fun h => ?_) fun h => h.1 hp
        have htwo : (readPiece p).length = 2 := by
          cases p with
          | pair high low hs => rfl
          | _ => exact absurd hp id
        have hlength := congrArg List.length h
        rw [List.length_append, htwo, List.length_cons, List.length_map] at hlength
        have hle := length_le_flatMap_readPiece pieces
        omega
      · rw [readPiece_eq hp, List.singleton_append, ← ih]
        exact ⟨fun h => ⟨hp, (List.cons.inj h).2⟩, fun h => congrArg (_ :: ·) h.2⟩

theorem hexValue_hexDigit {n : Nat} (h : n < 16) : hexValue (ObjectId.hexDigit n) = some n := by
  have hall : ∀ n < 16, hexValue (ObjectId.hexDigit n) = some n := by
    decide
  exact hall n h

/-- The hex digit of a number. -/
def hexDigitOf (n : Nat) : HexDigit :=
  ⟨ObjectId.hexDigit (n % 16), by rw [hexValue_hexDigit (Nat.mod_lt n (by decide))]; rfl⟩

theorem hexDigitOf_value (n : Nat) : (hexDigitOf n).value = n % 16 := by
  have h := hexValue_hexDigit (Nat.mod_lt n (show 16 > 0 by decide))
  rw [HexDigit.value, hexDigitOf]
  simp only [h, Option.get_some]

/-- What is written for a character denotes it, and is no surrogate pair. -/
theorem exists_piece (c : Char) : ∃ p : Piece, p.text = escapeChar c ∧ p.char = c ∧ ¬p.IsPair := by
  have hshort : ∀ e : Char, shortEscape e = some c → escapeChar c = ['\\', e] →
      ∃ p : Piece, p.text = escapeChar c ∧ p.char = c ∧ ¬p.IsPair :=
        fun e h heq => ⟨.short e c h, heq.symm, rfl, id⟩
  by_cases hquote : c = '"'
  · subst hquote
    exact hshort '"' rfl rfl
  by_cases hslash : c = '\\'
  · subst hslash
    exact hshort '\\' rfl rfl
  by_cases hn : c = '\n'
  · subst hn
    exact hshort 'n' rfl rfl
  by_cases hr : c = '\r'
  · subst hr
    exact hshort 'r' rfl rfl
  by_cases ht : c = '\t'
  · subst ht
    exact hshort 't' rfl rfl
  rw [escapeChar, if_neg hquote, if_neg hslash, if_neg hn, if_neg hr, if_neg ht]
  by_cases hcontrol : c.toNat < 0x20
  · let u : CodeUnit := ⟨hexDigitOf (c.toNat / 16 ^ 3), hexDigitOf (c.toNat / 16 ^ 2),
      hexDigitOf (c.toNat / 16 ^ 1),
      hexDigitOf (c.toNat / 16 ^ 0)⟩
    have hvalue : u.value = c.toNat := by
      rw [CodeUnit.value, hexDigitOf_value, hexDigitOf_value, hexDigitOf_value, hexDigitOf_value]
      omega
    refine ⟨.unit u ?_, ?_, ?_, id⟩
    · rw [CodeUnit.High, CodeUnit.Low, hvalue]
      omega
    · rw [if_pos hcontrol]
      rfl
    · rw [Piece.char, hvalue, Char.ofNat_toNat]
  · rw [if_neg hcontrol]
    exact ⟨.raw c ⟨hquote, hslash, not_lt.mp hcontrol⟩, rfl, rfl, id⟩

/-- **A text is written as a literal that denotes it**, without surrogate pairs. -/
theorem exists_escape (s : Str) :
    ∃ pieces, literal pieces = escape s ∧ pieces.map Piece.char = s ∧ ∀ p ∈ pieces, ¬p.IsPair := by
  induction s with
  | nil => exact ⟨[], rfl, rfl, List.forall_mem_nil _⟩
  | cons c s ih =>
      obtain ⟨p, htext, hchar, hp⟩ := exists_piece c
      obtain ⟨pieces, hliteral, hchars, hpieces⟩ := ih
      refine ⟨p :: pieces, ?_, by rw [List.map_cons, hchar,
        hchars], List.forall_mem_cons.mpr ⟨hp, hpieces⟩⟩
      rw [literal, escape, List.cons_append, List.cons_append, List.cons_inj_right,
        List.append_left_inj] at hliteral
      rw [literal, escape, List.flatMap_cons, List.flatMap_cons, htext, hliteral]

/-- **A literal is read as what it denotes** exactly when it has no surrogate pair; a text that is
written and read is the same. -/
theorem parse_literal_iff (pieces : List Piece) (s : Str) :
    (parse parseF64 (literal pieces) = .ok (.str (pieces.map Piece.char)) ↔
      ∀ p ∈ pieces, ¬p.IsPair) ∧
      parse parseF64 (escape s) = .ok (.str s) := by
  constructor
  · rw [parse_literal, ← flatMap_readPiece_iff]
    exact ⟨fun h => Json.str.inj (Except.ok.inj h), fun h => congrArg _ (congrArg _ h)⟩
  · obtain ⟨pieces, hliteral, hchars, hpieces⟩ := exists_escape s
    rw [← hliteral, parse_literal, flatMap_readPiece_iff.mpr hpieces, hchars]

/-- The escape of a code unit by its digits. -/
def codeUnit (n : Nat) : CodeUnit :=
  ⟨hexDigitOf (n / 4096), hexDigitOf (n / 256), hexDigitOf (n / 16), hexDigitOf n⟩

/-- A smiling face, as an encoder of ASCII writes it. -/
def face : Piece :=
  .pair (codeUnit 0xD83D) (codeUnit 0xDE00) ⟨⟨by decide, by decide⟩, by decide, by decide⟩

/-- **A surrogate pair is not read**: the document `"\ud83d\ude00"` is not read as the face. -/
theorem not_parse_literal : ¬∀ l s : Str, JsonString.Denotes l s →
    parse (fun _ => some ()) l = .ok (.str s) := by
  intro h
  have hface := h (literal [face]) [face.char] ⟨_, rfl, rfl⟩
  rw [parse_literal] at hface
  have hread := flatMap_readPiece_iff.mp (Json.str.inj (Except.ok.inj hface))
  exact hread face List.mem_cons_self trivial

end JsonParser
end Puregit
