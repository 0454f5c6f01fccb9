import Puregit.Lib.Text

/-! # The crate-wide error type

Every fallible operation returns `Except Error`.  A variant names the layer that
failed and carries the text of the failure; `Error.toStr` is the text a report
line shows. -/
namespace Puregit

/-- The four git object types. -/
inductive ObjectType where
  | blob
  | tree
  | commit
  | tag
  deriving DecidableEq, Repr

/-- The keyword used in the loose-object header and in tag fields. -/
def ObjectType.asStr : ObjectType → Str
  | .blob => str "blob"
  | .tree => str "tree"
  | .commit => str "commit"
  | .tag => str "tag"

/-- What a failed lookup was looking for. -/
inductive ObjectKindHint where
  | object (hex : Str)
  | reference (name : Str)
  deriving DecidableEq, Repr

/-- Errors produced anywhere in the crate. -/
inductive Error where
  | parse (m : Str)
  | compression (m : Str)
  | invalidOid (m : Str)
  | notFound (hint : ObjectKindHint)
  | unexpectedType (expected actual : ObjectType)
  | reference (m : Str)
  | pack (m : Str)
  | protocol (m : Str)
  | config (m : Str)
  | io (m : Str)
  | unsupported (m : Str)
  deriving DecidableEq, Repr

namespace Error

/-- The text of an error, as `Display` formats it. -/
def toStr : Error → Str
  | parse m => str "parse error: " ++ m
  | compression m => str "compression error: " ++ m
  | invalidOid m => str "invalid object id: " ++ m
  | notFound (.object id) => str "object not found: " ++ id
  | notFound (.reference r) => str "reference not found: " ++ r
  | unexpectedType expected actual =>
      str "expected a " ++ expected.asStr ++ str " object, found a " ++ actual.asStr
  | reference m => str "reference error: " ++ m
  | pack m => str "packfile error: " ++ m
  | protocol m => str "protocol error: " ++ m
  | config m => str "config error: " ++ m
  | io m => str "io error: " ++ m
  | unsupported m => str "unsupported: " ++ m

/-- Whether the error says that an object or a ref is absent. -/
def isNotFound : Error → Bool
  | notFound _ => true
  | _ => false

end Error

/-- The digits of `n`, most significant first. -/
def natStr (n : Nat) : Str := Nat.toDigits 10 n

/-- A character as the debug format shows it between `quote`s: the quote, backslashes
and control characters are escaped.  Unprintable characters above U+00FF are left as
they are. -/
def debugChar (quote c : Char) : Str :=
  let n := c.toNat
  if c = quote ∨ c = '\\' then ['\\', c]
  else if c = '\n' then str "\\n"
  else if c = '\r' then str "\\r"
  else if c = '\t' then str "\\t"
  else if n = 0 then str "\\0"
  else if n < 0x20 ∨ (0x7f ≤ n ∧ n < 0xa0) ∨ n = 0xad then
    str "\\u" ++ Char.ofNat 123 :: Nat.toDigits 16 n ++ [Char.ofNat 125]
  else [c]

/-- The debug format of a text. -/
def debugStr (s : Str) : Str := '"' :: s.flatMap (debugChar '"') ++ ['"']

end Puregit
