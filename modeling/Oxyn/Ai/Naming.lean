/-
# `Oxyn.Ai.Naming` — names, as a prompt writes them

A name is quoted as the SQL dialect quotes it, so that the model can copy it, or written as a JSON
literal.
-/
import Oxyn.Ai.Untrusted
import Oxyn.Catalog.Quote

namespace Oxyn.Ai

open Text

/-! ## Line breaks -/

/-- A character that cuts or hides a line for whoever reads the rendering. -/
def breaksLine (c : Char) : Bool := isControl c || c = '\u2028' || c = '\u2029'

/-! ## Literals -/

/-- A hexadecimal digit, in lower case. -/
def hexDigit (n : Nat) : Char := Nat.digitChar (n % 16)

/-- `\uXXXX`. -/
def unicodeEscape (c : Char) : Str :=
  ['\\', 'u', hexDigit (c.toNat / 4096), hexDigit (c.toNat / 256), hexDigit (c.toNat / 16),
    hexDigit c.toNat]

/-- A character inside a string, as `serde_json` writes it. -/
def serdeChar (c : Char) : Str :=
  if c = '"' then ['\\', '"']
  else if c = '\\' then ['\\', '\\']
  else if c = '\u0008' then ['\\', 'b']
  else if c = '\t' then ['\\', 't']
  else if c = '\n' then ['\\', 'n']
  else if c = '\u000c' then ['\\', 'f']
  else if c = '\r' then ['\\', 'r']
  else if c.toNat < 0x20 then unicodeEscape c
  else [c]

/-- `serde_json::to_string` of a text. -/
def serdeString (raw : Str) : Str := '"' :: raw.flatMap serdeChar ++ ['"']

def jsonLiteral (raw : Str) : Str :=
  (serdeString raw).flatMap fun c => if breaksLine c then unicodeEscape c else [c]

/-! ## Names -/

/-- The way to write a name for the model. -/
inductive Naming where
  | quoted (style : QuoteStyle)
  | literal
deriving DecidableEq

namespace Naming

def forLanguage : QueryLanguage → Naming
  | .sql dialect => .quoted (.forDialect dialect)
  | _ => .literal

def name (naming : Naming) (raw : Str) : Str :=
  match naming with
  | .quoted style =>
    if raw.any breaksLine then jsonLiteral raw ++ " (name contains control characters)".toList
    else quoteIdentifier raw style
  | .literal => jsonLiteral raw

def path (naming : Naming) (path : CatalogPath) : Str :=
  List.intercalate ['.'] (path.segments.map fun segment => naming.name segment.val)

def list (naming : Naming) (names : List Str) : Str :=
  List.intercalate ", ".toList (names.map naming.name)

end Naming

end Oxyn.Ai
