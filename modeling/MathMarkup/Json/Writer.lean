import MathMarkup.Decimal.Shortest
import MathMarkup.Json.Basic

/-!
# Writing JSON

The compact form: no blanks, fields in key order, and in strings only what must be escaped is
escaped. Characters beyond ASCII stand for themselves.
-/

namespace MathMarkup.Json

/-- A control character's escape in four hexadecimal digits. -/
def unicodeEscape (c : Char) : String :=
  let n := c.toNat
  "\\u00" ++ String.ofList [Nat.digitChar (n / 16), Nat.digitChar (n % 16)]

/-- A character inside a string. -/
def escapeChar (c : Char) : String :=
  if c == '"' then "\\\""
  else if c == '\\' then "\\\\"
  else if c == '\n' then "\\n"
  else if c == '\r' then "\\r"
  else if c == '\t' then "\\t"
  else if c == '\x08' then "\\b"
  else if c == '\x0c' then "\\f"
  else if c.toNat < 0x20 then unicodeEscape c
  else String.ofList [c]

/-- A string in quotes. -/
def writeString (s : String) : String :=
  "\"" ++ String.join (s.toList.map escapeChar) ++ "\""

mutual
/-- The compact text of a value. -/
def write : Json → String
  | .null => "null"
  | .bool true => "true"
  | .bool false => "false"
  | .int n => toString n
  | .real x => Layout.wire.write x
  | .str s => writeString s
  | .arr items => "[" ++ ",".intercalate (writeAll items) ++ "]"
  | .obj fields => "\x7b" ++ ",".intercalate (writeFields fields) ++ "\x7d"
/-- The compact texts of some values. -/
def writeAll : List Json → List String
  | [] => []
  | v :: vs => write v :: writeAll vs
/-- The compact texts of some fields. -/
def writeFields : List (String × Json) → List String
  | [] => []
  | (k, v) :: rest => (writeString k ++ ":" ++ write v) :: writeFields rest
end

end MathMarkup.Json
