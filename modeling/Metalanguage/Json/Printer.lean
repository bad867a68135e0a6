import Metalanguage.Json.Basic

/-!
# Json/Printer — writing JSON text

`compact` writes a value on one line without blanks, `pretty` one item or member a line, two spaces
deeper for every level. Strings escape quotes, backslashes and control characters and nothing else.
-/

namespace Metalanguage.Json

/-! ## Strings and numbers -/

/-- The digit of a number below sixteen, in lower case. -/
def hexChar (n : Nat) : Char :=
  if n < 10 then Char.ofNat ('0'.toNat + n) else Char.ofNat ('a'.toNat + (n - 10))

/-- How a character is written inside a string. -/
def escapeChar (c : Char) : List Char :=
  if c == '"' then ['\\', '"']
  else if c == '\\' then ['\\', '\\']
  else if c == '\n' then ['\\', 'n']
  else if c == '\r' then ['\\', 'r']
  else if c == '\t' then ['\\', 't']
  else if c == '\x08' then ['\\', 'b']
  else if c == '\x0c' then ['\\', 'f']
  else if c.toNat < 0x20 then
    ['\\', 'u', '0', '0', hexChar (c.toNat / 16), hexChar (c.toNat % 16)]
  else [c]

/-- A text in quotes. -/
def quote (s : String) : String := "\"" ++ String.ofList (s.toList.flatMap escapeChar) ++ "\""

/-- How a string is written; one that stands for no text is written as the replacement character. -/
def Str.written : Str → String
  | some s => quote s
  | none => quote "\ufffd"

/-- How a number is written. -/
def Number.written : Number → String
  | .integer negative n => (if negative then "-" else "") ++ toString n
  | .decimal written => written

/-! ## Values -/

mutual

/-- A value on one line. -/
def compact : Json → String
  | .null => "null"
  | .bool b => if b then "true" else "false"
  | .number n => n.written
  | .string s => Str.written s
  | .array items => "[" ++ ",".intercalate (compactItems items) ++ "]"
  | .object members => "\x7b" ++ ",".intercalate (compactMembers members) ++ "\x7d"

/-- The items of an array. -/
def compactItems : List Json → List String
  | [] => []
  | v :: rest => compact v :: compactItems rest

/-- The members of an object. -/
def compactMembers : List (Str × Json) → List String
  | [] => []
  | (name, v) :: rest => (Str.written name ++ ":" ++ compact v) :: compactMembers rest

end

/-- A list of parts between brackets, one part a line at the given indent. -/
def block (opening closing indent : String) : List String → String
  | [] => opening ++ closing
  | parts =>
    let line := "\n" ++ indent ++ "  "
    opening ++ line ++ ("," ++ line).intercalate parts ++ "\n" ++ indent ++ closing

mutual

/-- A value over several lines, all but the first at the given indent. -/
def pretty (indent : String) : Json → String
  | .array items => block "[" "]" indent (prettyItems (indent ++ "  ") items)
  | .object members => block "\x7b" "\x7d" indent (prettyMembers (indent ++ "  ") members)
  | .null => "null"
  | .bool b => if b then "true" else "false"
  | .number n => n.written
  | .string s => Str.written s

/-- The items of an array. -/
def prettyItems (indent : String) : List Json → List String
  | [] => []
  | v :: rest => pretty indent v :: prettyItems indent rest

/-- The members of an object. -/
def prettyMembers (indent : String) : List (Str × Json) → List String
  | [] => []
  | (name, v) :: rest =>
    (Str.written name ++ ": " ++ pretty indent v) :: prettyMembers indent rest

end

end Metalanguage.Json
