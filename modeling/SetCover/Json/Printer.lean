import SetCover.Json.Value

/-!
# Writing JSON

Two layouts: without any blanks, and with one item or field per line, indented by two blanks.

* `compactText`, `prettyText`: the two layouts.
* `quoted`: a string with its escapes.
* `Json.ofNat`, `Json.ofString`: values for numbers and texts.
-/

namespace SetCover.Json

/-! ## Values -/

/-- A natural number. -/
def ofNat (n : Nat) : Json := .number ⟨false, (toString n).toList, none, none⟩

/-- A text. -/
def ofString (s : String) : Json := .text (some s)

/-- A list of natural numbers. -/
def ofNats (ns : List Nat) : Json := .array (ns.map ofNat)

/-- An object. -/
def ofFields (fields : List (String × Json)) : Json :=
  .object (fields.map fun (key, v) => (some key, v))

/-! ## Strings and numbers -/

/-- The hexadecimal digits of a number below 256. -/
def hexByte (n : Nat) : List Char := [Nat.digitChar (n / 16), Nat.digitChar (n % 16)]

/-- A character inside of a string. Quotes, backslashes and control characters are escaped. -/
def escaped (c : Char) : List Char :=
  if c == '"' then ['\\', '"']
  else if c == '\\' then ['\\', '\\']
  else if c == '\x08' then ['\\', 'b']
  else if c == '\x0c' then ['\\', 'f']
  else if c == '\n' then ['\\', 'n']
  else if c == '\x0d' then ['\\', 'r']
  else if c == '\t' then ['\\', 't']
  else if c.toNat < 0x20 then ['\\', 'u', '0', '0'] ++ hexByte c.toNat
  else [c]

/-- A string in quotes. -/
def quoted (s : String) : List Char := ['"'] ++ s.toList.flatMap escaped ++ ['"']

/-- A number as it is written. -/
def numeral (n : Number) : List Char :=
  (if n.negative then ['-'] else []) ++ n.whole ++
    (match n.fraction with
      | some digits => '.' :: digits
      | none => []) ++
    (match n.exponent with
      | some (negative, digits) => ['e'] ++ (if negative then ['-'] else []) ++ digits
      | none => [])

/-- A key or text; one without characters is written as the empty one. -/
def label (s : Option String) : List Char := quoted (s.getD "")

/-- Parts with a separator between them. -/
def joined (separator : List Char) : List (List Char) → List Char
  | [] => []
  | [part] => part
  | part :: rest => part ++ separator ++ joined separator rest

/-! ## Layouts -/

mutual

/-- A value without blanks. -/
def compact : Json → List Char
  | null => "null".toList
  | bool true => "true".toList
  | bool false => "false".toList
  | number n => numeral n
  | text s => label s
  | array items => ['['] ++ joined [','] (compactItems items) ++ [']']
  | object fields => ['\x7b'] ++ joined [','] (compactFields fields) ++ ['\x7d']

/-- Items without blanks. -/
def compactItems : List Json → List (List Char)
  | [] => []
  | v :: rest => compact v :: compactItems rest

/-- Fields without blanks. -/
def compactFields : List (Option String × Json) → List (List Char)
  | [] => []
  | (key, v) :: rest => (label key ++ [':'] ++ compact v) :: compactFields rest

end

/-- A new line at a depth. -/
def newline (depth : Nat) : List Char := '\n' :: List.replicate (2 * depth) ' '

/-- A container whose parts stand on lines of their own. -/
def block (opening closing : Char) (depth : Nat) (parts : List (List Char)) : List Char :=
  if parts.isEmpty then [opening, closing]
  else
    [opening] ++ newline (depth + 1) ++ joined (',' :: newline (depth + 1)) parts ++
      newline depth ++ [closing]

mutual

/-- A value on lines of its own, at a depth. -/
def prettyAt (depth : Nat) : Json → List Char
  | array items => block '[' ']' depth (prettyItems (depth + 1) items)
  | object fields => block '\x7b' '\x7d' depth (prettyFields (depth + 1) fields)
  | v => compact v

/-- Items at a depth. -/
def prettyItems (depth : Nat) : List Json → List (List Char)
  | [] => []
  | v :: rest => prettyAt depth v :: prettyItems depth rest

/-- Fields at a depth. -/
def prettyFields (depth : Nat) : List (Option String × Json) → List (List Char)
  | [] => []
  | (key, v) :: rest => (label key ++ [':', ' '] ++ prettyAt depth v) :: prettyFields depth rest

end

/-- The text of a value without blanks. -/
def compactText (v : Json) : String := String.ofList (compact v)

/-- The text of a value with one part per line. -/
def prettyText (v : Json) : String := String.ofList (prettyAt 0 v)

end SetCover.Json
