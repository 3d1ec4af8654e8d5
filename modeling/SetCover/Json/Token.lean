/-!
# Tokens of JSON texts

A JSON text is a sequence of tokens with blanks between them. A number keeps its digits, so that
each reader of it decides which numbers it takes. A string may hold escapes for half a surrogate
pair, which stand for no character; such a string is a token, but it has no text.

* `Token.lex`: the tokens of a text, up to the first place where there is none.
* `Number`: a number as it is written.
* `decodeUnits`: the characters of a string, with pairs of escapes put together.
-/

namespace SetCover.Json

/-! ## Numbers -/

/-- A number as it is written. -/
structure Number where
  /-- Whether there is a minus sign. -/
  negative : Bool
  /-- The digits before the point. -/
  whole : List Char
  /-- The digits after the point, if there is one. -/
  fraction : Option (List Char)
  /-- The exponent, if there is one: whether it is negative, and its digits. -/
  exponent : Option (Bool × List Char)
  deriving DecidableEq

/-- Whether a number can go on with this character. -/
def isNumberChar (c : Char) : Bool :=
  c.isDigit || c == '-' || c == '+' || c == '.' || c == 'e' || c == 'E'

/-- The digits at the front, of which there has to be one. -/
def someDigits? (cs : List Char) : Option (List Char × List Char) :=
  let digits := cs.takeWhile Char.isDigit
  if digits.isEmpty then none else some (digits, cs.dropWhile Char.isDigit)

/-- An exponent, after its letter. -/
def exponent? (cs : List Char) : Option (Bool × List Char) := do
  let (negative, cs) :=
    match cs with
    | '-' :: rest => (true, rest)
    | '+' :: rest => (false, rest)
    | cs => (false, cs)
  let (digits, rest) ← someDigits? cs
  if rest.isEmpty then some (negative, digits) else none

/-- What may follow the digits before the point, and the number that it makes. -/
def numberTail? (negative : Bool) (whole rest : List Char) : Option Number := do
  let (fraction, rest) ←
    match rest with
    | '.' :: rest => do
        let (digits, rest) ← someDigits? rest
        some (some digits, rest)
    | rest => some (none, rest)
  match rest with
  | [] => some ⟨negative, whole, fraction, none⟩
  | c :: rest =>
      if c == 'e' || c == 'E' then do
        let e ← exponent? rest
        some ⟨negative, whole, fraction, some e⟩
      else none

/-- The number that all of the characters make. Its digits do not start with a superfluous zero. -/
def number? (cs : List Char) : Option Number := do
  let (negative, cs) :=
    match cs with
    | '-' :: rest => (true, rest)
    | cs => (false, cs)
  let (whole, rest) ← someDigits? cs
  if whole.head? == some '0' && whole.length != 1 then none
  else numberTail? negative whole rest

/-! ## Strings -/

/-- The value of a hexadecimal digit. -/
def hexDigit? (c : Char) : Option Nat :=
  if c.isDigit then some (c.toNat - '0'.toNat)
  else if 'a' ≤ c ∧ c ≤ 'f' then some (c.toNat - 'a'.toNat + 10)
  else if 'A' ≤ c ∧ c ≤ 'F' then some (c.toNat - 'A'.toNat + 10)
  else none

/-- The value of four hexadecimal digits. -/
def hexUnit? (a b c d : Char) : Option Nat := do
  some (((← hexDigit? a) * 16 + (← hexDigit? b)) * 256 + ((← hexDigit? c) * 16 + (← hexDigit? d)))

/-- The code of a character that is escaped by a letter or by itself. -/
def escapeCode? : Char → Option Nat
  | '"' => some 0x22
  | '\\' => some 0x5c
  | '/' => some 0x2f
  | 'b' => some 0x8
  | 'f' => some 0xc
  | 'n' => some 0xa
  | 'r' => some 0xd
  | 't' => some 0x9
  | _ => none

/-- The codes of a string after its opening quote, and what follows its closing quote; `read` holds
the codes read before, last one first. Control characters have to be escaped. -/
def scanString : List Char → List Nat → Option (List Nat × List Char)
  | [], _ => none
  | c :: rest, read =>
      if c == '"' then some (read.reverse, rest)
      else if c == '\\' then
        match rest with
        | 'u' :: a :: b :: c :: d :: rest =>
            match hexUnit? a b c d with
            | some unit => scanString rest (unit :: read)
            | none => none
        | e :: rest =>
            match escapeCode? e with
            | some code => scanString rest (code :: read)
            | none => none
        | [] => none
      else if c.toNat < 0x20 then none
      else scanString rest (c.toNat :: read)

theorem length_scanString {cs : List Char} {read codes : List Nat} {rest : List Char}
    (h : scanString cs read = some (codes, rest)) : rest.length < cs.length := by
  fun_induction scanString cs read <;> simp_all <;> omega

/-- Whether a code is the first half of a surrogate pair. -/
def isHighHalf (n : Nat) : Bool := 0xd800 ≤ n && n < 0xdc00

/-- Whether a code is the second half of a surrogate pair. -/
def isLowHalf (n : Nat) : Bool := 0xdc00 ≤ n && n < 0xe000

/-- The characters of some codes, with surrogate pairs put together, after the characters `done`,
last one first. A half without its other half stands for no character. -/
def decodeFrom (done : List Char) : List Nat → Option (List Char)
  | [] => some done.reverse
  | n :: rest =>
      if isHighHalf n then
        match rest with
        | m :: rest =>
            if isLowHalf m then
              decodeFrom
                (Char.ofNat (0x10000 + (n - 0xd800) * 0x400 + (m - 0xdc00)) :: done) rest
            else none
        | [] => none
      else if isLowHalf n then none
      else decodeFrom (Char.ofNat n :: done) rest

/-- The characters of some codes. -/
def decodeUnits (codes : List Nat) : Option (List Char) := decodeFrom [] codes

/-! ## Tokens -/

/-- A token of a JSON text. -/
inductive Token where
  | openObject
  | closeObject
  | openArray
  | closeArray
  | colon
  | comma
  | null
  | bool (value : Bool)
  | number (value : Number)
  /-- A string; it has no text when it holds half a surrogate pair. -/
  | text (value : Option String)
  /-- A place where no token starts. -/
  | bad
  deriving DecidableEq

/-- Whether a character may stand between tokens. -/
def isBlank (c : Char) : Bool := c == ' ' || c == '\t' || c == '\n' || c == '\r'

/-- The token that a single character is. -/
def punctuation? : Char → Option Token
  | '{' => some .openObject
  | '}' => some .closeObject
  | '[' => some .openArray
  | ']' => some .closeArray
  | ':' => some .colon
  | ',' => some .comma
  | _ => none

/-- The token that a run of letters is. -/
def keyword (word : List Char) : Token :=
  if word = "null".toList then .null
  else if word = "true".toList then .bool true
  else if word = "false".toList then .bool false
  else .bad

/-- The token of the characters of a number. -/
def numberToken (cs : List Char) : Token :=
  match number? cs with
  | some n => .number n
  | none => .bad

theorem length_dropWhile_le (p : Char → Bool) (cs : List Char) :
    (cs.dropWhile p).length ≤ cs.length :=
  (List.dropWhile_suffix p).length_le

/-- The tokens of a text after the tokens `done`, last one first. Where no token starts, the list
ends with a bad one. -/
def Token.lexFrom (done : List Token) : List Char → List Token
  | [] => done.reverse
  | c :: rest =>
      if isBlank c then lexFrom done rest
      else
        match punctuation? c with
        | some t => lexFrom (t :: done) rest
        | none =>
            if c == '"' then
              match _h : scanString rest [] with
              | some (codes, after) =>
                  lexFrom (.text ((decodeUnits codes).map String.ofList) :: done) after
              | none => (.bad :: done).reverse
            else if isNumberChar c then
              lexFrom (numberToken (c :: rest.takeWhile isNumberChar) :: done)
                (rest.dropWhile isNumberChar)
            else if c.isAlpha then
              lexFrom (keyword (c :: rest.takeWhile Char.isAlpha) :: done)
                (rest.dropWhile Char.isAlpha)
            else (.bad :: done).reverse
termination_by cs => cs.length
decreasing_by
  · simp
  · simp
  · have := length_scanString ‹_›
    simp only [List.length_cons]
    omega
  · have := length_dropWhile_le isNumberChar rest
    simp only [List.length_cons]
    omega
  · have := length_dropWhile_le Char.isAlpha rest
    simp only [List.length_cons]
    omega

/-- The tokens of a text. Where no token starts, the list ends with a bad one. -/
def Token.lex (text : List Char) : List Token := lexFrom [] text

end SetCover.Json
