import SetCover.Json.Token

/-!
# JSON values

A JSON value as a tree, and its reading from tokens. The reader keeps the containers that are open
in a list, so it takes one token at a time however deep a value is nested.

* `Json.ofTokens?`: the value at the front of some tokens, and the tokens after it.
* `Json.ofText?`: the value at the front of a text, and whether the text ends with it.
* `Json.whole?`: the value that a whole text is.
* `Json.depth`: how deep a value is nested.
-/

namespace SetCover

/-- A JSON value. Keys are kept in order and may be repeated; a key or text without characters of
its own, because of half a surrogate pair, is `none`. -/
inductive Json where
  | null
  | bool (value : Bool)
  | number (value : Json.Number)
  | text (value : Option String)
  | array (items : List Json)
  | object (fields : List (Option String × Json))

namespace Json

/-! ## Reading -/

/-- A container that is still open, with what it holds so far, last item first. -/
inductive Frame where
  | array (items : List Json)
  /-- An object whose next value belongs to `key`. -/
  | object (fields : List (Option String × Json)) (key : Option String)

/-- What may come next. -/
inductive Expect where
  /-- A value. -/
  | value
  /-- A value, or the end of the array that was just opened. -/
  | firstItem
  /-- A key, or the end of the object that was just opened. -/
  | firstKey
  /-- A key of an object with these fields. -/
  | key (fields : List (Option String × Json))
  /-- The colon after a key of an object with these fields. -/
  | colon (fields : List (Option String × Json)) (key : Option String)
  /-- What follows an item of an array. -/
  | afterItem (items : List Json)
  /-- What follows a field of an object. -/
  | afterField (fields : List (Option String × Json))

/-- Where a reader stands: it is done, or it expects something within the open containers. -/
inductive Progress where
  | done (value : Json)
  | going (next : Expect) (open_ : List Frame)

/-- A value is complete: it is the result, or a part of the innermost open container. -/
def complete (v : Json) : List Frame → Progress
  | [] => .done v
  | .array items :: outer => .going (.afterItem (v :: items)) outer
  | .object fields key :: outer => .going (.afterField ((key, v) :: fields)) outer

/-- A token where a value is expected. -/
def beginValue (outer : List Frame) : Token → Option Progress
  | .null => some (complete .null outer)
  | .bool b => some (complete (.bool b) outer)
  | .number n => some (complete (.number n) outer)
  | .text s => some (complete (.text s) outer)
  | .openArray => some (.going .firstItem outer)
  | .openObject => some (.going .firstKey outer)
  | _ => none

/-- One token. -/
def step (outer : List Frame) : Expect → Token → Option Progress
  | .value, t => beginValue outer t
  | .firstItem, .closeArray => some (complete (.array []) outer)
  | .firstItem, t => beginValue (.array [] :: outer) t
  | .firstKey, .closeObject => some (complete (.object []) outer)
  | .firstKey, .text key => some (.going (.colon [] key) outer)
  | .key fields, .text key => some (.going (.colon fields key) outer)
  | .colon fields key, .colon => some (.going .value (.object fields key :: outer))
  | .afterItem items, .comma => some (.going .value (.array items :: outer))
  | .afterItem items, .closeArray => some (complete (.array items.reverse) outer)
  | .afterField fields, .comma => some (.going (.key fields) outer)
  | .afterField fields, .closeObject => some (complete (.object fields.reverse) outer)
  | _, _ => none

/-- Reads on until a value is complete. -/
def readFrom (next : Expect) (outer : List Frame) : List Token → Option (Json × List Token)
  | [] => none
  | t :: rest =>
      match step outer next t with
      | some (.done v) => some (v, rest)
      | some (.going next outer) => readFrom next outer rest
      | none => none

/-- The value at the front of some tokens, and the tokens after it. -/
def ofTokens? (tokens : List Token) : Option (Json × List Token) := readFrom .value [] tokens

/-- The value at the front of a text, and whether the text ends with it. -/
def ofText? (text : String) : Option (Json × Bool) :=
  (ofTokens? (Token.lex text.toList)).map fun (v, rest) => (v, rest.isEmpty)

/-- The value that a whole text is. -/
def whole? (text : String) : Option Json :=
  match ofText? text with
  | some (v, true) => some v
  | _ => none

/-! ## Depth -/

mutual

/-- The number of containers around the innermost part of a value. -/
def depth : Json → Nat
  | array items => depthOfItems items + 1
  | object fields => depthOfFields fields + 1
  | _ => 0

/-- The depth of the deepest item. -/
def depthOfItems : List Json → Nat
  | [] => 0
  | v :: rest => max v.depth (depthOfItems rest)

/-- The depth of the deepest field. -/
def depthOfFields : List (Option String × Json) → Nat
  | [] => 0
  | (_, v) :: rest => max v.depth (depthOfFields rest)

end

end Json

end SetCover
