import SetCover.Decimal.Shortest

/-!
# Faults

Everything that can go wrong, as causes. A cause carries the data that explains it; the wording
of every report is in the `message` functions of this module and nowhere else.

* `Misfit`: a parameter, or the data of an instance, that is refused.
* `Malformation`: what is wrong with a token of an instance text.
* `FileTrouble`: why a file gives no text, or takes none.
* `Breach`: a precondition of an operation that its caller did not keep. Nothing else is promised
  after a breach.
* `Fault`: any of these.
-/

namespace SetCover

/-- Why a parameter, or the data of an instance, is refused. -/
inductive Misfit where
  /-- The number of costs differs from the declared number of subsets. -/
  | costCount (expected given : Nat)
  /-- The number of rows differs from the declared number of elements. -/
  | rowCount (expected given : Nat)
  /-- The row of an element names a subset that does not exist. -/
  | strayMember (element subset subsetCount : Nat)
  /-- A greedy construction chooses among the `size` cheapest subsets; this size is impossible. -/
  | shortlistSize (size subsetCount : Nat)
  /-- The best of no constructions was asked for. -/
  | noConstruction
  /-- Annealing starts at a finite temperature that is not below zero. -/
  | startTemperature (degrees : Float)
  /-- Annealing makes at least one move per temperature. -/
  | noMoves
  /-- A pool has at least one member. -/
  | emptyPool
  /-- There are at least one mate and at most as many as members. -/
  | mateCount (mates poolSize : Nat)
  /-- A chance lies between zero and one. -/
  | copyChance (chance : Float)
  /-- A tournament samples at least one member. -/
  | emptyTournament

/-- The wording of a refusal. -/
def Misfit.message : Misfit → String
  | .costCount expected given => s!"expected {expected} costs, got {given}"
  | .rowCount expected given => s!"expected {expected} coverage entries, got {given}"
  | .strayMember element subset subsetCount =>
      s!"element {element} references subset {subset} but there are only {subsetCount} subsets"
  | .shortlistSize size subsetCount => s!"RCL size k = {size} must lie in 1..={subsetCount}"
  | .noConstruction => "GRASP needs at least one construction"
  | .startTemperature degrees =>
      "initial temperature must be finite and non-negative, got " ++ Decimal.positional degrees
  | .noMoves => "iterations per temperature must be positive"
  | .emptyPool => "population size must be positive"
  | .mateCount mates poolSize => s!"mates count {mates} must lie in 1..={poolSize}"
  | .copyChance chance =>
      "gene copy probability " ++ Decimal.positional chance ++ " must lie in [0, 1]"
  | .emptyTournament => "RTS sample size must be positive"

/-- The numbers that an instance text is made of. -/
inductive Quantity where
  | elementCount
  | subsetCount
  | cost
  | rowLength
  | member
  deriving DecidableEq

/-- How a quantity is called in reports. -/
def Quantity.text : Quantity → String
  | .elementCount => "element count"
  | .subsetCount => "subset count"
  | .cost => "subset cost"
  | .rowLength => "covering subset count"
  | .member => "subset id"

/-- What is wrong with a token of an instance text. -/
inductive Malformation where
  /-- The text ends where a number is expected. -/
  | missing (what : Quantity)
  /-- The token is no number, or one that is too large. -/
  | notNumber (what : Quantity) (token : String)
  /-- The token names a subset that does not exist; subsets count from one in a text. -/
  | strayId (id subsetCount : Nat)
  deriving DecidableEq

/-- The wording of a malformation. -/
def Malformation.message : Malformation → String
  | .missing what => "unexpected end of input, expected " ++ what.text
  | .notNumber what token => "invalid " ++ what.text ++ " '" ++ token ++ "'"
  | .strayId id subsetCount => s!"subset id {id} outside 1..={subsetCount}"

/-- Why a file gives no text, or takes none. -/
inductive FileTrouble where
  | notFound
  | isDirectory
  /-- A part of the path that has to be a directory is none. -/
  | notDirectory
  | notPermitted
  | nameTooLong
  /-- A path has a character that ends it on the machine. -/
  | nulInPath
  | notUtf8
  deriving DecidableEq

/-- The wording of a trouble with a file. -/
def FileTrouble.message : FileTrouble → String
  | .notFound => "No such file or directory (os error 2)"
  | .isDirectory => "Is a directory (os error 21)"
  | .notDirectory => "Not a directory (os error 20)"
  | .notPermitted => "Permission denied (os error 13)"
  | .nameTooLong => "File name too long (os error 36)"
  | .nulInPath => "file name contained an unexpected NUL byte"
  | .notUtf8 => "stream did not contain valid UTF-8"

/-- A precondition of an operation that its caller did not keep. -/
inductive Breach where
  /-- A subset id that the instance does not have. -/
  | unknownSubset
  /-- An element that the instance does not have. -/
  | unknownElement
  /-- A place that a pool does not have. -/
  | unknownPlace
  /-- A cost smaller than the cost of one of its parts. -/
  | costTooSmall
  /-- A number beyond the range of its kind. -/
  | overflow
  /-- A draw from no possibilities. -/
  | emptyDraw
  /-- A draw with a chance outside of zero to one. -/
  | badChance
  /-- More bits than a bit vector holds. -/
  | overWide
  /-- A list so long that it cannot be addressed. -/
  | overLong
  deriving DecidableEq

/-- Everything that can go wrong. -/
inductive Fault where
  /-- A parameter, or the data of an instance, is refused. -/
  | invalid (why : Misfit)
  /-- No subset covers this element, so there is no cover at all. -/
  | uncoverable (element : Nat)
  /-- More subsets than a bit vector of this capacity encodes. -/
  | tooWide (subsetCount capacity : Nat)
  /-- An instance text is malformed at this token; tokens count from one. -/
  | malformed (position : Nat) (why : Malformation)
  /-- A file gives no text, or takes none. -/
  | file (why : FileTrouble)
  /-- A text in JSON is malformed or describes something else; or, with a misfit, it is in order
  but describes data that is refused. -/
  | json (why : Option Misfit)
  /-- A precondition was not kept. -/
  | breach (why : Breach)

namespace Fault

/-- The wording of a refusal. -/
def invalidMessage (why : Misfit) : String := "Invalid configuration: " ++ why.message

/-- The wording of every report. -/
def message : Fault → String
  | invalid why => invalidMessage why
  | uncoverable element => s!"Infeasible instance: element {element} is not covered by any subset"
  | tooWide subsetCount capacity =>
      s!"Instance has {subsetCount} subsets but chromosomes hold at most {capacity}"
  | malformed position why => s!"Parse error at token {position}: " ++ why.message
  | file why => "IO error: " ++ why.message
  | json none => "JSON error: malformed or unexpected data"
  | json (some why) => "JSON error: " ++ invalidMessage why
  | breach _ => "a precondition does not hold"

end Fault

end SetCover
