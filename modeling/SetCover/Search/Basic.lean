import SetCover.Fault
import SetCover.Random.Source
import SetCover.Random.Chance
import SetCover.Search.Journal

/-!
# Searches

A search draws random words, writes a journal, and may fail; words stay drawn and entries stay
written when it does.

* `Search`: the type of searches.
* `Search.below`, `Search.between`, `Search.favoured`, `Search.unit`: the draws.
* `Search.note`: an entry in the journal.
-/

namespace SetCover

/-- What a search works with. -/
structure Session where
  /-- Where random words come from. -/
  source : Source
  /-- What was written down so far, last entry first. -/
  journal : List Event

/-- A computation that draws, writes down and may fail. -/
abbrev Search := EStateM Fault Session

/-- A computation that only may fail is a search that neither draws nor writes. -/
def Search.ofExcept {α : Type} : Except Fault α → Search α
  | .ok a => pure a
  | .error fault => throw fault

instance : MonadLift (Except Fault) Search := ⟨Search.ofExcept⟩

namespace Search

/-- Writes an entry. -/
def note (event : Event) : Search Unit :=
  modify fun session => { session with journal := event :: session.journal }

/-- The next random word. -/
def word : Search UInt64 :=
  modifyGet fun session =>
    let (w, source) := session.source.next
    (w, { session with source })

/-- A number below `bound`, which has to be positive. -/
def below (bound : Nat) : Search (Fin bound) :=
  if h : 0 < bound then
    modifyGet fun session =>
      let (n, source) := session.source.below bound h
      (n, { session with source })
  else throw (.breach .emptyDraw)

/-- A number from `low` on and below `high`. -/
def between (low high : Int) : Search Int := do
  let n ← below (high - low).toNat
  pure (low + n.val)

/-- Whether an outcome of this chance comes up. A certain outcome takes no word. -/
def favoured (chance : Chance) : Search Bool :=
  if chance.certain then pure true else return chance.favours (← word)

/-- Whether an outcome comes up whose chance is given as a number from zero to one. -/
def favouredBy (p : Float) : Search Bool :=
  match Chance.ofFloat? p with
  | some chance => favoured chance
  | none => throw (.breach .badChance)

/-- A number from zero on and below one, with 53 random places. -/
def unit : Search Float := do
  let w ← word
  pure ((w >>> 11).toFloat * 1.1102230246251565e-16)

end Search

end SetCover
