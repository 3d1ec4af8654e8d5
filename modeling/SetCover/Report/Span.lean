import SetCover.Fault
import SetCover.Text.Padding

/-!
# Spans of time

* `Span.ofParts`: a span from seconds and nanoseconds.
* `Span.milliseconds`: its whole milliseconds.
* `Span.text`: hours, minutes, seconds and milliseconds.
-/

namespace SetCover

/-- A span of time. -/
structure Span where
  nanoseconds : Nat
  deriving DecidableEq

namespace Span

/-- A span from seconds and nanoseconds, of which there may be more than make up a second. The
whole seconds have to fit into 64 bits. -/
def ofParts (seconds nanoseconds : Nat) : Except Fault Span :=
  if seconds + nanoseconds / 1000000000 < 2 ^ 64 then
    .ok ⟨seconds * 1000000000 + nanoseconds⟩
  else .error (.breach .overflow)

/-- A span of some milliseconds. -/
def ofMilliseconds (n : Nat) : Span := ⟨n * 1000000⟩

/-- The whole milliseconds. -/
def milliseconds (s : Span) : Nat := s.nanoseconds / 1000000

/-- A number with at least `width` digits. -/
def digits (width n : Nat) : String := Text.padLeft width '0' (toString n)

/-- Hours, minutes, seconds and milliseconds. -/
def text (s : Span) : String :=
  let ms := s.milliseconds
  let seconds := ms / 1000
  s!"{seconds / 3600}h " ++ digits 2 (seconds % 3600 / 60) ++ "m " ++ digits 2 (seconds % 60) ++
    "s " ++ digits 3 (ms % 1000) ++ "ms"

end Span

end SetCover
