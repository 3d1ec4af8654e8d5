/-!
# Padding

Texts are filled up to a width, counted in characters. A text that is wider already stays as it
is.
-/

namespace SetCover.Text

/-- Fills up with `c` on the left. -/
def padLeft (width : Nat) (c : Char) (s : String) : String :=
  String.ofList (List.replicate (width - s.length) c) ++ s

/-- Fills up with `c` on the right. -/
def padRight (width : Nat) (c : Char) (s : String) : String :=
  s ++ String.ofList (List.replicate (width - s.length) c)

end SetCover.Text
