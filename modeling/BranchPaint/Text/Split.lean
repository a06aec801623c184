/-!
# Splitting

A text cut at every occurrence of one character. `n` occurrences make `n + 1` pieces, and the pieces
with the character put back between them are the text again.
-/

namespace BranchPaint

/-- The pieces between the occurrences of `sep`. -/
def splitChars (sep : Char) : List Char → List (List Char)
  | [] => [[]]
  | c :: r =>
    if c = sep then [] :: splitChars sep r
    else
      match splitChars sep r with
      | piece :: pieces => (c :: piece) :: pieces
      | [] => [[c]]

end BranchPaint
