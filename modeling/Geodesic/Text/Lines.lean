/-!
# Lines

A line ends at a line feed, and one carriage return right before it belongs to the ending. What
follows the last line feed is a line unless it is empty.
-/

namespace Geodesic.Text

/-- Drop one carriage return from the front of a line that is held backwards. -/
def dropReturn : List Char → List Char
  | '\r' :: rest => rest
  | cs => cs

/-- The lines of a text, after the characters `acc` of a line that has begun, latest first. -/
def linesFrom (acc : List Char) : List Char → List (List Char)
  | [] => if acc.isEmpty then [] else [acc.reverse]
  | c :: rest =>
      if c = '\n' then (dropReturn acc).reverse :: linesFrom [] rest
      else linesFrom (c :: acc) rest

def lines (cs : List Char) : List (List Char) :=
  linesFrom [] cs

end Geodesic.Text
