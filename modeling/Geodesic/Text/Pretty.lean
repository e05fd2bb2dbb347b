/-!
# Aligned text

Widths are counted in characters (Unicode scalar values); a text that is too wide stays whole.
-/

namespace Geodesic.Text

def padRight (width : Nat) (s : String) : String :=
  s.pushn ' ' (width - s.length)

def ruleWidth : Nat := 48

def keyWidth : Nat := 24

def unlines (lines : List String) : String :=
  String.join (lines.map (· ++ "\n"))

def rule : String :=
  "".pushn '-' ruleWidth

def titled (heading : String) : List String :=
  [heading, rule]

/-- A key and its value, the values of short keys in one column. -/
def entry (key value : String) : String :=
  padRight keyWidth (key ++ ":") ++ " " ++ value

end Geodesic.Text
