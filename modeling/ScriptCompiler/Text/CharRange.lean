/-!
# Character ranges

A property of characters is given as a list of closed ranges of code points.
-/

namespace ScriptCompiler.Text

/-- The code point of `c` lies in one of the closed ranges. -/
def inRanges (ranges : List (Nat × Nat)) (c : Char) : Bool :=
  ranges.any fun range => range.1 ≤ c.toNat && c.toNat ≤ range.2

end ScriptCompiler.Text
