/-!
# White space

The characters with the Unicode property `White_Space`: the ASCII controls from tab to carriage
return, the space, and seventeen characters beyond ASCII. Trimming takes them from both ends of a
text.
-/

namespace BranchPaint

/-- Has the character the property `White_Space`? -/
def isWhiteSpace (c : Char) : Bool :=
  let n := c.toNat
  (0x9 ≤ n && n ≤ 0xD) || n = 0x20 || n = 0x85 || n = 0xA0 || n = 0x1680 ||
    (0x2000 ≤ n && n ≤ 0x200A)
    || n = 0x2028 || n = 0x2029 || n = 0x202F || n = 0x205F || n = 0x3000

/-- The characters without the white space behind them. -/
def trimEndWhiteSpace (cs : List Char) : List Char :=
  (cs.reverse.dropWhile isWhiteSpace).reverse

/-- The text without the white space at its ends. -/
def trimWhiteSpace (text : String) : String :=
  String.ofList (trimEndWhiteSpace (text.toList.dropWhile isWhiteSpace))

end BranchPaint
