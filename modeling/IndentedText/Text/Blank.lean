import IndentedText.Text.LineBreak

/-!
Blank characters, and texts without the blanks at their ends.
-/

namespace IndentedText.Text

/-- Code points of the blank characters, as inclusive ranges: the characters of bidirectional class
B, S or WS and the space separators. -/
def blankRanges : List (Nat × Nat) :=
  [(0x09, 0x0D), (0x1C, 0x20), (0x85, 0x85), (0xA0, 0xA0), (0x1680, 0x1680), (0x2000, 0x200A),
    (0x2028, 0x2029), (0x202F, 0x202F), (0x205F, 0x205F), (0x3000, 0x3000)]

def isBlank (c : Char) : Bool :=
  blankRanges.any fun range => decide (range.1 ≤ c.toNat ∧ c.toNat ≤ range.2)

/-- A line break is blank, so a trimmed text neither begins nor ends with one. -/
theorem isBlank_of_isLineBreak {c : Char} (h : isLineBreak c = true) : isBlank c = true := by
  have breaks : lineBreaks.all isBlank = true := rfl
  exact List.all_eq_true.1 breaks c (by simpa [isLineBreak] using h)

def trimChars (chars : List Char) : List Char :=
  ((chars.dropWhile isBlank).reverse.dropWhile isBlank).reverse

def trim (text : String) : String :=
  String.ofList (trimChars text.toList)

end IndentedText.Text
