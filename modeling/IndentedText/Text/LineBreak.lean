/-!
Cutting a text into its lines. Ten characters end a line, and a carriage return with the line feed
after it is one break. A break ends the line before it, so the last one opens no further line.
-/

namespace IndentedText.Text

/-- The characters that end a line: the ASCII line controls and separators, the next-line control,
and the two separators of Unicode. -/
def lineBreaks : List Char :=
  ['\n', '\r', '\x0b', '\x0c', '\x1c', '\x1d', '\x1e', '\u0085', '\u2028', '\u2029']

def isLineBreak (c : Char) : Bool :=
  lineBreaks.contains c

/-- Puts `c` in front of the first of `lines`; with no line there it is a line of its own. -/
def extendFirst (c : Char) : List (List Char) → List (List Char)
  | [] => [[c]]
  | line :: lines => (c :: line) :: lines

@[simp] theorem extendFirst_nil (c : Char) : extendFirst c [] = [[c]] := rfl

@[simp] theorem extendFirst_cons (c : Char) (line : List Char) (lines : List (List Char)) :
    extendFirst c (line :: lines) = (c :: line) :: lines := rfl

def cutLines : List Char → List (List Char)
  | [] => []
  | '\r' :: '\n' :: rest => [] :: cutLines rest
  | c :: rest =>
    if isLineBreak c then [] :: cutLines rest else extendFirst c (cutLines rest)

def lines (text : String) : List String :=
  (cutLines text.toList).map String.ofList

@[simp] theorem lines_empty : lines "" = [] := rfl

end IndentedText.Text
