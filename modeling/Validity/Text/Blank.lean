/-!
Blanks, trimming, cutting and lines. Blanks are tabs and line ends, the information separators, the
space, the no-break space and the spaces of general punctuation. Besides the line feed and the
carriage return, the vertical tab, the form feed, three of the information separators, the next-line
control and the two separators of general punctuation end a line.
-/
namespace Validity.Text

/-- The blank characters. The zero width space and the byte order mark are not among them. -/
def isBlank (c : Char) : Bool :=
  let n := c.toNat
  (0x09 ≤ n && n ≤ 0x0D) || (0x1C ≤ n && n ≤ 0x20) || n == 0x85 || n == 0xA0 || n == 0x1680 ||
    (0x2000 ≤ n && n ≤ 0x200A) || n == 0x2028 || n == 0x2029 || n == 0x202F || n == 0x205F ||
    n == 0x3000

def trimLeft (s : List Char) : List Char :=
  s.dropWhile isBlank

def trimRight (s : List Char) : List Char :=
  (trimLeft s.reverse).reverse

def trim (s : List Char) : List Char :=
  trimRight (trimLeft s)

def trimmed (s : String) : String :=
  String.ofList (trim s.toList)

/-- `part` stands somewhere in `s` as consecutive characters. The empty text stands everywhere. -/
def occursIn (part : List Char) : List Char → Bool
  | [] => part.isEmpty
  | c :: cs => part.isPrefixOf (c :: cs) || occursIn part cs

/-- Cuts a text at every `mark`; there is one more piece than there are marks. -/
def pieces (mark : Char) : List Char → List (List Char)
  | [] => [[]]
  | c :: cs =>
    match pieces mark cs with
    | [] => [[c]]
    | p :: ps => if c = mark then [] :: p :: ps else (c :: p) :: ps

def isLineBreak (c : Char) : Bool :=
  let n := c.toNat
  (0x0A ≤ n && n ≤ 0x0D) || (0x1C ≤ n && n ≤ 0x1E) || n == 0x85 || n == 0x2028 || n == 0x2029

def firstLine (s : List Char) : List Char :=
  s.takeWhile fun c => !isLineBreak c

def unifyNewlines : List Char → List Char
  | [] => []
  | '\r' :: '\n' :: cs => '\n' :: unifyNewlines cs
  | '\r' :: cs => '\n' :: unifyNewlines cs
  | c :: cs => c :: unifyNewlines cs

end Validity.Text
