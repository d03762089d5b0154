/-! White space of Unicode text, trimming and splitting into lines. Everything works on lists of
characters; the functions on `String` wrap those. -/
namespace LayerPack.Text

/-- The characters with the property `White_Space`. -/
def isBlank (c : Char) : Bool :=
  let n := c.toNat
  (9 ≤ n && n ≤ 13) || n == 0x20 || n == 0x85 || n == 0xA0 || n == 0x1680 ||
    (0x2000 ≤ n && n ≤ 0x200A) || n == 0x2028 || n == 0x2029 || n == 0x202F || n == 0x205F ||
    n == 0x3000

def trimLeft (cs : List Char) : List Char := cs.dropWhile isBlank

def trimRight (cs : List Char) : List Char := (cs.reverse.dropWhile isBlank).reverse

def trimChars (cs : List Char) : List Char := trimRight (trimLeft cs)

/-- A text without the white space around it. -/
def trim (s : String) : String := String.ofList (trimChars s.toList)

def trimEnd (s : String) : String := String.ofList (trimRight s.toList)

/-- A text of white space only counts as blank, and so does the empty text. -/
def isBlankText (s : String) : Bool := s.toList.all isBlank

/-- Splits after the first line feed: the line without it, and the rest if there was one. -/
def splitLine : List Char → List Char × Option (List Char)
  | [] => ([], none)
  | c :: rest =>
    if c = '\n' then ([], some rest)
    else let (line, more) := splitLine rest; (c :: line, more)

/-- A carriage return before a line feed belongs to the line end. -/
def dropReturn (line : List Char) : List Char :=
  if line.getLast? = some '\r' then line.dropLast else line

/-- Reads lines with the current line held in reverse. A last line without a line feed keeps a
carriage return at its end, and there is no empty line after a final line feed. -/
def linesFrom : List Char → List Char → List (List Char)
  | [], [] => []
  | held, [] => [held.reverse]
  | held, c :: rest =>
    if c = '\n' then dropReturn held.reverse :: linesFrom [] rest else linesFrom (c :: held) rest

def linesOf (cs : List Char) : List (List Char) := linesFrom [] cs

def lines (s : String) : List String := (linesOf s.toList).map String.ofList

/-- Splits at the first occurrence of a character, which is dropped. -/
def splitAt? (sep : Char) : List Char → Option (List Char × List Char)
  | [] => none
  | c :: rest =>
    if c = sep then some ([], rest)
    else (splitAt? sep rest).map fun (before, after) => (c :: before, after)

/-- All parts between the occurrences of a character; there is always at least one part. -/
def splitAll (sep : Char) : List Char → List (List Char)
  | [] => [[]]
  | c :: rest =>
    match splitAll sep rest with
    | [] => [[c]]
    | part :: parts => if c = sep then [] :: part :: parts else (c :: part) :: parts

def join (sep : String) (parts : List String) : String := sep.intercalate parts

/-- Whether `part` occurs in `whole`. -/
def occursIn {α : Type} [BEq α] (part whole : List α) : Bool :=
  part.isPrefixOf whole ||
    match whole with
    | [] => false
    | _ :: rest => occursIn part rest

end LayerPack.Text
