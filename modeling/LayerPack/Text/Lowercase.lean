import LayerPack.Text.CaseTable

/-! Lowercase by the full mapping of Unicode: a dotted capital i becomes two characters, and a
capital sigma at the end of a word takes its final form. -/
namespace LayerPack.Text

def CaseRun.covers (r : CaseRun) (code : Nat) : Bool :=
  r.first ≤ code && code ≤ r.last && (code - r.first) % r.step == 0

/-- The lowercase code point of a code point, itself if it has none. -/
def lowerCode (code : Nat) : Nat :=
  match lowercaseRuns.find? (·.covers code) with
  | some r => r.target + (code - r.first)
  | none => code

/-- Lowercase of one character out of context. -/
def lowerChar (c : Char) : List Char :=
  if c.toNat = 0x130 then ['i', Char.ofNat 0x307] else [Char.ofNat (lowerCode c.toNat)]

def isCased (c : Char) : Bool := inRanges casedRanges c.toNat

def isCaseIgnorable (c : Char) : Bool := inRanges caseIgnorableRanges c.toNat

/-- After any ignorable characters comes a cased one. -/
def meetsCased (cs : List Char) : Bool :=
  match cs.dropWhile isCaseIgnorable with
  | [] => false
  | c :: _ => isCased c

/-- Lowercase of the rest of a text, with the characters before it in reverse. A capital sigma is
final when a cased character comes before it and none after it. -/
def lowerFrom : List Char → List Char → List Char
  | _, [] => []
  | before, c :: rest =>
    (if c = 'Σ' then [if meetsCased before && !meetsCased rest then 'ς' else 'σ']
     else lowerChar c) ++ lowerFrom (c :: before) rest

def lowerChars (cs : List Char) : List Char := lowerFrom [] cs

def lower (s : String) : String := String.ofList (lowerChars s.toList)

/-- Lowercase of the letters A to Z only. -/
def lowerAscii (s : String) : String := String.ofList (s.toList.map Char.toLower)

end LayerPack.Text
