import LayerPack.Shell.Form

/-! Patterns of names: a star stands for any text, a question mark for any character, brackets for
one of some characters. What was quoted stands for itself. -/
namespace LayerPack.Shell

/-- A character of an expanded word. -/
structure Cell where
  char : Char
  /-- It was quoted in the script. -/
  quoted : Bool := false
  /-- It came from a value and can be split at. -/
  fromValue : Bool := false

namespace Pattern

def textOf (cells : List Cell) : Octets := cells.map (·.char)

/-- The pattern in which every character stands for itself. -/
def exact (text : Octets) : List Cell := text.map fun c => { char := c, quoted := true }

def isMark (c : Char) (cell : Cell) : Bool := !cell.quoted && cell.char = c

/-- There is something in it that does not stand for itself. -/
def isActive (cells : List Cell) : Bool :=
  cells.any fun c => isMark '*' c || isMark '?' c || isMark '[' c

/-- The characters between brackets: single ones and ranges. -/
def inSet (c : Char) : List Cell → Bool
  | low :: dash :: high :: rest =>
    if isMark '-' dash then
      (low.char ≤ c && c ≤ high.char) || inSet c rest
    else low.char = c || inSet c (dash :: high :: rest)
  | cell :: rest => cell.char = c || inSet c rest
  | [] => false

/-- The inside of brackets up to the closing one, which may stand first as a member. -/
def bracketed : List Cell → Option (List Cell × List Cell)
  | [] => none
  | first :: rest =>
    match rest.dropWhile (fun c => !isMark ']' c) with
    | [] => none
    | _ :: after => some (first :: rest.takeWhile (fun c => !isMark ']' c), after)

theorem bracketed_length {cells inside after : List Cell}
    (h : bracketed cells = some (inside, after)) : after.length < cells.length := by
  cases cells with
  | nil => simp [bracketed] at h
  | cons first rest =>
    rw [bracketed] at h
    split at h
    · simp at h
    · next head tail hd =>
      obtain ⟨-, rfl⟩ := Prod.mk.inj (Option.some.inj h)
      have := (List.dropWhile_sublist (fun c => !isMark ']' c) (l := rest)).length_le
      rw [hd] at this
      exact Nat.lt_succ_of_lt this

/-- Whether a character is in a set, where a first mark turns the set around. -/
def admits (inside : List Cell) (c : Char) : Bool :=
  match inside with
  | [] => false
  | first :: rest =>
    if isMark '!' first || isMark '^' first then !inSet c rest else inSet c (first :: rest)

/-- The closing of a set that begins with a mark comes after the character behind the mark. -/
def setOf (cells : List Cell) : Option (List Cell × List Cell) :=
  match cells with
  | [] => none
  | first :: rest =>
    if isMark '!' first || isMark '^' first then
      (bracketed rest).map fun (inside, after) => (first :: inside, after)
    else bracketed (first :: rest)

theorem setOf_length {cells inside after : List Cell} (h : setOf cells = some (inside, after)) :
    after.length < cells.length := by
  cases cells with
  | nil => simp [setOf] at h
  | cons first rest =>
    rw [setOf] at h
    split at h
    · obtain ⟨⟨i, a⟩, hb, he⟩ := Option.map_eq_some_iff.1 h
      obtain ⟨-, rfl⟩ := Prod.mk.inj he
      exact Nat.lt_succ_of_lt (bracketed_length hb)
    · exact bracketed_length h

/-- The whole text fits the pattern. -/
def fits (pattern : List Cell) (text : Octets) : Bool :=
  match pattern, text with
  | [], text => text.isEmpty
  | p :: rest, text =>
    if isMark '*' p then
      fits rest text ||
        match text with
        | [] => false
        | _ :: text => fits (p :: rest) text
    else
      match text with
      | [] => false
      | c :: text =>
        if isMark '?' p then fits rest text
        else if isMark '[' p then
          match _h : setOf rest with
          | some (inside, after) => admits inside c && fits after text
          | none => p.char = c && fits rest text
        else p.char = c && fits rest text
termination_by pattern.length + text.length
decreasing_by
  all_goals simp_wf
  all_goals try omega
  have := setOf_length _h
  omega

/-- The shortest or the longest beginning that fits. -/
def cutFront (longest : Bool) (pattern : List Cell) (text : Octets) : Octets :=
  let sizes := List.range (text.length + 1)
  match (if longest then sizes.reverse else sizes).find? fun n => fits pattern (text.take n) with
  | some n => text.drop n
  | none => text

/-- The shortest or the longest end that fits. -/
def cutBack (longest : Bool) (pattern : List Cell) (text : Octets) : Octets :=
  let sizes := List.range (text.length + 1)
  match (if longest then sizes else sizes.reverse).find? fun n => fits pattern (text.drop n) with
  | some n => text.take n
  | none => text

end Pattern

end LayerPack.Shell
