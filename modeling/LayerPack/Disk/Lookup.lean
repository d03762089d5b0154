import LayerPack.Disk.Node
import LayerPack.Disk.SystemError

/-! Where a path leads on a disk. Links are followed on the way, at most forty of them. -/
namespace LayerPack

structure Disk where
  root : Node := .dir []
  /-- The number of the next file. -/
  nextId : Nat := 0

/-- A place on a disk: the names from the root down, none of them a link. -/
abbrev Place := List Name

inductive Spot where
  | found (place : Place) (node : Node)
  /-- The directory is there, the name in it is not; `slashed` if the path ended in a slash. -/
  | absent (parent : Place) (name : Name) (slashed : Bool)

/-- One walk over the parts of a path ends at a spot, at a failure, or at a link to follow. -/
inductive Walked where
  | arrived (spot : Spot)
  | failed (error : SystemError)
  | jump (start : Place) (parts : List Bytes)

namespace Disk

/-- The longest name and the longest path, in bytes. -/
def maxName : Nat := 255

def maxPath : Nat := 4095

def maxLinks : Nat := 40

/-- The parts of a path that count: empty ones only at the end, where a slash stands. -/
def partsOf (b : Bytes) : List Bytes :=
  let parts := splitSlash b
  parts.dropLast.filter (· ≠ []) ++ parts.getLast?.toList

def startOf (cwd : Place) (b : Bytes) : Place := if b.head? = some slash then [] else cwd

/-- Walks over parts. A link is not followed if it is the last part and `follow` is off. -/
def walk (root : Node) (follow : Bool) : Place → List Bytes → Walked
  | place, [] =>
    match root.get? place with
    | some node => .arrived (.found place node)
    | none => .failed .noEntry
  | place, part :: rest =>
    match root.get? place with
    | none => .failed .noEntry
    | some (.dir es) =>
      if part = [] ∨ part = dot then walk root follow place rest
      else if part = dotdot then walk root follow place.dropLast rest
      else if part.length > maxName then .failed .nameTooLong
      else
        match Entries.find? es part with
        | none =>
          if rest.all (· = []) then .arrived (.absent place part (rest ≠ []))
          else .failed .noEntry
        | some (.link target) =>
          if rest = [] ∧ !follow then .arrived (.found (place ++ [part]) (.link target))
          else if target = [] then .failed .noEntry
          else .jump (startOf place target) (partsOf target ++ rest)
        | some _ => walk root follow (place ++ [part]) rest
    | some _ => .failed .notDirectory

/-- Walks on from every link that is met, as long as links are left. -/
def chase (root : Node) (follow : Bool) : Nat → Place → List Bytes → Except SystemError Spot
  | links, place, parts =>
    match walk root follow place parts with
    | .arrived spot => .ok spot
    | .failed error => .error error
    | .jump start parts' =>
      match links with
      | 0 => .error .tooManyLinks
      | left + 1 => chase root follow left start parts'

def checkPath (p : Path) : Except SystemError Unit :=
  if p.bytes.contains 0 then .error .nulInPath
  else if p.bytes = [] then .error .noEntry
  else if p.bytes.length > maxPath then .error .nameTooLong
  else .ok ()

/-- Where a path leads from the directory `cwd`. -/
def lookup (d : Disk) (cwd : Place) (follow : Bool) (p : Path) : Except SystemError Spot := do
  checkPath p
  chase d.root follow maxLinks (startOf cwd p.bytes) (partsOf p.bytes)

/-- Where a path leads if something is there. -/
def resolve (d : Disk) (cwd : Place) (follow : Bool) (p : Path) :
    Except SystemError (Place × Node) := do
  match ← d.lookup cwd follow p with
  | .found place node => return (place, node)
  | .absent .. => throw .noEntry

/-- The last part of a path that an operation adds to or takes from a directory. -/
inductive Last where
  | name (name : Name) (slashed : Bool)
  | dot
  | dotdot
  | root

/-- Splits the last part off; the slashes after it are noted. -/
def splitLast (b : Bytes) : List Bytes × Last :=
  let parts := (splitSlash b).filter (· ≠ [])
  match parts.getLast? with
  | none => ([], .root)
  | some last =>
    (parts.dropLast,
      if last = LayerPack.dot then .dot else if last = LayerPack.dotdot then .dotdot
      else .name last (b.getLast? = some slash))

/-- The directory of the last part, with all links before it followed. -/
def lookupParent (d : Disk) (cwd : Place) (p : Path) : Except SystemError (Place × Last) := do
  checkPath p
  let (parts, last) := splitLast p.bytes
  match ← chase d.root true maxLinks (startOf cwd p.bytes) (parts ++ [[]]) with
  | .found place (.dir _) =>
    match last with
    | .name name _ => if name.length > maxName then throw .nameTooLong
    | _ => pure ()
    return (place, last)
  | .found .. => throw .notDirectory
  | .absent .. => throw .noEntry

end Disk

end LayerPack
